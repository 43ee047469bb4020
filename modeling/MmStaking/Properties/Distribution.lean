import MmStaking.Properties.Custody
import MmStaking.Properties.Payout

/-! Distribution: the stakers of a pool claim at one time, one after another in whatever order
they come. Each is paid what had accrued to it before the first of them came, and those who
do not come lose nothing. -/
namespace MmStaking
open Words Loops Runs Custody

variable {rt : Runtime} {w₀ w : World} {h : List (World × Event)} {p : Pubkey} {P P' : Pool}
  {now : I64} {acct : Pubkey → Slot → Pubkey} {J : Pubkey → List Slot} {L : List Pubkey}

/-- The staker account at `k` can be paid the slots of `J k` into its owner's accounts. -/
structure CanClaim (w : World) (p : Pubkey) (P : Pool) (acct : Pubkey → Slot → Pubkey)
    (J : Pubkey → List Slot) (k : Pubkey) (a : StakerAccount) : Prop where
  staker : w.stakers k = some a
  pool : a.pool = p
  nodup : (J k).Nodup
  receive : CanReceive w P a (acct k) (J k)

def claimTx (w : World) (p : Pubkey) (P : Pool) (acct : Pubkey → Slot → Pubkey)
    (J : Pubkey → List Slot) (now : I64) (k : Pubkey) : Tx :=
  let owner := ((w.stakers k).map fun a => a.owner).getD 0
  (Instruction.claim (claimAccounts P p k owner (acct k) (J k))).alone now

/-- What has accrued in slot `i` to the staker account at `k` by `now`. -/
def World.due (w : World) (p : Pubkey) (now : I64) (k : Pubkey) (i : Slot) : ℕ :=
  match w.pools p with
  | some P =>
      match claimSettleAll P (w.stakerAt p k) now with
      | .ok (_, a) => (a.entries i).rewardsAccrued.val
      | .error _ => 0
  | none => 0

theorem World.due_eq {k : Pubkey} {a₁ : StakerAccount} (hP : w.pools p = some P)
    (hset : settleSlots P now = .ok P') (he : settleEntries P' (w.stakerAt p k) = .ok a₁)
    (i : Slot) : w.due p now k i = (a₁.entries i).rewardsAccrued.val := by
  rw [World.due, hP]
  dsimp only
  rw [claimSettleAll_eq_ok_iff.mpr ⟨hset, he⟩]

theorem CanClaim.apart (hw : w.Reachable rt) {j k : Pubkey} {a b : StakerAccount}
    (hj : CanClaim w p P acct J j a) (hk : CanClaim w p P acct J k b) (hne : j ≠ k) {i i' : Slot}
    (hi : i ∈ J j) (hi' : i' ∈ J k) : acct j i ≠ acct k i' := by
  intro hsame
  obtain ⟨-, _, y, -, hy, howner, -⟩ := hj.receive i hi
  obtain ⟨-, _, z, -, hz, howner', -⟩ := hk.receive i' hi'
  rw [hsame, hz, Option.some.injEq] at hy
  refine hne (hw.sound.staker_unique hj.staker hk.staker (hj.pool.trans hk.pool.symm) ?_)
  rw [← howner, ← howner', hy]

theorem CanClaim.not_vault (hw : w.Reachable rt) (hP : w.pools p = some P) {k : Pubkey}
    {a : StakerAccount} (hk : CanClaim w p P acct J k a) {i i' : Slot} (hi : i ∈ J k)
    (hi' : P.Registered i') : acct k i ≠ (P.rewards i').vault := by
  obtain ⟨-, _, y, -, hy, howner, -⟩ := hk.receive i hi
  refine hw.not_vault hP hy ?_ hi'
  rw [howner]
  exact (hw.sound.staker hk.staker).1.signable

/-- What one claim after another keeps: the pool settles to the same pool, no vault has grown
or been frozen, and nobody outside the list is touched. -/
structure Paying (rt : Runtime) (w : World) (p : Pubkey) (P P' : Pool) (now : I64) (L : List Pubkey)
    (t : World) : Prop where
  reachable : t.Reachable rt
  clock : t.clock.val ≤ now.val
  pool : ∃ Q, t.pools p = some Q ∧ settleSlots Q now = .ok P'
  vault : ∀ i, P.Registered i → ∀ x, w.tokens (P.rewards i).vault = some x →
    ∃ x', t.tokens (P.rewards i).vault = some x' ∧ x'.frozen = x.frozen ∧
      x'.amount.val ≤ x.amount.val
  others : ∀ j, j ∉ L → t.stakers j = w.stakers j

def Unpaid (w : World) (acct : Pubkey → Slot → Pubkey) (J : Pubkey → List Slot) (L : List Pubkey)
    (t : World) (k : Pubkey) : Prop :=
  k ∈ L ∧ t.stakers k = w.stakers k ∧ ∀ i ∈ J k, t.tokens (acct k i) = w.tokens (acct k i)

def Paid (w : World) (p : Pubkey) (now : I64) (acct : Pubkey → Slot → Pubkey)
    (J : Pubkey → List Slot) (L : List Pubkey) (t : World) (k : Pubkey) : Prop :=
  k ∈ L ∧ (∃ a, t.stakers k = some a ∧ ∀ i ∈ J k, (a.entries i).rewardsAccrued = 0) ∧
    ∀ i ∈ J k, balance (custody t.tokens) (acct k i) =
      balance (custody w.tokens) (acct k i) + w.due p now k i

theorem Paying.receive {t : World} {Q : Pool} (ht : Paying rt w p P P' now L t)
    (hanchor : Q.anchor = P.anchor) {k : Pubkey} {a : StakerAccount}
    (hcan : CanClaim w p P acct J k a)
    (htokens : ∀ i ∈ J k, t.tokens (acct k i) = w.tokens (acct k i)) :
    CanReceive t Q a (acct k) (J k) := by
  intro i hi
  obtain ⟨hreg, x, y, hx, hy, howner, hmint, hfrozen, hroom⟩ := hcan.receive i hi
  obtain ⟨x', hx', hsame, hle⟩ := ht.vault i hreg x hx
  have hvault : (Q.rewards i).vault = (P.rewards i).vault :=
    congrArg Prod.snd (congrFun (congrArg (fun a => a.2.2.2) hanchor) i)
  refine ⟨(Pool.registered_of_anchor hanchor i).mpr hreg, x', y, hvault ▸ hx',
    (htokens i hi).trans hy, howner, ?_, ⟨hsame.trans hfrozen.1, hfrozen.2⟩, by omega⟩
  rw [Pool.mint_of_anchor hanchor]
  exact hmint

theorem vault_after {tokens tokens' : Tokens} {u key : Pubkey} {x : Holding}
    (hmoves : Moves {p} {u} (custody tokens) (custody tokens'))
    (hfrozen : (tokens' key).map Holding.frozen = (tokens key).map Holding.frozen)
    (hx : tokens key = some x) (hne : x.owner ≠ u) : ∃ x', tokens' key = some x' ∧
      x'.frozen = x.frozen ∧ x'.amount.val ≤ x.amount.val := by
  obtain ⟨z, hz, -, hle⟩ := hmoves.account_le (custody_eq_some hx) hne
  obtain ⟨x', hx', rfl⟩ := Option.map_eq_some_iff.mp hz
  rw [hx', hx, Option.map_some, Option.map_some, Option.some.injEq] at hfrozen
  exact ⟨x', hx', hfrozen, hle⟩

theorem Paying.claim {t : World} (hw : w.Reachable rt) (hP : w.pools p = some P)
    (hset : settleSlots P now = .ok P') (hagain : settleSlots P' now = .ok P')
    (hentries : ∀ k, ∃ a₁, settleEntries P' (w.stakerAt p k) = .ok a₁)
    (hL : ∀ k ∈ L, ∃ a, CanClaim w p P acct J k a) (ht : Paying rt w p P P' now L t)
    {k : Pubkey} (hk : Unpaid w acct J L t k) :
    ∃ t', World.Step rt t (.tx (claimTx w p P acct J now k)) t' ∧
      Paying rt w p P P' now L t' ∧ Paid w p now acct J L t' k ∧
        ∀ j, j ≠ k → (Unpaid w acct J L t j → Unpaid w acct J L t' j) ∧
          (Paid w p now acct J L t j → Paid w p now acct J L t' j) := by
  obtain ⟨hmem, hstaker, htokens⟩ := hk
  obtain ⟨a, hcan⟩ := hL k hmem
  obtain ⟨Q, hQ, hsettled⟩ := ht.pool
  obtain ⟨a₁, he⟩ := hentries k
  have hdue := World.due_eq hP hset he
  rw [hcan.staker] at hstaker
  rw [stakerAt_eq hcan.staker hcan.pool] at he
  have hanchor : Q.anchor = P.anchor :=
    (settleSlots_keeps hsettled).anchor.symm.trans (settleSlots_keeps hset).anchor
  have hvault : ∀ i, (Q.rewards i).vault = (P.rewards i).vault :=
    fun i => congrArg Prod.snd (congrFun (congrArg (fun a => a.2.2.2) hanchor) i)
  obtain ⟨tokens, hstep, hpaid, hframe, hmoves, hfrozen⟩ := ht.reachable.pays (acct k) hQ hstaker
    hcan.pool ht.clock (claimSettleAll_eq_ok_iff.mpr ⟨hsettled, he⟩) hcan.nodup
    (ht.receive hanchor hcan htokens)
  have htx : claimTx w p P acct J now k =
      (Instruction.claim (claimAccounts Q p k a.owner (acct k) (J k))).alone now := by
    simp only [claimTx, claimAccounts, hcan.staker, hvault, Option.map_some, Option.getD_some]
  have hsigned := (hw.sound.staker hcan.staker).1.signable
  -- the accounts of the others are neither vaults nor the claimer's
  have hother : ∀ j ∈ L, j ≠ k → ∀ i ∈ J j, tokens (acct j i) = t.tokens (acct j i) := by
    intro j hj hjk i hi
    obtain ⟨b, hcan'⟩ := hL j hj
    refine hframe _ ?_
    intro i' hi'
    rw [hvault]
    exact ⟨hcan'.not_vault hw hP hi (hcan.receive i' hi').1, hcan'.apart hw hcan hjk hi hi'⟩
  refine ⟨_, .tx (htx ▸ hstep), ⟨?_, le_rfl, ?_, ?_, ?_⟩, ⟨hmem, ?_, ?_⟩, ?_⟩
  · exact ht.reachable.step (.tx hstep)
  · exact ⟨P', Function.update_self _ _ _, hagain⟩
  · intro i hi x hx
    obtain ⟨x', hx', hsame, hle⟩ := ht.vault i hi x hx
    obtain ⟨y, hy, howner, -⟩ := (ht.reachable.sound.pool hQ).reward_held i
      ((Pool.registered_of_anchor hanchor i).mpr hi)
    rw [hvault, hx', Option.some.injEq] at hy
    have hne : x'.owner ≠ a.owner := by
      rw [hy, howner]
      exact ((hw.sound.pool hP).unsignable hsigned).symm
    obtain ⟨x'', hx'', hsame', hle'⟩ := vault_after hmoves (hfrozen _) hx' hne
    exact ⟨x'', hx'', hsame'.trans hsame, hle'.trans hle⟩
  · intro j hj
    have hjk : j ≠ k := by
      rintro rfl
      exact hj hmem
    exact (Function.update_of_ne hjk _ _).trans (ht.others j hj)
  · refine ⟨_, Function.update_self _ _ _, ?_⟩
    intro i hi
    simp [StakerAccount.takeAll, hi]
  · intro i hi
    rw [hdue, ← balance_congr (htokens i hi)]
    exact hpaid i hi
  · intro j hjk
    constructor
    · rintro ⟨hj, hjstaker, hjtokens⟩
      refine ⟨hj, (Function.update_of_ne hjk _ _).trans hjstaker, ?_⟩
      intro i hi
      exact (hother j hj hjk i hi).trans (hjtokens i hi)
    · rintro ⟨hj, ⟨b, hb, hzero⟩, hjbalance⟩
      refine ⟨hj, ⟨b, (Function.update_of_ne hjk _ _).trans hb, hzero⟩, ?_⟩
      intro i hi
      exact (balance_congr (hother j hj hjk i hi)).trans (hjbalance i hi)

/-- Any stakers of a pool that claim at one time are paid, in whatever order they come, what
had accrued to each of them before the first one came; what has accrued to anybody else is
what it was. -/
theorem everyone_claims (h0 : w₀.Initial rt) (r : Run (World.Step rt) w₀ h w)
    (hP : w.pools p = some P) (hfit : DepositsFit (callsOn rt p h))
    (hnow : w.clock.val ≤ now.val) (hroll : P.RollsBy now) (hnodup : L.Nodup)
    (hL : ∀ k ∈ L, ∃ a, CanClaim w p P acct J k a) :
    ∃ h' w', Run (World.Step rt) w h' w' ∧
      h'.map Prod.snd = L.map (fun k => Event.tx (claimTx w p P acct J now k)) ∧
      (∀ k ∈ L, (∃ a, w'.stakers k = some a ∧ ∀ i ∈ J k, (a.entries i).rewardsAccrued = 0) ∧
        ∀ i ∈ J k, balance (custody w'.tokens) (acct k i) =
          balance (custody w.tokens) (acct k i) + w.due p now k i) ∧
      ∀ k, k ∉ L → ∀ i, w'.due p now k i = w.due p now k i := by
  have hw : w.Reachable rt := ⟨w₀, h, h0, r⟩
  obtain ⟨s, hs, hb, rfl, hstaker, hclock, -⟩ := h0.bounded r hP hfit
  obtain ⟨P', a', hsettle⟩ := hs.settles hb (hclock.trans hnow) hroll p
  obtain ⟨hset, -⟩ := claimSettleAll_eq_ok_iff.mp hsettle
  have hagain : settleSlots P' now = .ok P' :=
    settleSlots_of_settledAt (settleSlots_settledAt hs.registry.1.last_nonneg hset)
  have hentries : ∀ k, ∃ a₁, settleEntries P' (w.stakerAt p k) = .ok a₁ := by
    intro k
    rw [← hstaker]
    exact hs.settleEntries_isOk hb (hs.inv.notBefore_of_le (hclock.trans hnow)) hset k
  have hstart : Paying rt w p s.pool P' now L w := by
    refine ⟨hw, hnow, ⟨s.pool, hP, hset⟩, ?_, fun _ _ => rfl⟩
    intro i _ x hx
    exact ⟨x, hx, rfl, le_rfl⟩
  have hclaim : ∀ t k, Paying rt w p s.pool P' now L t → Unpaid w acct J L t k →
      ∃ t', World.Step rt t (.tx (claimTx w p s.pool acct J now k)) t' ∧
        Paying rt w p s.pool P' now L t' ∧ Paid w p now acct J L t' k ∧
          ∀ j, j ≠ k → (Unpaid w acct J L t j → Unpaid w acct J L t' j) ∧
            (Paid w p now acct J L t j → Paid w p now acct J L t' j) :=
    fun t k ht hk => Paying.claim hw hP hset hagain hentries hL ht hk
  obtain ⟨h', w', r', hlabels, hpaying, hpaid, -⟩ := exists_run hclaim hnodup hstart
    fun k hk => ⟨hk, rfl, fun _ _ => rfl⟩
  refine ⟨h', w', r', hlabels, fun k hk => (hpaid k hk).2, ?_⟩
  intro k hk i
  obtain ⟨Q, hQ, hsettled⟩ := hpaying.pool
  obtain ⟨a₁, he⟩ := hentries k
  have hsame : w'.stakerAt p k = w.stakerAt p k := by
    rw [World.stakerAt, World.stakerAt, hpaying.others k hk]
  rw [World.due_eq hP hset he, World.due_eq hQ hsettled (hsame.symm ▸ he)]

/-- At time 60 the second staker of the trial claims before the first: 375 and 25. -/
theorem everyone_claims_trial : ∃ h w', Run (World.Step World.trialRuntime) World.trial h w' ∧
    h.length = 2 ∧ balance (custody w'.tokens) 31 = 225 ∧
      balance (custody w'.tokens) 32 = 375 := by
  obtain ⟨P, hP⟩ := Option.isSome_iff_exists.mp
    (show (World.trial.pools 100).isSome = true by decide +kernel)
  have hslot : (World.trial.pools 100).map (fun P => ((P.rewards 0).keys, P.totalStaked.val)) =
      some ((7, 102), 400) := by decide +kernel
  rw [hP, Option.map_some, Option.some.injEq, Prod.mk.injEq] at hslot
  have hmint : (P.rewards 0).mint = 7 := congrArg Prod.fst hslot.1
  have hvault : (P.rewards 0).vault = 102 := congrArg Prod.snd hslot.1
  have h31 : World.trial.tokens 31 = some ⟨⟨1, 7⟩, 200, false, none, 0⟩ := by decide +kernel
  have h32 : World.trial.tokens 32 = some ⟨⟨2, 7⟩, 0, false, none, 0⟩ := by decide +kernel
  have hx : World.trial.tokens 102 = some ⟨⟨100, 7⟩, 800, false, none, 0⟩ := by decide +kernel
  have hfirst : (World.trial.stakers 111).map (fun a => (a.owner, a.pool)) = some (1, 100) := by
    decide +kernel
  have hsecond : (World.trial.stakers 112).map (fun a => (a.owner, a.pool)) = some (2, 100) := by
    decide +kernel
  obtain ⟨a, ha, hvals⟩ := Option.map_eq_some_iff.mp hfirst
  obtain ⟨b, hb, hvals'⟩ := Option.map_eq_some_iff.mp hsecond
  simp only [Prod.mk.injEq] at hvals hvals'
  have hreg : P.Registered 0 := by
    rw [Pool.Registered, hmint]
    decide
  have hcan : ∀ k ∈ [(112 : Pubkey), 111], ∃ a, CanClaim World.trial 100 P
      (fun k _ => if k = 111 then 31 else 32) (fun _ => [0]) k a := by
    intro k hk
    rcases List.mem_cons.mp hk with rfl | hk
    · refine ⟨b, hb, hvals'.2, by decide, ?_⟩
      intro i hi
      obtain rfl := List.mem_singleton.mp hi
      exact ⟨hreg, _, _, hvault ▸ hx, h32, hvals'.1.symm, hmint.symm, ⟨rfl, rfl⟩, by decide⟩
    · obtain rfl := List.mem_singleton.mp hk
      refine ⟨a, ha, hvals.2, by decide, ?_⟩
      intro i hi
      obtain rfl := List.mem_singleton.mp hi
      exact ⟨hreg, _, _, hvault ▸ hx, h31, hvals.1.symm, hmint.symm, ⟨rfl, rfl⟩, by decide⟩
  obtain ⟨h, w', r, hlabels, hpaid, -⟩ := everyone_claims World.initial_trialStart
    World.trial_run.1 hP depositsFit_trial
    (by decide +kernel : World.trial.clock.val ≤ (60 : I64).val)
    (fun hzero => absurd (hslot.2.symm.trans hzero) (by decide)) (by decide) hcan
  have hdue : World.trial.due 100 60 111 0 = 25 ∧ World.trial.due 100 60 112 0 = 375 := by
    decide +kernel
  have hfirst := (hpaid 111 (by simp)).2 0 (by simp)
  have hsecond := (hpaid 112 (by simp)).2 0 (by simp)
  rw [if_pos rfl, balance_eq h31, hdue.1] at hfirst
  rw [if_neg (by decide), balance_eq h32, hdue.2] at hsecond
  have hlength := congrArg List.length hlabels
  rw [List.length_map, List.length_map] at hlength
  exact ⟨h, w', r, hlength, hfirst, hsecond⟩

end MmStaking
