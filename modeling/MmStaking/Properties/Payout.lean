import MmStaking.Properties.Claims
import MmStaking.Properties.Durations
import MmStaking.Properties.Redemption

/-! Payout: whatever has accrued to a staker, in any of the slots and up to the time of the
claim, one claim pays, to the accounts the staker names. -/
namespace MmStaking
open Words Loops Runs Custody Accrual

section Loop
variable {env : Env} {ctx : Claim} {stakeMint : Pubkey} {bump : U8} {P : Pool}
  {a : StakerAccount} {tokens tokens' : Tokens} {acct : Slot → Pubkey}

/-- The two accounts of slot `i` let a claim of what is accrued to `a` through. -/
structure Claim.Ready (ctx : Claim) (P : Pool) (a : StakerAccount) (tokens : Tokens)
    (acct : Slot → Pubkey) (i : Slot) (x y : Holding) : Prop where
  found : findVault P (P.rewards i).vault = some i
  vault : tokens (P.rewards i).vault = some x
  user : tokens (acct i) = some y
  vault_owner : x.owner = ctx.pool
  vault_alone : x.delegate = none
  user_owner : y.owner = ctx.owner
  mint_eq : y.mint = x.mint
  unfrozen : x.frozen = false ∧ y.frozen = false
  covered : (a.entries i).rewardsAccrued.val ≤ x.amount.val
  room : y.amount.val + (a.entries i).rewardsAccrued.val < 2 ^ 64

theorem Claim.turn_isOk (hne : ctx.owner ≠ ctx.pool)
    (hcreate : env.rt.create (.pool stakeMint) bump = some ctx.pool) {i : Slot} {x y : Holding}
    (h : Ready ctx P a tokens acct i x y) : ∃ tokens',
      ctx.turn env stakeMint bump P (a, tokens) ((P.rewards i).vault, acct i) =
        .ok (a.takeAll fun j => i = j, tokens') ∧
      balance (custody tokens') (acct i) = y.amount.val + (a.entries i).rewardsAccrued.val ∧
      ∀ key, key ≠ (P.rewards i).vault → key ≠ acct i → tokens' key = tokens key := by
  by_cases hzero : (a.entries i).rewardsAccrued.val = 0
  · refine ⟨tokens, Claim.turn_eq_ok_iff.mpr ⟨i, h.found, rfl, ?_⟩, ?_, fun _ _ _ => rfl⟩
    · rw [if_pos hzero]
    · rw [balance_eq h.user, hzero, add_zero]
  · have hdist : (P.rewards i).vault ≠ acct i := by
      intro hsame
      have hx := h.vault
      rw [hsame, h.user, Option.some.injEq] at hx
      rw [← h.user_owner, hx] at hne
      exact hne h.vault_owner
    obtain ⟨tokens', htransfer⟩ := transfer_isOk h.vault h.user h.unfrozen h.covered
      h.mint_eq.symm (Holding.lets_of_undelegated h.vault_owner h.vault_alone)
      (env.rt.create_single hcreate) h.room
    refine ⟨tokens', Claim.turn_eq_ok_iff.mpr ⟨i, h.found, rfl, ?_⟩, ?_, ?_⟩
    · rw [if_neg hzero]
      exact ⟨x, y, h.vault, h.user, h.user_owner, h.mint_eq, hcreate, htransfer⟩
    · obtain ⟨-, -, hmoved⟩ := transfer_moved htransfer h.vault h.user hdist
      rw [balance, hmoved, moved_dest]
      rfl
    · intro key hs hd
      exact transfer_other htransfer hs hd

theorem Claim.Ready.apart (hne : ctx.owner ≠ ctx.pool) {i j : Slot} {x y x' y' : Holding}
    (h : Ready ctx P a tokens acct i x y) (h' : Ready ctx P a tokens acct j x' y') :
    (P.rewards i).vault ≠ acct j := by
  intro hsame
  have hx := h.vault
  rw [hsame, h'.user, Option.some.injEq] at hx
  rw [← h'.user_owner, hx] at hne
  exact hne h.vault_owner

variable (env ctx) in
theorem Claim.loop_isOk (hne : ctx.owner ≠ ctx.pool)
    (hcreate : env.rt.create (.pool stakeMint) bump = some ctx.pool) {J : List Slot}
    (hnodup : J.Nodup)
    (hvault : ∀ i ∈ J, ∀ j ∈ J, (P.rewards i).vault = (P.rewards j).vault → i = j)
    (hacct : ∀ i ∈ J, ∀ j ∈ J, acct i = acct j → i = j)
    (hready : ∀ i ∈ J, ∃ x y, Ready ctx P a tokens acct i x y) : ∃ tokens',
      (J.map fun i => ((P.rewards i).vault, acct i)).foldlM (ctx.turn env stakeMint bump P)
        (a, tokens) = .ok (a.takeAll fun i => i ∈ J, tokens') ∧
      (∀ i ∈ J, balance (custody tokens') (acct i) =
        balance (custody tokens) (acct i) + (a.entries i).rewardsAccrued.val) ∧
      ∀ key, (∀ i ∈ J, key ≠ (P.rewards i).vault ∧ key ≠ acct i) → tokens' key = tokens key := by
  induction J generalizing a tokens with
  | nil =>
      refine ⟨tokens, ?_, by simp, fun _ _ => rfl⟩
      simp [StakerAccount.takeAll]
  | cons i J ih =>
      obtain ⟨hi, hnodup⟩ := List.nodup_cons.mp hnodup
      obtain ⟨x, y, hready_i⟩ := hready i List.mem_cons_self
      obtain ⟨tokens₁, hturn, hpaid, hframe⟩ := Claim.turn_isOk hne hcreate hready_i
      have hmem : ∀ {j}, j ∈ J → j ∈ i :: J := List.mem_cons_of_mem i
      have hneq : ∀ {j}, j ∈ J → i ≠ j := by
        rintro j hj rfl
        exact hi hj
      have hsame : ∀ {j}, j ∈ J → ((a.takeAll fun j => i = j).entries j).rewardsAccrued =
          (a.entries j).rewardsAccrued := by
        intro j hj
        simp [StakerAccount.takeAll, hneq hj]
      -- the accounts of the slots to come are not those of slot `i`
      have hvault_j : ∀ {j}, j ∈ J →
          tokens₁ (P.rewards j).vault = tokens (P.rewards j).vault := by
        intro j hj
        obtain ⟨x', y', hj'⟩ := hready j (hmem hj)
        refine hframe _ ?_ (hj'.apart hne hready_i)
        intro heq
        exact hneq hj (hvault i List.mem_cons_self j (hmem hj) heq.symm)
      have huser_j : ∀ {j}, j ∈ J → tokens₁ (acct j) = tokens (acct j) := by
        intro j hj
        obtain ⟨x', y', hj'⟩ := hready j (hmem hj)
        refine hframe _ (hready_i.apart hne hj').symm ?_
        intro heq
        exact hneq hj (hacct i List.mem_cons_self j (hmem hj) heq.symm)
      obtain ⟨tokens', hloop, hpaid', hframe'⟩ := ih (a := a.takeAll fun j => i = j) hnodup
        (fun j hj l hl => hvault j (hmem hj) l (hmem hl))
        (fun j hj l hl => hacct j (hmem hj) l (hmem hl)) (by
          intro j hj
          obtain ⟨x', y', hj'⟩ := hready j (hmem hj)
          refine ⟨x', y', hj'.found, (hvault_j hj).trans hj'.vault, (huser_j hj).trans hj'.user,
            hj'.vault_owner, hj'.vault_alone, hj'.user_owner, hj'.mint_eq, hj'.unfrozen, ?_, ?_⟩
          · rw [hsame hj]
            exact hj'.covered
          · rw [hsame hj]
            exact hj'.room)
      refine ⟨tokens', ?_, ?_, ?_⟩
      · rw [List.map_cons, List.foldlM_cons, hturn]
        change List.foldlM _ (a.takeAll fun j => i = j, tokens₁) _ = _
        rw [hloop, takeAll_takeAll]
        simp only [List.mem_cons, Bool.decide_or, eq_comm]
      · intro j hj
        rcases List.mem_cons.mp hj with rfl | hj
        · have hlater : tokens' (acct j) = tokens₁ (acct j) := by
            refine hframe' _ ?_
            intro l hl
            obtain ⟨x', y', hl'⟩ := hready l (hmem hl)
            refine ⟨(hl'.apart hne hready_i).symm, ?_⟩
            intro heq
            exact hneq hl (hacct j List.mem_cons_self l (hmem hl) heq)
          rw [balance, custody, hlater]
          change balance (custody tokens₁) (acct j) = _
          rw [hpaid, balance_eq hready_i.user]
        · rw [hpaid' j hj, hsame hj, balance, custody, huser_j hj]
          rfl
      · intro key hkey
        obtain ⟨hkv, hku⟩ := hkey i List.mem_cons_self
        rw [hframe' key fun j hj => hkey j (hmem hj), hframe key hkv hku]

end Loop

section Claims
variable {rt : Runtime} {w₀ w : World} {h : List (World × Event)} {p k : Pubkey} {P : Pool}
  {a : StakerAccount} {now : I64} {J : List Slot} (acct : Slot → Pubkey)

/-- The accounts `owner` passes to be paid the slots of `J` into its accounts `acct`. -/
def claimAccounts (P : Pool) (p k owner : Pubkey) (acct : Slot → Pubkey) (J : List Slot) : Claim :=
  { owner := owner, pool := p, staker := k
    remaining := J.flatMap fun i => [(P.rewards i).vault, acct i] }

theorem keyPairs_flatMap (f g : Slot → Pubkey) (J : List Slot) :
    keyPairs (J.flatMap fun i => [f i, g i]) = J.map fun i => (f i, g i) := by
  induction J with
  | nil => rfl
  | cons i J ih => simp [keyPairs, ih]

theorem length_pairs (f g : Slot → Pubkey) (J : List Slot) :
    (J.flatMap fun i => [f i, g i]).length % 2 = 0 := by
  induction J with
  | nil => rfl
  | cons i J ih =>
      simp only [List.flatMap_cons, List.length_append, List.length_cons, List.length_nil]
      omega

/-- The token accounts a staker with the account `a` names for the slots of `J` can be paid:
they are its own, of the mints of the slots, not frozen, and have room for a vault. -/
def CanReceive (w : World) (P : Pool) (a : StakerAccount) (acct : Slot → Pubkey)
    (J : List Slot) : Prop :=
  ∀ i ∈ J, P.Registered i ∧ ∃ x y, w.tokens (P.rewards i).vault = some x ∧
    w.tokens (acct i) = some y ∧ y.owner = a.owner ∧ y.mint = (P.rewards i).mint ∧
    (x.frozen = false ∧ y.frozen = false) ∧ y.amount.val + x.amount.val < 2 ^ 64

theorem World.Reachable.not_vault (hw : w.Reachable rt) (hP : w.pools p = some P)
    {key : Pubkey} {y : Holding} (hy : w.tokens key = some y) (hu : rt.signable y.owner = true)
    {i : Slot} (hi : P.Registered i) : key ≠ (P.rewards i).vault := by
  obtain ⟨x, hx, hxo, -⟩ := (hw.sound.pool hP).reward_held i hi
  exact (hw.sound.pool hP).not_held hy rfl hu hx hxo

theorem World.Reachable.pays {P' : Pool} {a₁ : StakerAccount} (hw : w.Reachable rt)
    (hP : w.pools p = some P) (hk : w.stakers k = some a) (ha : a.pool = p)
    (hnow : w.clock.val ≤ now.val) (hset : claimSettleAll P a now = .ok (P', a₁))
    (hnodup : J.Nodup) (haccts : CanReceive w P a acct J) : ∃ tokens,
      w.step rt ((Instruction.claim (claimAccounts P p k a.owner acct J)).alone now) =
        .ok { ((w.putPool p P').putStaker k (a₁.takeAll fun i => i ∈ J)).putTokens tokens with
          clock := now } ∧
      (∀ i ∈ J, balance (custody tokens) (acct i) =
        balance (custody w.tokens) (acct i) + (a₁.entries i).rewardsAccrued.val) ∧
      (∀ key, (∀ i ∈ J, key ≠ (P.rewards i).vault ∧ key ≠ acct i) →
        tokens key = w.tokens key) ∧
      Moves {p} {a.owner} (custody w.tokens) (custody tokens) ∧
      ∀ key, (tokens key).map Holding.frozen = (w.tokens key).map Holding.frozen := by
  have hplaced := hw.sound.pool hP
  have hsigned := (hw.sound.staker hk).1.signable
  have hne : a.owner ≠ p := hplaced.unsignable hsigned
  obtain ⟨s, hs, rfl, hstaker, hclock, hvaults⟩ := hw.pool hP
  have hat : s.staker k = a := by
    rw [hstaker]
    exact stakerAt_eq hk ha
  have hs' := hs.settle (hclock.trans hnow) (hat.symm ▸ hset)
  have hkeeps := settleSlots_keeps (claimSettleAll_eq_ok_iff.mp hset).1
  have hslot : ∀ i, (P'.rewards i).vault = (s.pool.rewards i).vault :=
    fun i => congrArg Prod.snd (congrFun (congrArg (fun a => a.2.2.2) hkeeps.anchor) i)
  have hpacked : s.pool.Packed := hs.registry.2
  have hpacked' : P'.Packed := hs'.registry.2
  have hreg := Pool.registered_of_anchor hkeeps.anchor
  have hdistinct : P'.DistinctVaults := by
    intro i j hi hj hij
    exact hpacked'.mint_inj i j hi ((hplaced.congr hkeeps.anchor).vault_inj hi hj hij)
  -- what is owed after the settlement is in the vault
  have hcovered : ∀ i, ((a₁.entries i).rewardsAccrued.val : ℤ) ≤
      w.vaultBalance p (.reward i) := by
    intro i
    have hle := hs'.accrued_le_vault i k
    simp only [Sys.put, Function.update_self] at hle
    exact hle.trans (hvaults (.reward i))
  have hready : ∀ i ∈ J, ∃ x y,
      (claimAccounts s.pool p k a.owner acct J).Ready P' a₁ w.tokens acct i x y := by
    intro i hi
    obtain ⟨hri, x, y, hx, hy, hyo, hym, hfrozen, hroom⟩ := haccts i hi
    obtain ⟨x', hx', hxo, hxm⟩ := hplaced.reward_held i hri
    obtain rfl : x = x' := Option.some.inj (hx.symm.trans hx')
    have hle := hcovered i
    rw [vaultBalance_reward hP hri hx] at hle
    have hle : (a₁.entries i).rewardsAccrued.val ≤ x.amount.val := by exact_mod_cast hle
    refine ⟨x, y, ?_, by rw [hslot]; exact hx, hy, hxo, hplaced.reward_alone i hri x hx, hyo,
      hym.trans hxm.symm, hfrozen, hle, ?_⟩
    · exact (hpacked'.findVault_iff hdistinct ((hreg i).mpr hri)).mpr rfl
    · omega
  obtain ⟨tokens, hloop, hpaid, hframe⟩ := Claim.loop_isOk
    { rt := rt, signers := [a.owner], now := now } (claimAccounts s.pool p k a.owner acct J)
    hne (Pda.create_of_find hplaced.found) hnodup
    (by
      intro i hi j hj hij
      exact hdistinct i j ((hreg i).mpr (haccts i hi).1) ((hreg j).mpr (haccts j hj).1) hij)
    (by
      -- accounts of different mints differ
      intro i hi j hj hij
      obtain ⟨hri, _, y, -, hy, -, hym, -⟩ := haccts i hi
      obtain ⟨-, _, y', -, hy', -, hym', -⟩ := haccts j hj
      rw [hij, hy', Option.some.injEq] at hy
      refine hpacked.mint_inj i j hri ?_
      rw [← hym, ← hym', hy])
    hready
  have hderived := Pda.create_of_find (hw.sound.staker hk).1.found
  rw [ha] at hderived
  have hpairs : keyPairs (claimAccounts s.pool p k a.owner acct J).remaining =
      J.map fun i => ((P'.rewards i).vault, acct i) := by
    simp only [hslot]
    exact keyPairs_flatMap _ _ J
  have hloads : (claimAccounts s.pool p k a.owner acct J).Loads
      { rt := rt, signers := [a.owner], now := now } w s.pool a :=
    ⟨List.mem_singleton_self _, hP, hk, Pda.create_of_find hplaced.found, hderived, rfl⟩
  have hmoves := (Claim.loop_moves (hloads.paidFrom hw.sound hset).2 hloop).2
  refine ⟨tokens, Instruction.step_alone hsigned hnow (Claim.handler_eq_ok_iff.mpr
    ⟨s.pool, a, P', a₁, a₁.takeAll fun i => i ∈ J, tokens, hloads, hset, length_pairs _ _ J, ?_,
      rfl⟩), hpaid, ?_, hmoves, Claim.loop_frozen hloop⟩
  · rw [hpairs]
    exact hloop
  · intro key hkey
    refine hframe key ?_
    intro i hi
    rw [hslot]
    exact hkey i hi

/-- What has accrued to a staker by a later time, in all slots it names accounts for, one
claim signed by it alone pays in full, into accounts of the slots' mints with room for it;
and the slots it does not name keep what they owe. -/
theorem rewards_payable (h0 : w₀.Initial rt) (r : Run (World.Step rt) w₀ h w)
    (hP : w.pools p = some P) (hk : w.stakers k = some a) (ha : a.pool = p)
    (hfit : DepositsFit (callsOn rt p h)) (hnow : w.clock.val ≤ now.val) (hroll : P.RollsBy now)
    (hnodup : J.Nodup) (haccts : CanReceive w P a acct J) :
    ∃ w' P' a₁, claimSettleAll P a now = .ok (P', a₁) ∧
      w.step rt ((Instruction.claim (claimAccounts P p k a.owner acct J)).alone now) = .ok w' ∧
      (∀ i ∈ J, balance (custody w'.tokens) (acct i) =
        balance (custody w.tokens) (acct i) + (a₁.entries i).rewardsAccrued.val) ∧
      w'.stakers k = some (a₁.takeAll fun i => i ∈ J) := by
  have hw : w.Reachable rt := ⟨w₀, h, h0, r⟩
  obtain ⟨s, hs, hb, rfl, hstaker, hclock, -⟩ := h0.bounded r hP hfit
  obtain ⟨P', a₁, hset⟩ := hs.settles hb (hclock.trans hnow) hroll k
  rw [hstaker, stakerAt_eq hk ha] at hset
  obtain ⟨tokens, hstep, hpaid, -⟩ := hw.pays acct hP hk ha hnow hset hnodup haccts
  exact ⟨_, P', a₁, hset, hstep, hpaid, Function.update_self _ _ _⟩

/-- At time 60 the second staker of the trial, with 300 of 400 staked for 50 seconds of 10
each, is paid 375. -/
theorem rewards_payable_trial : ∃ w' P, World.trial.step World.trialRuntime
    ((Instruction.claim (claimAccounts P 100 112 2 (fun _ => 32) [0])).alone 60) = .ok w' ∧
      balance (custody w'.tokens) 32 = 375 := by
  obtain ⟨P, hP⟩ := Option.isSome_iff_exists.mp
    (show (World.trial.pools 100).isSome = true by decide +kernel)
  obtain ⟨a, hk⟩ := Option.isSome_iff_exists.mp
    (show (World.trial.stakers 112).isSome = true by decide +kernel)
  have ha : (World.trial.stakers 112).map (fun a => (a.owner, a.pool)) = some (2, 100) := by
    decide +kernel
  rw [hk, Option.map_some, Option.some.injEq, Prod.mk.injEq] at ha
  have hslot : (World.trial.pools 100).map (fun P => ((P.rewards 0).keys, P.totalStaked.val)) =
      some ((7, 102), 400) := by decide +kernel
  rw [hP, Option.map_some, Option.some.injEq, Prod.mk.injEq] at hslot
  have hmint : (P.rewards 0).mint = 7 := congrArg Prod.fst hslot.1
  have hvault : (P.rewards 0).vault = 102 := congrArg Prod.snd hslot.1
  have hsettled : ((World.trial.pools 100).bind fun P => (World.trial.stakers 112).map fun a =>
      (claimSettleAll P a 60).map fun r => (r.2.entries 0).rewardsAccrued.val) =
        some (.ok 375) := by decide +kernel
  rw [hP, hk, Option.bind_some, Option.map_some, Option.some.injEq] at hsettled
  have hy : World.trial.tokens 32 = some ⟨⟨2, 7⟩, 0, false, none, 0⟩ := by decide +kernel
  have hx : World.trial.tokens 102 = some ⟨⟨100, 7⟩, 800, false, none, 0⟩ := by decide +kernel
  obtain ⟨w', P', a₁, hset, hstep, hpaid, -⟩ := rewards_payable (fun _ => 32)
    World.initial_trialStart World.trial_run.1 hP hk ha.2 depositsFit_trial
    (by decide +kernel : World.trial.clock.val ≤ (60 : I64).val)
    (fun hzero => absurd (hslot.2.symm.trans hzero) (by decide)) (J := [0]) (by decide)
    (by
      intro i hi
      obtain rfl := List.mem_singleton.mp hi
      refine ⟨by rw [Pool.Registered, hmint]; decide, _, _, by rw [hvault]; exact hx, hy,
        ha.1.symm, hmint.symm, ⟨rfl, rfl⟩, by decide⟩)
  rw [hset] at hsettled
  have hdue : (a₁.entries 0).rewardsAccrued.val = 375 := Except.ok.inj hsettled
  have hbalance := hpaid 0 (List.mem_singleton_self _)
  rw [balance_eq hy, hdue] at hbalance
  rw [ha.1] at hstep
  exact ⟨w', P, hstep, hbalance⟩

end Claims
end MmStaking
