import MmStaking.Properties.Custody
import MmStaking.Properties.Redemption
import MmStaking.Refine.Wealth

/-! Closing: the stakers of a pool get out one after another, in whatever order they come, and
none of them is left behind by those before it. -/
namespace MmStaking
open Words Loops Runs Custody

variable {rt : Runtime} {w w' : World} {p : Pubkey} {P : Pool} {z : Holding} {now : I64}
  {acct : Pubkey → Pubkey} {L : List Pubkey}

/-- The staker account at `k` has a stake in the pool at `p`, and its owner a token account for
it. -/
structure CanExit (w : World) (p : Pubkey) (P : Pool) (acct : Pubkey → Pubkey) (k : Pubkey)
    (a : StakerAccount) (x : Holding) : Prop where
  staker : w.stakers k = some a
  pool : a.pool = p
  staked : 0 < a.stakedAmount.val
  token : w.tokens (acct k) = some x
  owner : x.owner = a.owner
  mint : x.mint = P.stakeMint
  unfrozen : x.frozen = false
  room : x.amount.val + a.stakedAmount.val < 2 ^ 64

def exitTx (w : World) (p : Pubkey) (P : Pool) (acct : Pubkey → Pubkey) (now : I64)
    (k : Pubkey) : Tx :=
  let owner := ((w.stakers k).map fun a => a.owner).getD 0
  (Instruction.emergencyWithdraw (exitAccounts P p k owner (acct k))).alone now

theorem CanExit.apart (hw : w.Reachable rt) {j k : Pubkey} {a b : StakerAccount} {x y : Holding}
    (hj : CanExit w p P acct j a x) (hk : CanExit w p P acct k b y) (hne : j ≠ k) :
    acct j ≠ acct k := by
  intro hsame
  refine hne (hw.sound.staker_unique hj.staker hk.staker (hj.pool.trans hk.pool.symm) ?_)
  have htoken := hj.token
  rw [hsame, hk.token, Option.some.injEq] at htoken
  rw [← hj.owner, ← hk.owner, htoken]

theorem CanExit.not_vault (hw : w.Reachable rt) (hP : w.pools p = some P) {k : Pubkey}
    {a : StakerAccount} {x : Holding} (hk : CanExit w p P acct k a x) :
    acct k ≠ P.stakeVault := by
  obtain ⟨y, hy, howner, -⟩ := (hw.sound.pool hP).vault_held
  exact (hw.sound.pool hP).not_held hk.token hk.owner (hw.sound.staker hk.staker).1.signable hy
    howner

/-- What one exit after another keeps: the pool and its vault are where they were, and nobody
outside the list is touched. -/
structure Closing (rt : Runtime) (w : World) (p : Pubkey) (P : Pool) (now : I64) (L : List Pubkey)
    (t : World) : Prop where
  reachable : t.Reachable rt
  clock : t.clock.val ≤ now.val
  pool : ∃ Q, t.pools p = some Q ∧ Q.stakeMint = P.stakeMint ∧ Q.stakeVault = P.stakeVault
  vault : ∃ z, t.tokens P.stakeVault = some z ∧ z.frozen = false
  others : ∀ j, j ∉ L → t.stakers j = w.stakers j

def Waits (w : World) (acct : Pubkey → Pubkey) (L : List Pubkey) (t : World) (k : Pubkey) : Prop :=
  k ∈ L ∧ t.stakers k = w.stakers k ∧ t.tokens (acct k) = w.tokens (acct k)

def Left (w : World) (acct : Pubkey → Pubkey) (L : List Pubkey) (t : World) (k : Pubkey) : Prop :=
  k ∈ L ∧ (∃ a, t.stakers k = some a ∧ a.stakedAmount = 0) ∧
    balance (custody t.tokens) (acct k) = balance (custody w.tokens) (acct k) + w.stakeAt k

theorem Closing.exit {t : World} (hw : w.Reachable rt) (hP : w.pools p = some P)
    (hL : ∀ k ∈ L, ∃ a x, CanExit w p P acct k a x) (ht : Closing rt w p P now L t) {k : Pubkey}
    (hk : Waits w acct L t k) : ∃ t', t.Step rt (.tx (exitTx w p P acct now k)) t' ∧
      Closing rt w p P now L t' ∧ Left w acct L t' k ∧
        ∀ j, j ≠ k → (Waits w acct L t j → Waits w acct L t' j) ∧
          (Left w acct L t j → Left w acct L t' j) := by
  obtain ⟨hmem, hstaker, htoken⟩ := hk
  obtain ⟨a, x, hcan⟩ := hL k hmem
  obtain ⟨Q, hQ, hmint, hvault⟩ := ht.pool
  obtain ⟨z, hz, hfrozen⟩ := ht.vault
  rw [hcan.staker] at hstaker
  rw [hcan.token] at htoken
  obtain ⟨Q', a', tokens, hexit, htransfer, hbalance, hstep⟩ := ht.reachable.withdraws hQ hstaker
    hcan.pool htoken hcan.owner (hcan.mint.trans hmint.symm) (hvault ▸ hz) ⟨hcan.unfrozen, hfrozen⟩
    ht.clock hcan.staked hcan.room
  have hx : exitTx w p P acct now k =
      (Instruction.emergencyWithdraw (exitAccounts Q p k a.owner (acct k))).alone now := by
    simp only [exitTx, exitAccounts, hcan.staker, hmint, hvault, Option.map_some, Option.getD_some]
  have hne : P.stakeVault ≠ acct k := (hcan.not_vault hw hP).symm
  rw [hvault] at htransfer
  have hvaultAfter := transfer_frozen htransfer P.stakeVault
  rw [hz, Option.map_some, hfrozen, Option.map_eq_some_iff] at hvaultAfter
  simp only [emergencyWithdraw, Except.ok.injEq, Prod.mk.injEq] at hexit
  obtain ⟨rfl, rfl, -⟩ := hexit
  have hother : ∀ j ∈ L, j ≠ k → tokens (acct j) = t.tokens (acct j) := by
    intro j hj hjk
    obtain ⟨b, y, hcan'⟩ := hL j hj
    exact transfer_other htransfer (hcan'.not_vault hw hP) (hcan'.apart hw hcan hjk)
  refine ⟨_, .tx (hx ▸ hstep), ⟨?_, le_rfl, ?_, ?_, ?_⟩, ⟨hmem, ?_, ?_⟩, ?_⟩
  · exact ht.reachable.step (.tx hstep)
  · exact ⟨_, Function.update_self _ _ _, hmint, hvault⟩
  · exact hvaultAfter
  · intro j hj
    have hjk : j ≠ k := by
      rintro rfl
      exact hj hmem
    exact (Function.update_of_ne hjk _ _).trans (ht.others j hj)
  · exact ⟨_, Function.update_self _ _ _, rfl⟩
  · have hstake : w.stakeAt k = a.stakedAmount.val := by
      rw [World.stakeAt, hcan.staker]
      rfl
    rw [balance_eq hcan.token, hstake]
    exact hbalance
  · intro j hjk
    constructor
    · rintro ⟨hj, hjstaker, hjtoken⟩
      exact ⟨hj, (Function.update_of_ne hjk _ _).trans hjstaker, (hother j hj hjk).trans hjtoken⟩
    · rintro ⟨hj, ⟨b, hb, hzero⟩, hjbalance⟩
      exact ⟨hj, ⟨b, (Function.update_of_ne hjk _ _).trans hb, hzero⟩,
        (balance_congr (hother j hj hjk)).trans hjbalance⟩

/-- Any stakers of a pool with token accounts to go to get out one after another, in whatever
order they come, each by its own signature alone and with all it had staked. If nobody else
had a stake, nothing is left staked. -/
theorem everyone_exits (hw : w.Reachable rt) (hP : w.pools p = some P)
    (hz : w.tokens P.stakeVault = some z) (hfrozen : z.frozen = false)
    (hnow : w.clock.val ≤ now.val) (hnodup : L.Nodup)
    (hL : ∀ k ∈ L, ∃ a x, CanExit w p P acct k a x) :
    ∃ h w', Run (World.Step rt) w h w' ∧
      h.map Prod.snd = L.map (fun k => Event.tx (exitTx w p P acct now k)) ∧
      (∀ k ∈ L, (∃ a, w'.stakers k = some a ∧ a.stakedAmount = 0) ∧
        balance (custody w'.tokens) (acct k) = balance (custody w.tokens) (acct k) + w.stakeAt k) ∧
      ((∀ k, 0 < (w.stakerAt p k).stakedAmount.val → k ∈ L) →
        ∃ P', w'.pools p = some P' ∧ P'.totalStaked.val = 0) := by
  have hstart : Closing rt w p P now L w :=
    ⟨hw, hnow, ⟨P, hP, rfl, rfl⟩, ⟨z, hz, hfrozen⟩, fun _ _ => rfl⟩
  have hexit : ∀ t k, Closing rt w p P now L t → Waits w acct L t k →
      ∃ t', World.Step rt t (.tx (exitTx w p P acct now k)) t' ∧ Closing rt w p P now L t' ∧
        Left w acct L t' k ∧ ∀ j, j ≠ k → (Waits w acct L t j → Waits w acct L t' j) ∧
          (Left w acct L t j → Left w acct L t' j) :=
    fun t k ht hk => Closing.exit hw hP hL ht hk
  obtain ⟨h, w', r, hlabels, hclosing, hleft, -⟩ := exists_run hexit hnodup hstart
    fun k hk => ⟨hk, rfl, rfl⟩
  refine ⟨h, w', r, hlabels, fun k hk => (hleft k hk).2, ?_⟩
  intro hall
  obtain ⟨P', hP', -⟩ := hclosing.pool
  refine ⟨P', hP', ?_⟩
  rw [hclosing.reachable.total_eq hP']
  refine Finset.sum_eq_zero ?_
  intro k _
  by_cases hk : k ∈ L
  · obtain ⟨-, ⟨a, ha, hzero⟩, -⟩ := hleft k hk
    rw [World.stakerAt, ha]
    dsimp only
    split
    · rw [hzero]
      rfl
    · rfl
  · have hnone : ¬ 0 < (w.stakerAt p k).stakedAmount.val := mt (hall k) hk
    rw [World.stakerAt, hclosing.others k hk]
    rw [World.stakerAt] at hnone
    omega

/-- Both stakers of the trial leave, the second one first, and have their 1000 again. -/
theorem everyone_exits_trial : ∃ h w', Run (World.Step World.trialRuntime) World.trial h w' ∧
    h.length = 2 ∧ balance (custody w'.tokens) 21 = 1000 ∧
      balance (custody w'.tokens) 22 = 1000 := by
  obtain ⟨P, hP⟩ := Option.isSome_iff_exists.mp
    (show (World.trial.pools 100).isSome = true by decide +kernel)
  have hkeys : (World.trial.pools 100).map (fun P => (P.stakeMint, P.stakeVault)) =
      some (5, 101) := by decide +kernel
  rw [hP, Option.map_some, Option.some.injEq, Prod.mk.injEq] at hkeys
  have hz : World.trial.tokens 101 = some ⟨⟨100, 5⟩, 400, false, none, 0⟩ := by decide +kernel
  have h21 : World.trial.tokens 21 = some ⟨⟨1, 5⟩, 900, false, none, 0⟩ := by decide +kernel
  have h22 : World.trial.tokens 22 = some ⟨⟨2, 5⟩, 700, false, some 2, 300⟩ := by decide +kernel
  have hfirst : (World.trial.stakers 111).map (fun a => (a.owner, a.pool, a.stakedAmount.val)) =
      some (1, 100, 100) := by decide +kernel
  have hsecond : (World.trial.stakers 112).map (fun a => (a.owner, a.pool, a.stakedAmount.val)) =
      some (2, 100, 300) := by decide +kernel
  obtain ⟨a, ha, hvals⟩ := Option.map_eq_some_iff.mp hfirst
  obtain ⟨b, hb, hvals'⟩ := Option.map_eq_some_iff.mp hsecond
  simp only [Prod.mk.injEq] at hvals hvals'
  have hcan : ∀ k ∈ [(112 : Pubkey), 111], ∃ a x,
      CanExit World.trial 100 P (fun k => if k = 111 then 21 else 22) k a x := by
    intro k hk
    rcases List.mem_cons.mp hk with rfl | hk
    · exact ⟨b, _, hb, hvals'.2.1, by rw [hvals'.2.2]; decide, h22, hvals'.1.symm, hkeys.1.symm,
        rfl, by rw [hvals'.2.2]; decide⟩
    · obtain rfl := List.mem_singleton.mp hk
      exact ⟨a, _, ha, hvals.2.1, by rw [hvals.2.2]; decide, h21, hvals.1.symm, hkeys.1.symm, rfl,
        by rw [hvals.2.2]; decide⟩
  obtain ⟨h, w', r, hlabels, hleft, -⟩ := everyone_exits World.reachable_trial hP
    (by rw [hkeys.2]; exact hz) rfl (by decide +kernel : World.trial.clock.val ≤ (60 : I64).val)
    (by decide) hcan
  have hstake : World.trial.stakeAt 111 = 100 ∧ World.trial.stakeAt 112 = 300 := by decide +kernel
  obtain ⟨-, hbalance⟩ := hleft 111 (by simp)
  obtain ⟨-, hbalance'⟩ := hleft 112 (by simp)
  rw [if_pos rfl, balance_eq h21, hstake.1] at hbalance
  rw [if_neg (by decide), balance_eq h22, hstake.2] at hbalance'
  have hlength := congrArg List.length hlabels
  rw [List.length_map, List.length_map] at hlength
  exact ⟨h, w', r, hlength, hbalance, hbalance'⟩

end MmStaking
