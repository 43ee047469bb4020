import Mathlib.Data.FinEnum
import MmStaking.Properties.Principal
import MmStaking.Properties.Solvency
import MmStaking.Refine.Chain

/-! Backing: what the program owes is in the token accounts. The ledger of a pool's system is
a lower bound of what its vaults hold, so solvency is solvency of the real balances, of all
pools at once. -/
namespace MmStaking
open Words Loops Runs Custody Accrual

/-- What slot `i` owes a staker account, settled or not, in units of `1 / PRECISION`. -/
def Pool.owes (pool : Pool) (i : Slot) (staker : StakerAccount) : ℤ :=
  PRECISION.val * (staker.entries i).rewardsAccrued.val +
    staker.stakedAmount.val *
      ((pool.rewards i).rewardPerTokenStored.val - (staker.entries i).rewardPerTokenPaid.val)

variable {rt : Runtime} {w : World} {p : Pubkey} {P : Pool}

theorem World.Reachable.covered (hw : w.Reachable rt) (hP : w.pools p = some P) (i : Slot) :
    ∑ k, P.owes i (w.stakerAt p k) + (P.rewards i).unstreamed ≤
      PRECISION.val * w.vaultBalance p (.reward i) := by
  obtain ⟨s, hs, rfl, hstaker, -, hvault⟩ := hw.pool hP
  have hslack := hs.slack_nonneg i
  rw [hs.inv.slack_eq] at hslack
  have hle : s.ledger.rewardVault i ≤ w.vaultBalance p (.reward i) := hvault (.reward i)
  have hmul : (PRECISION.val : ℤ) * s.ledger.rewardVault i ≤
      PRECISION.val * w.vaultBalance p (.reward i) :=
    mul_le_mul_of_nonneg_left hle (Nat.cast_nonneg _)
  have howed : ∑ k, s.pool.owes i (w.stakerAt p k) = ∑ k, s.owed i k := by
    rw [← hstaker]
    rfl
  rw [howed]
  linarith

theorem World.Reachable.accrued_le (hw : w.Reachable rt) (hP : w.pools p = some P) (i : Slot)
    (k : Pubkey) :
    ((w.stakerAt p k).entries i).rewardsAccrued.val ≤ w.vaultBalance p (.reward i) := by
  obtain ⟨s, hs, rfl, hstaker, -, hvault⟩ := hw.pool hP
  have haccrued := hs.accrued_le_vault i k
  have hle : s.ledger.rewardVault i ≤ w.vaultBalance p (.reward i) := hvault (.reward i)
  rw [hstaker] at haccrued
  exact_mod_cast haccrued.trans hle

theorem World.Reachable.total_le (hw : w.Reachable rt) (hP : w.pools p = some P) :
    P.totalStaked.val ≤ w.vaultBalance p .stake := by
  obtain ⟨s, hs, rfl, -, -, hvault⟩ := hw.pool hP
  have hle : s.ledger.stakeVault ≤ w.vaultBalance p .stake := hvault .stake
  rw [hs.principal.vault_eq] at hle
  exact_mod_cast hle

theorem World.Reachable.total_eq (hw : w.Reachable rt) (hP : w.pools p = some P) :
    P.totalStaked.val = ∑ k, (w.stakerAt p k).stakedAmount.val := by
  obtain ⟨s, hs, rfl, hstaker, -, -⟩ := hw.pool hP
  rw [← hstaker]
  exact (hs.inv.sound ⟨0, by decide⟩).total_toNat

theorem World.Reachable.staked_le (hw : w.Reachable rt) (hP : w.pools p = some P) (k : Pubkey) :
    (w.stakerAt p k).stakedAmount.val ≤ P.totalStaked.val := by
  obtain ⟨s, hs, rfl, hstaker, -, -⟩ := hw.pool hP
  rw [← hstaker]
  exact hs.inv.staked_le k

/-- In every reachable world, for every pool on it: the token account of a slot holds at least
what the slot owes all its stakers and has still to stream, the one of the stakes at least
the stakes of all staker accounts together, and so each enough for any one of them. -/
theorem pools_backed (hw : w.Reachable rt) :
    ∀ p P, w.pools p = some P →
      (∀ i, P.Registered i → ∑ k, P.owes i (w.stakerAt p k) + (P.rewards i).unstreamed ≤
        PRECISION.val * w.vaultBalance p (.reward i)) ∧
      ∑ k, (w.stakerAt p k).stakedAmount.val = P.totalStaked.val ∧
      P.totalStaked.val ≤ w.vaultBalance p .stake ∧
      ∀ k a, w.stakers k = some a → a.pool = p →
        a.stakedAmount.val ≤ w.vaultBalance p .stake ∧
          ∀ i, (a.entries i).rewardsAccrued.val ≤ w.vaultBalance p (.reward i) := by
  intro p P hP
  have htotal := hw.total_le hP
  refine ⟨fun i _ => hw.covered hP i, (hw.total_eq hP).symm, htotal, ?_⟩
  intro k a hk ha
  have hat := stakerAt_eq hk ha
  have hstaked := hw.staked_le hP k
  have haccrued := fun i => hw.accrued_le hP i k
  rw [hat] at hstaked
  simp only [hat] at haccrued
  exact ⟨hstaked.trans htotal, haccrued⟩

/-- The trial pool holds 800 for its slot and 400 for the stakes. -/
theorem pools_backed_trial : World.trial.vaultBalance 100 (.reward 0) = 800 ∧
    ∃ P, World.trial.pools 100 = some P ∧
      ∑ k, P.owes 0 (World.trial.stakerAt 100 k) + (P.rewards 0).unstreamed ≤
        PRECISION.val * 800 := by
  have hbalance : World.trial.vaultBalance 100 (.reward 0) = 800 := by decide +kernel
  obtain ⟨P, hP⟩ := Option.isSome_iff_exists.mp
    (show (World.trial.pools 100).isSome = true by decide +kernel)
  have hreg : (World.trial.pools 100).map (fun P => decide (P.Registered 0)) = some true := by
    decide +kernel
  rw [hP, Option.map_some, Option.some.injEq, decide_eq_true_eq] at hreg
  have hcovered := (pools_backed World.reachable_trial 100 P hP).1 0 hreg
  rw [hbalance] at hcovered
  exact ⟨hbalance, P, hP, hcovered⟩

end MmStaking
