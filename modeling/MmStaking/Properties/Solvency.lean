import MmStaking.Refine.Invariant

/-! Solvency: the reward vault of a slot covers all that the slot owes its stakers
and all it has still to stream, in every reachable state. -/
namespace MmStaking
open Words Loops Accrual

variable {ι : Type}

/-- What slot `i` owes staker `v`, settled or not, in units of `1 / PRECISION`. -/
def Sys.owed (s : Sys ι) (i : Slot) (v : ι) : ℤ :=
  PRECISION.val * ((s.staker v).entries i).rewardsAccrued.val +
    (s.staker v).stakedAmount.val * ((s.pool.rewards i).rewardPerTokenStored.val -
      ((s.staker v).entries i).rewardPerTokenPaid.val)

/-- What a slot has not streamed yet, in the same units. -/
def RewardInfo.unstreamed (slot : RewardInfo) : ℤ :=
  slot.rewardRate.val * max 0 (slot.periodFinish.val - slot.lastUpdateTime.val)

theorem RewardInfo.unstreamed_eq (slot : RewardInfo) :
    slot.unstreamed = slot.stream.remaining := by
  simp only [RewardInfo.unstreamed, RewardInfo.stream, Stream.remaining]
  rw [Nat.cast_mul, Int.toNat_eq_max, max_comm, mul_comm]

variable [Fintype ι]

theorem Sys.Inv.owed_eq {s : Sys ι} (hs : s.Inv) (i : Slot) (v : ι) :
    s.owed i v = ((s.book i).holder v).owed P (s.book i).stream.index := by
  have hle := (hs.sound i).paid_le v
  simp only [Holder.owed]
  push_cast [hle]
  rfl

theorem Sys.Inv.slack_eq {s : Sys ι} (hs : s.Inv) (i : Slot) :
    (s.book i).slack P =
      PRECISION.val * s.ledger.rewardVault i -
        (∑ v, s.owed i v + (s.pool.rewards i).unstreamed) := by
  simp only [Book.slack, Book.owing, RewardInfo.unstreamed_eq, hs.owed_eq]
  change (P : ℤ) * s.ledger.rewardVault i - _ - ((s.pool.rewards i).stream.remaining : ℤ) = _
  ring

variable [DecidableEq ι]

theorem Sys.Reachable.slack_nonneg {s : Sys ι} (hs : s.Reachable) (i : Slot) :
    0 ≤ (s.book i).slack P := by
  refine hs.book_invariant (I := fun b => 0 ≤ b.slack P) ?_ fun b a hb ha hi =>
    hi.trans (Book.slack_apply P_pos hb ha).1
  intro s h
  rw [initial_book h]
  simp [Book.slack, Book.owing, Holder.owed, Stream.remaining]

theorem Sys.Reachable.balanced {s : Sys ι} (hs : s.Reachable) (i : Slot) :
    s.ledger.rewardVault i = s.ledger.deposited i - ∑ v, (s.ledger.claimed v i : ℤ) := by
  refine hs.book_invariant (I := Book.Balanced) (i := i) ?_ fun b a _ _ hi =>
    Book.balanced_apply hi a
  intro s h
  rw [initial_book h]
  simp [Book.Balanced]

theorem Sys.Reachable.accrued_le_vault {s : Sys ι} (hs : s.Reachable) (i : Slot) (v : ι) :
    (((s.staker v).entries i).rewardsAccrued.val : ℤ) ≤ s.ledger.rewardVault i := by
  have howed := Book.owed_le_vault P (hs.slack_nonneg i) v
  have haccrued : P * ((s.staker v).entries i).rewardsAccrued.val ≤
      ((s.book i).holder v).owed P (s.book i).stream.index := Nat.le_add_right _ _
  have hmul : (P : ℤ) * ((s.staker v).entries i).rewardsAccrued.val ≤
      P * s.ledger.rewardVault i := le_trans (by exact_mod_cast haccrued) howed
  exact le_of_mul_le_mul_left hmul (by exact_mod_cast P_pos)

theorem Sys.Reachable.vault_nonneg {s : Sys ι} (hs : s.Reachable) (i : Slot) :
    0 ≤ s.ledger.rewardVault i := by
  have hslack := hs.slack_nonneg i
  have howing : 0 ≤ (s.book i).owing P := Finset.sum_nonneg fun _ _ => Nat.cast_nonneg _
  have hrem : (0 : ℤ) ≤ (s.book i).stream.remaining := Nat.cast_nonneg _
  have hmul : (P : ℤ) * 0 ≤ P * s.ledger.rewardVault i := by
    change 0 ≤ (P : ℤ) * s.ledger.rewardVault i - _ - _ at hslack
    linarith
  exact le_of_mul_le_mul_left hmul (by exact_mod_cast P_pos)

/-- In every reachable state the vault of a slot covers its obligations, so no
amount a claim takes exceeds the vault, and claims never add up to more than came in. -/
theorem reward_solvency {s : Sys ι} (hs : s.Reachable) :
    (∀ i, s.pool.Registered i →
      ∑ v, s.owed i v + (s.pool.rewards i).unstreamed ≤ PRECISION.val * s.ledger.rewardVault i) ∧
    (∀ v vaultKey account i amt,
      claimTakeSlot s.pool (s.staker v) vaultKey = .ok (account, i, amt) →
        (amt.val : ℤ) ≤ s.ledger.rewardVault i) ∧
    ∀ i, ∑ v, s.ledger.claimed v i ≤ s.ledger.deposited i := by
  refine ⟨?_, ?_, ?_⟩
  · intro i _
    have hslack := hs.slack_nonneg i
    rw [hs.inv.slack_eq] at hslack
    linarith
  · intro v vaultKey account i amt h
    simp only [claimTakeSlot, bind_eq_ok_iff, pure_eq_ok_iff, Prod.mk.injEq] at h
    obtain ⟨_, -, -, rfl, rfl⟩ := h
    exact hs.accrued_le_vault _ v
  · intro i
    have hvault := hs.vault_nonneg i
    rw [hs.balanced i] at hvault
    have hle : ∑ v, (s.ledger.claimed v i : ℤ) ≤ s.ledger.deposited i := by linarith
    exact_mod_cast hle

/-- Halfway through the trial run a claim of 200 has been paid and the rest is covered. -/
theorem reward_solvency_trial :
    Sys.trial.ledger.claimed 0 0 = 200 ∧
      ∑ v, Sys.trial.owed 0 v + (Sys.trial.pool.rewards 0).unstreamed ≤
        PRECISION.val * Sys.trial.ledger.rewardVault 0 :=
  ⟨by decide +kernel, (reward_solvency Sys.reachable_trial).1 0 (by decide +kernel)⟩

end MmStaking
