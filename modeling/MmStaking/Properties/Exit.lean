import MmStaking.Properties.Solvency

/-! Exit: no arithmetic of settlement stands between a staker and its principal. What
settlement computes is bounded by the vault, through solvency, and by the deposits. -/
namespace MmStaking
open Words Loops Accrual

variable {ι : Type}

/-- What the token program and the supply of the reward tokens guarantee: balances are
`u64`, and the deposits of a slot stay below `2^128` once scaled. -/
structure Sys.Bounded (s : Sys ι) : Prop where
  vault_lt : ∀ i, s.ledger.rewardVault i < 2 ^ 64
  deposited_lt : ∀ i, s.ledger.deposited i * PRECISION.val < 2 ^ 128

variable [Fintype ι] [DecidableEq ι] {s : Sys ι} {now : I64}

theorem Sys.Reachable.backed (hs : s.Reachable) (i : Slot) : (s.book i).Backed P := by
  refine hs.book_invariant (I := Book.Backed P) ?_ fun b a _ ha hi =>
    Book.backed_apply hi ha
  intro s h
  rw [initial_book h]
  simp [Book.Backed, Stream.remaining]

theorem Sys.Reachable.fits (hs : s.Reachable) (hb : s.Bounded) (hnow : s.NotBefore now)
    (hT : 0 < s.pool.totalStaked.val) (i : Slot) (hi : s.pool.Registered i) :
    Fits (s.pool.rewards i).stream s.pool.totalStaked.val now.val := by
  have hlast : (s.pool.rewards i).stream.last ≤ now.val := hnow.2 i hi
  have hbacked : (s.pool.rewards i).stream.index + (s.pool.rewards i).stream.remaining ≤
      s.ledger.deposited i * P := hs.backed i
  have hdep : s.ledger.deposited i * P < 2 ^ 128 := hb.deposited_lt i
  have hrem := Stream.settle_remaining (s.pool.rewards i).stream hT hlast
  have hidx := Stream.settle_index_add_remaining_le (s.pool.rewards i).stream
    (w := s.pool.totalStaked.val) hlast
  exact ⟨fun _ => ⟨by omega, by omega⟩, fun h0 => absurd h0 hT.ne'⟩

theorem Sys.Reachable.settleSlots_isOk (hs : s.Reachable) (hb : s.Bounded)
    (hnow : s.NotBefore now) (hT : 0 < s.pool.totalStaked.val) :
    ∃ pool, settleSlots s.pool now = .ok pool :=
  (settleSlots_isOk_iff hs.inv.tidy.last_nonneg).mpr (hs.fits hb hnow hT)

theorem Sys.Reachable.settled (hs : s.Reachable) (hnow : s.NotBefore now) {pool : Pool}
    (h : settleSlots s.pool now = .ok pool) (i : Slot) :
    (bookOf pool s.staker s.ledger i).Sound ∧ 0 ≤ (bookOf pool s.staker s.ledger i).slack P := by
  have hallowed := allowed_settleActs hnow i
  rw [bookOf_settleSlots s.staker s.ledger hs.inv.tidy.last_nonneg h i]
  exact ⟨(hs.inv.sound i).run hallowed,
    (hs.slack_nonneg i).trans (Book.slack_le_run P_pos (hs.inv.sound i) hallowed)⟩

/-- Whoever settles, its rewards fit: they are covered by the vault. -/
theorem Sys.Reachable.settleEntries_isOk (hs : s.Reachable) (hb : s.Bounded)
    (hnow : s.NotBefore now) {pool : Pool} (h : settleSlots s.pool now = .ok pool) (v : ι) :
    ∃ account, settleEntries pool (s.staker v) = .ok account := by
  refine MmStaking.settleEntries_isOk ?_
  intro i _
  obtain ⟨hsound, hslack⟩ := hs.settled hnow h i
  have hvault : s.ledger.rewardVault i < 2 ^ 64 := hb.vault_lt i
  have howed : (((s.staker v).holder i).owed P (pool.rewards i).rewardPerTokenStored.val : ℤ) ≤
      P * s.ledger.rewardVault i := Book.owed_le_vault P hslack v
  have hlt : P * s.ledger.rewardVault i < P * 2 ^ 64 :=
    mul_lt_mul_of_pos_left hvault (by exact_mod_cast P_pos)
  have howed_lt : ((s.staker v).holder i).owed P (pool.rewards i).rewardPerTokenStored.val <
      P * 2 ^ 64 := by exact_mod_cast howed.trans_lt hlt
  refine ⟨hsound.paid_le v, ?_, ?_⟩
  · have hle : ((s.staker v).holder i).weight * ((pool.rewards i).rewardPerTokenStored.val -
        ((s.staker v).holder i).paid) ≤
        ((s.staker v).holder i).owed P (pool.rewards i).rewardPerTokenStored.val :=
      Nat.le_add_left _ _
    exact hle.trans_lt (howed_lt.trans (by decide))
  · have hle := Holder.owed_settle_le P (pool.rewards i).rewardPerTokenStored.val
      ((s.staker v).holder i)
    have haccrued : P * (((s.staker v).holder i).settle P
        (pool.rewards i).rewardPerTokenStored.val).accrued ≤
        (((s.staker v).holder i).settle P (pool.rewards i).rewardPerTokenStored.val).owed P
          (pool.rewards i).rewardPerTokenStored.val := Nat.le_add_right _ _
    exact lt_of_mul_lt_mul_left' ((haccrued.trans hle).trans_lt howed_lt)

theorem settleSlots_paused {pool pool' : Pool} (h : settleSlots pool now = .ok pool')
    (paused : U8) :
    settleSlots { pool with paused := paused } now = .ok { pool' with paused := paused } := by
  simp only [settleSlots, bind_eq_ok_iff, pure_eq_ok_iff] at h ⊢
  obtain ⟨rewards, hr, rfl⟩ := h
  exact ⟨rewards, hr, rfl⟩

theorem Sys.Reachable.unstake_isOk (hs : s.Reachable) (hb : s.Bounded)
    (hnow : s.clock.val ≤ now.val) (paused : U8) {v : ι} {amount : U64} (h0 : 0 < amount.val)
    (ha : amount.val ≤ (s.staker v).stakedAmount.val) : ∃ pool account,
      unstake { s.pool with paused := paused } (s.staker v) amount now = .ok (pool, account) := by
  have hle := hs.inv.staked_le v
  have hafter := hs.inv.notBefore_of_le hnow
  obtain ⟨pool, hp⟩ := hs.settleSlots_isOk hb hafter (by omega)
  obtain ⟨account, he⟩ := hs.settleEntries_isOk hb hafter hp v
  have hstaked := settleEntries_staked he
  have htotal := settleSlots_totalStaked hp
  obtain ⟨staked, hst⟩ : ∃ c : U64, c.val = account.stakedAmount.val - amount.val :=
    Unsigned.exists_val ((Nat.sub_le _ _).trans_lt account.stakedAmount.isLt)
  obtain ⟨total, htot⟩ : ∃ c : U64, c.val = pool.totalStaked.val - amount.val :=
    Unsigned.exists_val ((Nat.sub_le _ _).trans_lt pool.totalStaked.isLt)
  refine ⟨_, _, unstake_eq_ok_iff.mpr ⟨h0, ha, { pool with paused := paused }, account, staked,
    total, settleSlots_paused hp paused, he, ⟨?_, hst⟩, ⟨?_, htot⟩, rfl, rfl⟩⟩
  · rw [hstaked]
    exact ha
  · change amount.val ≤ pool.totalStaked.val
    rw [htotal]
    exact ha.trans hle

/-- Paused or not, any part of a stake can be taken out at any later time, and all of
it by the emergency exit. -/
theorem exit_never_blocked (hs : s.Reachable) (hb : s.Bounded) (hnow : s.clock.val ≤ now.val)
    {v : ι} (paused : U8) :
    (∀ amount : U64, 0 < amount.val → amount.val ≤ (s.staker v).stakedAmount.val →
      ∃ pool account, unstake { s.pool with paused := paused } (s.staker v) amount now =
        .ok (pool, account)) ∧
    ∃ pool account, emergencyWithdraw { s.pool with paused := paused } (s.staker v) =
      .ok (pool, account, (s.staker v).stakedAmount) :=
  ⟨fun _ h0 ha => hs.unstake_isOk hb hnow paused h0 ha, _, _, rfl⟩

/-- The second staker of the trial run takes its 300 out of a paused pool. -/
theorem exit_never_blocked_trial :
    (Sys.trial.staker 1).stakedAmount.val = 300 ∧
      ∃ pool account, unstake { Sys.trial.pool with paused := one8 } (Sys.trial.staker 1) 300 60 =
        .ok (pool, account) :=
  ⟨by decide +kernel,
    (exit_never_blocked Sys.reachable_trial ⟨by decide +kernel, by decide +kernel⟩
      (by decide +kernel) one8).1 _ (by decide) (by decide +kernel)⟩

end MmStaking
