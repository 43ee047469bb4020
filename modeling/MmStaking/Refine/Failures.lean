import MmStaking.Refine.Acts
import MmStaking.Refine.Calls

/-! How settlement fails: from nonnegative times only by a `MathOverflow`, never by an
abort, and exactly when one of its slots or entries does. -/
namespace MmStaking
open Words Loops

theorem accrueRpt_error {rpt rate : U128} {secs : I64} {total : U64} {f : Fault}
    (h : accrueRpt rpt secs rate total = .error f) : f = .err .mathOverflow := by
  unfold accrueRpt at h
  split at h
  · cases h
  · simp only [bind_eq_error_iff, okOr_eq_error_iff] at h
    rcases h with ⟨-, rfl⟩ | ⟨_, -, -, rfl⟩ <;> rfl

theorem earned_error {staked accrued : U64} {rpt paid : U128} {f : Fault}
    (h : earned staked rpt paid accrued = .error f) : f = .err .mathOverflow := by
  simp only [earned, bind_eq_error_iff, okOr_eq_error_iff] at h
  rcases h with ⟨-, rfl⟩ | ⟨_, -, ⟨-, rfl⟩ | ⟨_, -, ⟨-, rfl⟩ | ⟨_, -, -, rfl⟩⟩⟩ <;> rfl

/-- The subtractions of settlement are guarded by comparisons and start from
nonnegative times. -/
theorem settleSlot_error {slot : RewardInfo} (h0 : 0 ≤ slot.lastUpdateTime.val) {total : U64}
    {now : I64} {f : Fault} (h : settleSlot slot total now = .error f) :
    f = .err .mathOverflow := by
  have hsub : ∀ a : I64, slot.lastUpdateTime.val < a.val →
      orPanic (a.checkedSub slot.lastUpdateTime) ≠ .error f := by
    intro a ha
    obtain ⟨c, hc⟩ := exists_sub h0 ha.le
    rw [Signed.checkedSub_eq_some_iff.mpr hc]
    simp [orPanic]
  unfold settleSlot at h
  dsimp only at h
  split at h
  · simp only [bind_eq_error_iff, pure_ne_error, and_false, exists_false, or_false] at h
    split at h
    · rename_i hlt
      simp only [bind_eq_error_iff] at h
      rcases h with h | ⟨_, -, h⟩
      · exact absurd h (hsub _ hlt)
      · exact accrueRpt_error h
    · cases h
  · simp only [bind_eq_error_iff, pure_ne_error, and_false, exists_false, or_false] at h
    split at h
    · rename_i hlt
      simp only [bind_eq_error_iff, okOr_eq_error_iff] at h
      rcases h with h | ⟨_, -, -, h⟩
      · exact absurd h (hsub _ hlt.2)
      · exact h
    · cases h

theorem settleSlots_error {pool : Pool} (hlast : ∀ i, 0 ≤ (pool.rewards i).lastUpdateTime.val)
    {now : I64} {f : Fault} (h : settleSlots pool now = .error f) : f = .err .mathOverflow := by
  simp only [settleSlots, bind_eq_error_iff, pure_ne_error, and_false, exists_false, or_false] at h
  obtain ⟨i, hi⟩ := updateEach_error h
  split at hi
  · cases hi
  · exact settleSlot_error (hlast i) hi

theorem settleEntries_error {pool : Pool} {staker : StakerAccount} {f : Fault}
    (h : settleEntries pool staker = .error f) : f = .err .mathOverflow := by
  simp only [settleEntries, bind_eq_error_iff, pure_ne_error, and_false, exists_false,
    or_false] at h
  obtain ⟨i, hi⟩ := updateEach_error h
  split at hi
  · cases hi
  · simp only [bind_eq_error_iff, pure_ne_error, and_false, exists_false, or_false] at hi
    exact earned_error hi

theorem updateReward_error {pool : Pool} (hlast : ∀ i, 0 ≤ (pool.rewards i).lastUpdateTime.val)
    {staker : Option StakerAccount} {now : I64} {f : Fault}
    (h : updateReward pool staker now = .error f) : f = .err .mathOverflow := by
  simp only [updateReward, bind_eq_error_iff] at h
  rcases h with h | ⟨pool', -, h⟩
  · exact settleSlots_error hlast h
  · cases staker with
    | none => cases h
    | some account =>
        simp only [bind_eq_error_iff, pure_ne_error, and_false, exists_false, or_false] at h
        exact settleEntries_error h

variable {ι : Type}

/-- The settlement an instruction makes once the checks before it pass. -/
def Op.settlement (s : Sys ι) (now : I64) : Op ι → Option (Result (Pool × Option StakerAccount))
  | .stake v owner poolKey stakerBump amount =>
      if 0 < amount.val ∧ s.pool.paused.val = 0 then
        some (updateReward s.pool (some ((s.staker v).opened owner poolKey stakerBump)) now)
      else none
  | .unstake v amount =>
      if 0 < amount.val ∧ amount.val ≤ (s.staker v).stakedAmount.val then
        some (updateReward s.pool (some (s.staker v)) now)
      else none
  | .depositRewards mint _ =>
      match findSlot s.pool mint with
      | some i =>
          if (s.pool.rewards i).active.val = 1 then some (updateReward s.pool none now) else none
      | none => none
  | .claim v _ => some (updateReward s.pool (some (s.staker v)) now)
  | .addReward _ _ _ | .setRewardActive _ _ | .emergencyWithdraw _ | .setPaused _
  | .setKeeperAuthority _ | .setAdmin _ | .setDuration _ _ => none

theorem settlement_lent {s : Sys ι} {now : I64} {op : Op ι}
    {x : Result (Pool × Option StakerAccount)} (h : op.settlement s now = some x) :
    ∃ lent, updateReward s.pool lent now = x ∧
      lent.map (fun a => (a.stakedAmount, a.entries)) =
        op.actor.map fun v => ((s.staker v).stakedAmount, (s.staker v).entries) := by
  cases op with
  | stake v owner poolKey stakerBump amount =>
      simp only [Op.settlement, Option.ite_none_right_eq_some, Option.some.injEq] at h
      obtain ⟨-, rfl⟩ := h
      exact ⟨_, rfl, by simp [Op.actor]⟩
  | unstake v amount =>
      simp only [Op.settlement, Option.ite_none_right_eq_some, Option.some.injEq] at h
      obtain ⟨-, rfl⟩ := h
      exact ⟨_, rfl, rfl⟩
  | depositRewards mint received =>
      simp only [Op.settlement] at h
      split at h
      · simp only [Option.ite_none_right_eq_some, Option.some.injEq] at h
        obtain ⟨-, rfl⟩ := h
        exact ⟨_, rfl, rfl⟩
      · cases h
  | claim v vaultKeys =>
      cases h
      exact ⟨_, rfl, rfl⟩
  | _ => cases h

theorem settlement_error {s : Sys ι} (hlast : ∀ i, 0 ≤ (s.pool.rewards i).lastUpdateTime.val)
    {now : I64} {op : Op ι} {f : Fault} (h : op.settlement s now = some (.error f)) :
    f = .err .mathOverflow := by
  obtain ⟨lent, hlent, -⟩ := settlement_lent h
  exact updateReward_error hlast hlent

variable [DecidableEq ι]

theorem perform_error_of_settlement {s : Sys ι} {now : I64} {op : Op ι} {f : Fault}
    (h : op.settlement s now = some (.error f)) : s.perform now op = .error f := by
  cases op with
  | stake v owner poolKey stakerBump amount =>
      simp only [Op.settlement] at h
      split at h
      · rename_i hguard
        obtain ⟨hpos, hpaused⟩ := hguard
        refine bind_eq_error_iff.mpr (.inl ?_)
        refine bind_eq_error_iff.mpr (.inr ⟨(), require_eq_ok_iff.mpr hpos, ?_⟩)
        refine bind_eq_error_iff.mpr (.inr ⟨(), require_eq_ok_iff.mpr hpaused, ?_⟩)
        exact bind_eq_error_iff.mpr (.inl (Option.some.inj h))
      · cases h
  | unstake v amount =>
      simp only [Op.settlement] at h
      split at h
      · rename_i hguard
        obtain ⟨hpos, hle⟩ := hguard
        refine bind_eq_error_iff.mpr (.inl ?_)
        refine bind_eq_error_iff.mpr (.inr ⟨(), require_eq_ok_iff.mpr hpos, ?_⟩)
        refine bind_eq_error_iff.mpr (.inr ⟨(), require_eq_ok_iff.mpr hle, ?_⟩)
        exact bind_eq_error_iff.mpr (.inl (Option.some.inj h))
      · cases h
  | depositRewards mint received =>
      simp only [Op.settlement] at h
      split at h
      · rename_i i hi
        split at h
        · rename_i hactive
          refine bind_eq_error_iff.mpr (.inr ⟨i, okOr_eq_ok_iff.mpr hi, ?_⟩)
          refine bind_eq_error_iff.mpr (.inl ?_)
          refine bind_eq_error_iff.mpr (.inr ⟨i, okOr_eq_ok_iff.mpr hi, ?_⟩)
          refine bind_eq_error_iff.mpr (.inr ⟨(), require_eq_ok_iff.mpr hactive, ?_⟩)
          exact bind_eq_error_iff.mpr (.inl (Option.some.inj h))
        · cases h
      · cases h
  | claim v vaultKeys =>
      refine bind_eq_error_iff.mpr (.inl ?_)
      exact bind_eq_error_iff.mpr (.inl (Option.some.inj h))
  | _ => cases h

end MmStaking
