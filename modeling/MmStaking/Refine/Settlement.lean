import MmStaking.Refine.Arithmetic

/-! Settlement as the exact stream sees it. A slot is a stream together with its
terms, which settlement never touches; an entry is a holder of its slot's stream. -/
namespace MmStaking
open Words Loops Accrual

/-- The stream of a slot, as exact numbers. -/
def RewardInfo.stream (slot : RewardInfo) : Stream :=
  { rate := slot.rewardRate.val
    index := slot.rewardPerTokenStored.val
    finish := slot.periodFinish.val
    last := slot.lastUpdateTime.val }

/-- What the admin set for a slot. -/
def RewardInfo.terms (slot : RewardInfo) : Pubkey × Pubkey × I64 × U8 :=
  (slot.mint, slot.vault, slot.duration, slot.active)

/-- A staker as a holder of the stream of slot `i`. -/
def StakerAccount.holder (staker : StakerAccount) (i : Slot) : Holder :=
  { weight := staker.stakedAmount.val
    paid := (staker.entries i).rewardPerTokenPaid.val
    accrued := (staker.entries i).rewardsAccrued.val }

def StakerAccount.identity (staker : StakerAccount) : Pubkey × Pubkey × U8 :=
  (staker.owner, staker.pool, staker.bump)

theorem RewardInfo.eq_of_views {a b : RewardInfo} (ht : a.terms = b.terms)
    (hs : a.stream = b.stream) : a = b := by
  cases a
  cases b
  simp only [terms, stream, Prod.mk.injEq, Stream.mk.injEq] at ht hs
  obtain ⟨rfl, rfl, rfl, rfl⟩ := ht
  obtain ⟨hrate, hindex, hfinish, hlast⟩ := hs
  simp only [RewardInfo.mk.injEq, true_and]
  exact ⟨Unsigned.ext hrate, Unsigned.ext hindex, Signed.ext hfinish, Signed.ext hlast, trivial⟩

theorem StakerAccount.eq_of_views {a b : StakerAccount} (hi : a.identity = b.identity)
    (hh : ∀ i, a.holder i = b.holder i) : a = b := by
  have hstake : a.stakedAmount = b.stakedAmount :=
    Unsigned.ext (congrArg Holder.weight (hh ⟨0, by decide⟩))
  have hentries : a.entries = b.entries := by
    funext i
    have h := hh i
    simp only [holder, Holder.mk.injEq] at h
    rw [RewardEntry.mk.injEq]
    exact ⟨Unsigned.ext h.2.1, Unsigned.ext h.2.2⟩
  cases a
  cases b
  simp_all [identity]

/-- The values a settlement computes stay in range. -/
def Fits (s : Stream) (total : ℕ) (now : ℤ) : Prop :=
  (0 < total → s.elapsed now * s.rate < 2 ^ 128 ∧ (s.settle total now).index < 2 ^ 128) ∧
    (total = 0 → now < s.finish → s.last < now → s.finish + (now - s.last) < 2 ^ 63)

theorem settleSlot_staked {slot slot' : RewardInfo} {T : U64} {now : I64}
    (h0 : 0 ≤ slot.lastUpdateTime.val) (hT : 0 < T.val) : settleSlot slot T now = .ok slot' ↔
      slot.stream.elapsed now.val * slot.rewardRate.val < 2 ^ 128 ∧
        slot'.terms = slot.terms ∧ slot'.stream = slot.stream.settle T.val now.val := by
  -- the new reward per token, whether or not time has passed
  have hrpt : ∀ r : U128,
      (if slot.lastUpdateTime.val < (now.min slot.periodFinish).val then do
          let secs ← orPanic ((now.min slot.periodFinish).checkedSub slot.lastUpdateTime)
          accrueRpt slot.rewardPerTokenStored secs slot.rewardRate T
        else .ok slot.rewardPerTokenStored) = .ok r ↔
      slot.stream.elapsed now.val * slot.rewardRate.val < 2 ^ 128 ∧
        r.val = (slot.stream.settle T.val now.val).index := by
    intro r
    rw [Stream.settle_index]
    split
    · rename_i hlt
      obtain ⟨c, hc⟩ := exists_sub h0 hlt.le
      have hcpos : 0 < c.val := by omega
      have hcv : c.val.toNat = slot.stream.elapsed now.val := by
        rw [hc, Signed.val_min]
        rfl
      have hsub : (now.min slot.periodFinish).checkedSub slot.lastUpdateTime = some c :=
        Signed.checkedSub_eq_some_iff.mpr hc
      simp only [hsub, orPanic, bind_eq_ok_iff, Except.ok.injEq, exists_eq_left']
      rw [accrueRpt_eq_ok_iff hT hcpos, hcv]
      rfl
    · rename_i hge
      rw [Signed.val_min] at hge
      have hz : slot.stream.elapsed now.val = 0 := by
        simp only [Stream.elapsed, RewardInfo.stream]
        omega
      rw [hz, Nat.zero_mul, Nat.zero_mul, Nat.zero_div, Nat.add_zero, Except.ok.injEq,
        Unsigned.ext_iff]
      simp only [RewardInfo.stream, Nat.two_pow_pos, true_and]
      exact eq_comm
  unfold settleSlot
  simp only [if_pos hT, bind_eq_ok_iff, pure_eq_ok_iff, hrpt]
  constructor
  · rintro ⟨r, ⟨hfit, hr⟩, rfl⟩
    exact ⟨hfit, rfl, Stream.ext (Stream.settle_rate slot.stream).symm hr
      (Stream.settle_finish_of_pos slot.stream hT).symm (Stream.settle_last slot.stream).symm⟩
  · rintro ⟨hfit, ht, hs⟩
    refine ⟨slot'.rewardPerTokenStored, ⟨hfit, congrArg Stream.index hs⟩, ?_⟩
    refine RewardInfo.eq_of_views ht.symm (Stream.ext ?_ rfl ?_ ?_)
    · rw [hs, Stream.settle_rate]
      rfl
    · rw [hs, Stream.settle_finish_of_pos _ hT]
      rfl
    · rw [hs, Stream.settle_last]
      rfl

theorem settleSlot_idle {slot slot' : RewardInfo} {T : U64} {now : I64}
    (h0 : 0 ≤ slot.lastUpdateTime.val) (hT : T.val = 0) : settleSlot slot T now = .ok slot' ↔
      slot'.terms = slot.terms ∧ slot'.stream = slot.stream.settle 0 now.val := by
  have hfin : ∀ f : I64,
      (if now.val < slot.periodFinish.val ∧ slot.lastUpdateTime.val < now.val then do
          let gap ← orPanic (now.checkedSub slot.lastUpdateTime)
          okOr (slot.periodFinish.checkedAdd gap) .mathOverflow
        else .ok slot.periodFinish) = .ok f ↔
      f.val = (slot.stream.settle 0 now.val).finish := by
    intro f
    rw [Stream.settle_zero]
    split
    · rename_i hlt
      obtain ⟨c, hc⟩ := exists_sub h0 hlt.2.le
      have hsub : now.checkedSub slot.lastUpdateTime = some c :=
        Signed.checkedSub_eq_some_iff.mpr hc
      have hcond : now.val < slot.stream.finish ∧ slot.stream.last < now.val := hlt
      simp only [hsub, orPanic, bind_eq_ok_iff, Except.ok.injEq, exists_eq_left', okOr_eq_ok_iff,
        Signed.checkedAdd_eq_some_iff, if_pos hcond, hc]
      rfl
    · rename_i hge
      have hcond : ¬ (now.val < slot.stream.finish ∧ slot.stream.last < now.val) := hge
      rw [if_neg hcond, Except.ok.injEq, Signed.ext_iff]
      exact eq_comm
  unfold settleSlot
  simp only [hT, lt_irrefl, if_false, bind_eq_ok_iff, pure_eq_ok_iff, hfin]
  constructor
  · rintro ⟨f, hf, rfl⟩
    exact ⟨rfl, Stream.ext (Stream.settle_rate slot.stream).symm
      (Stream.settle_zero_index slot.stream).symm hf (Stream.settle_last slot.stream).symm⟩
  · rintro ⟨ht, hs⟩
    refine ⟨slot'.periodFinish, congrArg Stream.finish hs, ?_⟩
    refine RewardInfo.eq_of_views ht.symm (Stream.ext ?_ ?_ rfl ?_)
    · rw [hs, Stream.settle_rate]
      rfl
    · rw [hs, Stream.settle_zero_index]
      rfl
    · rw [hs, Stream.settle_last]
      rfl

theorem settleSlot_of_last {slot : RewardInfo} {T : U64} {now : I64}
    (h : slot.lastUpdateTime = now) : settleSlot slot T now = .ok slot := by
  subst h
  have hmin : ¬ slot.lastUpdateTime.val <
      (slot.lastUpdateTime.min slot.periodFinish).val := by
    rw [Signed.val_min]
    exact not_lt.mpr (min_le_left _ _)
  have hgap : ¬ (slot.lastUpdateTime.val < slot.periodFinish.val ∧
      slot.lastUpdateTime.val < slot.lastUpdateTime.val) := fun hc => lt_irrefl _ hc.2
  simp only [settleSlot, if_neg hmin, if_neg hgap]
  split <;> rfl

theorem settleSlot_last {slot slot' : RewardInfo} {T : U64} {now : I64}
    (h : settleSlot slot T now = .ok slot') : slot'.lastUpdateTime = now := by
  simp only [settleSlot] at h
  split at h
  · simp only [bind_eq_ok_iff, pure_eq_ok_iff] at h
    obtain ⟨rpt, -, rfl⟩ := h
    rfl
  · simp only [bind_eq_ok_iff, pure_eq_ok_iff] at h
    obtain ⟨finish, -, rfl⟩ := h
    rfl

/-- A slot settles as its stream does, under its old terms. -/
theorem settleSlot_ok {slot slot' : RewardInfo} {T : U64} {now : I64}
    (h0 : 0 ≤ slot.lastUpdateTime.val) (h : settleSlot slot T now = .ok slot') :
    slot'.terms = slot.terms ∧ slot'.stream = slot.stream.settle T.val now.val := by
  rcases Nat.eq_zero_or_pos T.val with hT | hT
  · rw [hT]
    exact (settleSlot_idle h0 hT).mp h
  · exact ((settleSlot_staked h0 hT).mp h).2

theorem settleSlot_isOk_iff {slot : RewardInfo} {T : U64} {now : I64}
    (h0 : 0 ≤ slot.lastUpdateTime.val) :
    (∃ slot', settleSlot slot T now = .ok slot') ↔ Fits slot.stream T.val now.val := by
  rcases Nat.eq_zero_or_pos T.val with hT | hT
  · simp only [settleSlot_idle h0 hT, Fits, hT, lt_irrefl, false_implies, true_and, true_implies]
    constructor
    · rintro ⟨slot', -, hs⟩ hlt hlast
      have hf := congrArg Stream.finish hs
      rw [Stream.settle_zero, if_pos ⟨hlt, hlast⟩] at hf
      dsimp only at hf
      rw [← hf]
      exact slot'.periodFinish.upper
    · intro hfit
      have hfinish : ∃ f : I64, f.val = (slot.stream.settle 0 now.val).finish := by
        rw [Stream.settle_zero]
        dsimp only
        split
        · rename_i hc
          have hlow := slot.periodFinish.lower
          have hle := hc.2
          change slot.stream.finish ≥ _ at hlow
          exact Signed.exists_val (by omega) (hfit hc.1 hc.2)
        · exact ⟨slot.periodFinish, rfl⟩
      obtain ⟨f, hf⟩ := hfinish
      exact ⟨{ slot with periodFinish := f, lastUpdateTime := now }, rfl,
        Stream.ext (Stream.settle_rate slot.stream).symm
          (Stream.settle_zero_index slot.stream).symm hf (Stream.settle_last slot.stream).symm⟩
  · have hne : T.val ≠ 0 := hT.ne'
    simp only [settleSlot_staked h0 hT, Fits, hT, hne, false_implies, and_true, true_implies]
    constructor
    · rintro ⟨slot', hfit, -, hs⟩
      refine ⟨hfit, ?_⟩
      rw [← hs]
      exact slot'.rewardPerTokenStored.isLt
    · rintro ⟨hfit, hlt⟩
      exact ⟨{ slot with rewardPerTokenStored := ⟨_, hlt⟩, lastUpdateTime := now }, hfit, rfl,
        Stream.ext (Stream.settle_rate slot.stream).symm rfl
          (Stream.settle_finish_of_pos slot.stream hT).symm (Stream.settle_last slot.stream).symm⟩

end MmStaking
