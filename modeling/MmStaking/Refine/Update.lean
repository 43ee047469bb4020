import MmStaking.Refine.Settlement

/-! `update_reward` slot by slot: each registered slot settles its stream and each of
the staker's entries for such a slot settles its holder; everything else stays. -/
namespace MmStaking
open Words Loops Accrual

theorem settleSlots_eq_ok_iff {pool pool' : Pool} {now : I64} :
    settleSlots pool now = .ok pool' ↔ pool' = { pool with rewards := pool'.rewards } ∧
      ∀ i, (if (pool.rewards i).mint = 0 then .ok (pool.rewards i)
        else settleSlot (pool.rewards i) pool.totalStaked now) = .ok (pool'.rewards i) := by
  simp only [settleSlots, bind_eq_ok_iff, pure_eq_ok_iff, updateEach_eq_ok_iff]
  constructor
  · rintro ⟨rewards, hr, rfl⟩
    exact ⟨rfl, hr⟩
  · rintro ⟨heq, hr⟩
    exact ⟨pool'.rewards, hr, heq.symm⟩

section Slots
variable {pool pool' : Pool} {now : I64}

theorem settleSlots_rewards_only (h : settleSlots pool now = .ok pool') :
    pool' = { pool with rewards := pool'.rewards } := (settleSlots_eq_ok_iff.mp h).1

theorem settleSlots_totalStaked (h : settleSlots pool now = .ok pool') :
    pool'.totalStaked = pool.totalStaked := by
  rw [settleSlots_rewards_only h]

theorem settleSlots_empty (h : settleSlots pool now = .ok pool') {i : Slot}
    (hi : ¬ pool.Registered i) : pool'.rewards i = pool.rewards i := by
  have hm : (pool.rewards i).mint = 0 := not_not.mp hi
  have hs := (settleSlots_eq_ok_iff.mp h).2 i
  rw [if_pos hm, Except.ok.injEq] at hs
  exact hs.symm

theorem settleSlots_slot (h : settleSlots pool now = .ok pool') {i : Slot}
    (hi : pool.Registered i) :
    settleSlot (pool.rewards i) pool.totalStaked now = .ok (pool'.rewards i) := by
  have hs := (settleSlots_eq_ok_iff.mp h).2 i
  rwa [if_neg hi] at hs

/-- Every registered slot is settled at `now`. -/
def Pool.SettledAt (pool : Pool) (now : I64) : Prop :=
  ∀ i, pool.Registered i → (pool.rewards i).lastUpdateTime = now

theorem settleSlots_of_settledAt (h : pool.SettledAt now) : settleSlots pool now = .ok pool := by
  refine settleSlots_eq_ok_iff.mpr ⟨rfl, ?_⟩
  intro i
  split
  · rfl
  · rename_i hi
    exact settleSlot_of_last (h i hi)

variable (hlast : ∀ i, 0 ≤ (pool.rewards i).lastUpdateTime.val)
include hlast

theorem settleSlots_terms (h : settleSlots pool now = .ok pool') (i : Slot) :
    (pool'.rewards i).terms = (pool.rewards i).terms := by
  by_cases hi : pool.Registered i
  · exact (settleSlot_ok (hlast i) (settleSlots_slot h hi)).1
  · rw [settleSlots_empty h hi]

theorem settleSlots_stream (h : settleSlots pool now = .ok pool') (i : Slot) :
    (pool'.rewards i).stream =
      if pool.Registered i then (pool.rewards i).stream.settle pool.totalStaked.val now.val
      else (pool.rewards i).stream := by
  split
  · rename_i hi
    exact (settleSlot_ok (hlast i) (settleSlots_slot h hi)).2
  · rename_i hi
    rw [settleSlots_empty h hi]

theorem settleSlots_registered (h : settleSlots pool now = .ok pool') (i : Slot) :
    pool'.Registered i ↔ pool.Registered i := by
  have ht := congrArg Prod.fst (settleSlots_terms hlast h i)
  exact not_congr (by rw [show (pool'.rewards i).mint = (pool.rewards i).mint from ht])

theorem settleSlots_index (h : settleSlots pool now = .ok pool') {i : Slot}
    (hi : pool.Registered i) : (pool'.rewards i).rewardPerTokenStored.val =
      ((pool.rewards i).stream.settle pool.totalStaked.val now.val).index :=
  congrArg Stream.index ((settleSlots_stream hlast h i).trans (if_pos hi))

theorem settleSlots_settledAt (h : settleSlots pool now = .ok pool') : pool'.SettledAt now := by
  intro i hi
  exact settleSlot_last (settleSlots_slot h ((settleSlots_registered hlast h i).mp hi))

theorem settleSlots_isOk_iff : (∃ pool', settleSlots pool now = .ok pool') ↔
    ∀ i, pool.Registered i → Fits (pool.rewards i).stream pool.totalStaked.val now.val := by
  constructor
  · rintro ⟨pool', h⟩ i hi
    exact (settleSlot_isOk_iff (hlast i)).mp ⟨_, settleSlots_slot h hi⟩
  · intro hfit
    have hall : ∀ i, ∃ slot, (if (pool.rewards i).mint = 0 then .ok (pool.rewards i)
        else settleSlot (pool.rewards i) pool.totalStaked now) = .ok slot := by
      intro i
      by_cases hi : (pool.rewards i).mint = 0
      · exact ⟨pool.rewards i, if_pos hi⟩
      · obtain ⟨slot, hs⟩ := (settleSlot_isOk_iff (hlast i)).mpr (hfit i hi)
        exact ⟨slot, by rw [if_neg hi, hs]⟩
    choose rewards hr using hall
    exact ⟨{ pool with rewards := rewards }, settleSlots_eq_ok_iff.mpr ⟨rfl, hr⟩⟩

end Slots

section Entries
variable {pool : Pool} {staker staker' : StakerAccount}

theorem settleEntries_eq_ok_iff : settleEntries pool staker = .ok staker' ↔
    staker' = { staker with entries := staker'.entries } ∧ ∀ i,
      if pool.Registered i then
        (staker.entries i).rewardPerTokenPaid.val ≤ (pool.rewards i).rewardPerTokenStored.val ∧
        staker.stakedAmount.val * ((pool.rewards i).rewardPerTokenStored.val -
          (staker.entries i).rewardPerTokenPaid.val) < 2 ^ 128 ∧
        staker'.holder i =
          (staker.holder i).settle P (pool.rewards i).rewardPerTokenStored.val
      else staker'.entries i = staker.entries i := by
  simp only [settleEntries, bind_eq_ok_iff, pure_eq_ok_iff, updateEach_eq_ok_iff]
  constructor
  · rintro ⟨entries, he, rfl⟩
    refine ⟨rfl, ?_⟩
    intro i
    have hi := he i
    split
    · rename_i hreg
      rw [if_neg hreg] at hi
      simp only [bind_eq_ok_iff, pure_eq_ok_iff, earned_eq_ok_iff] at hi
      obtain ⟨a, ⟨hle, hlt, ha⟩, hentry⟩ := hi
      refine ⟨hle, hlt, ?_⟩
      simp only [StakerAccount.holder, Holder.settle, ← hentry, ha]
    · rename_i hreg
      rw [if_pos (not_not.mp hreg), Except.ok.injEq] at hi
      exact hi.symm
  · rintro ⟨heq, hall⟩
    refine ⟨staker'.entries, ?_, heq.symm⟩
    intro i
    have hi := hall i
    split at hi
    · rename_i hreg
      obtain ⟨hle, hlt, hh⟩ := hi
      simp only [StakerAccount.holder, Holder.settle, Holder.mk.injEq] at hh
      rw [if_neg hreg]
      simp only [bind_eq_ok_iff, pure_eq_ok_iff, earned_eq_ok_iff]
      refine ⟨(staker'.entries i).rewardsAccrued, ⟨hle, hlt, hh.2.2⟩, ?_⟩
      rw [RewardEntry.mk.injEq]
      exact ⟨(Unsigned.ext hh.2.1).symm, rfl⟩
    · rename_i hreg
      rw [if_pos (not_not.mp hreg), hi]

theorem settleEntries_identity (h : settleEntries pool staker = .ok staker') :
    staker'.identity = staker.identity := by
  rw [(settleEntries_eq_ok_iff.mp h).1]
  rfl

theorem settleEntries_staked (h : settleEntries pool staker = .ok staker') :
    staker'.stakedAmount = staker.stakedAmount := by
  rw [(settleEntries_eq_ok_iff.mp h).1]

theorem settleEntries_holder (h : settleEntries pool staker = .ok staker') (i : Slot) :
    staker'.holder i =
      if pool.Registered i then
        (staker.holder i).settle P (pool.rewards i).rewardPerTokenStored.val
      else staker.holder i := by
  have hi := (settleEntries_eq_ok_iff.mp h).2 i
  split
  · rename_i hreg
    rw [if_pos hreg] at hi
    exact hi.2.2
  · rename_i hreg
    rw [if_neg hreg] at hi
    simp only [StakerAccount.holder, hi, settleEntries_staked h]

theorem settleEntries_isOk (hfit : ∀ i, pool.Registered i →
      (staker.holder i).paid ≤ (pool.rewards i).rewardPerTokenStored.val ∧
      (staker.holder i).weight *
        ((pool.rewards i).rewardPerTokenStored.val - (staker.holder i).paid) < 2 ^ 128 ∧
      ((staker.holder i).settle P (pool.rewards i).rewardPerTokenStored.val).accrued < 2 ^ 64) :
    ∃ staker', settleEntries pool staker = .ok staker' := by
  have hall : ∀ i, ∃ entry : RewardEntry,
      if pool.Registered i then
        entry.rewardPerTokenPaid = (pool.rewards i).rewardPerTokenStored ∧
        entry.rewardsAccrued.val =
          ((staker.holder i).settle P (pool.rewards i).rewardPerTokenStored.val).accrued
      else entry = staker.entries i := by
    intro i
    by_cases hi : pool.Registered i
    · obtain ⟨-, -, hlt⟩ := hfit i hi
      exact ⟨⟨(pool.rewards i).rewardPerTokenStored, ⟨_, hlt⟩⟩, by simp [hi]⟩
    · exact ⟨staker.entries i, by simp [hi]⟩
  choose entries he using hall
  refine ⟨{ staker with entries := entries }, settleEntries_eq_ok_iff.mpr ⟨rfl, ?_⟩⟩
  intro i
  have hi := he i
  split at hi
  · rename_i hreg
    obtain ⟨hle, hlt, -⟩ := hfit i hreg
    rw [if_pos hreg]
    refine ⟨hle, hlt, ?_⟩
    simp only [StakerAccount.holder, hi.1, hi.2, Holder.settle]
  · rename_i hreg
    rwa [if_neg hreg]

end Entries

/-- A settlement of the accounts settles stream and holder of every registered slot. -/
theorem settle_views {pool pool' : Pool} {staker staker' : StakerAccount} {now : I64}
    (hlast : ∀ i, 0 ≤ (pool.rewards i).lastUpdateTime.val)
    (hs : settleSlots pool now = .ok pool') (he : settleEntries pool' staker = .ok staker')
    {i : Slot} (hi : pool.Registered i) :
    (pool'.rewards i).stream =
        (pool.rewards i).stream.settle pool.totalStaked.val now.val ∧
      staker'.holder i = (staker.holder i).settle P
        ((pool.rewards i).stream.settle pool.totalStaked.val now.val).index := by
  have hholder := settleEntries_holder he i
  rw [if_pos ((settleSlots_registered hlast hs i).mpr hi),
    settleSlots_index hlast hs hi] at hholder
  exact ⟨(settleSlots_stream hlast hs i).trans (if_pos hi), hholder⟩

theorem updateReward_none_eq_ok_iff {pool pool' : Pool} {now : I64}
    {lent : Option StakerAccount} : updateReward pool none now = .ok (pool', lent) ↔
      settleSlots pool now = .ok pool' ∧ lent = none := by
  simp only [updateReward, bind_eq_ok_iff, pure_eq_ok_iff, Prod.mk.injEq]
  constructor
  · rintro ⟨p, hp, rfl, rfl⟩
    exact ⟨hp, rfl⟩
  · rintro ⟨hp, rfl⟩
    exact ⟨pool', hp, rfl, rfl⟩

theorem updateReward_some_eq_ok_iff {pool pool' : Pool} {staker : StakerAccount} {now : I64}
    {lent : Option StakerAccount} : updateReward pool (some staker) now = .ok (pool', lent) ↔
      settleSlots pool now = .ok pool' ∧
        ∃ staker', settleEntries pool' staker = .ok staker' ∧ lent = some staker' := by
  simp only [updateReward, bind_eq_ok_iff, pure_eq_ok_iff, Prod.mk.injEq]
  constructor
  · rintro ⟨p, hp, staker', hs, rfl, rfl⟩
    exact ⟨hp, staker', hs, rfl⟩
  · rintro ⟨hp, staker', hs, rfl⟩
    exact ⟨pool', hp, staker', hs, rfl, rfl⟩

theorem findSlot_eq_some_iff {pool : Pool} {mint : Pubkey} {i : Slot} :
    findSlot pool mint = some i ↔
      (pool.rewards i).mint = mint ∧ ∀ j < i, (pool.rewards j).mint ≠ mint := by
  simp [findSlot, ← Fin.find?_eq_find?_finRange]

theorem findSlot_some {pool : Pool} {mint : Pubkey} {i : Slot} (h : findSlot pool mint = some i) :
    (pool.rewards i).mint = mint := (findSlot_eq_some_iff.mp h).1

theorem findSlot_none {pool : Pool} {mint : Pubkey} (h : findSlot pool mint = none) (i : Slot) :
    (pool.rewards i).mint ≠ mint := by
  have hi := List.find?_eq_none.mp h i (List.mem_finRange i)
  simpa using hi

end MmStaking
