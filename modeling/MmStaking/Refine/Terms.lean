import MmStaking.Refine.Calls

/-! What an instruction does to the terms of a slot: its mint, vault, duration and
activation. Settlement, staking, deposits and exits leave them alone, and the number of
slots with them. -/
namespace MmStaking
open Words Loops

variable {ι : Type}

/-- The terms of slot `i` after the instruction. -/
def Op.terms (pool : Pool) (i : Slot) : Op ι → Pubkey × Pubkey × I64 × U8
  | .addReward mint vault durationArg =>
      if freeSlot pool = some i then
        (mint, vault, if 0 < durationArg.val then durationArg else pool.defaultDuration, one8)
      else (pool.rewards i).terms
  | .setRewardActive slot active =>
      if slotArg pool slot = some i then
        RewardInfo.terms { pool.rewards i with active := if active then one8 else 0 }
      else (pool.rewards i).terms
  | .setDuration slot duration =>
      if slotArg pool slot = some i then
        RewardInfo.terms { pool.rewards i with duration := duration }
      else (pool.rewards i).terms
  | .stake _ _ _ _ _ | .unstake _ _ | .depositRewards _ _ | .claim _ _ | .emergencyWithdraw _
  | .setPaused _ | .setKeeperAuthority _ | .setAdmin _ => (pool.rewards i).terms

/-- What an instruction registers: a mint and its vault. -/
def Op.enrolled : Op ι → Option (Pubkey × Pubkey)
  | .addReward mint vault _ => some (mint, vault)
  | .setRewardActive _ _ | .stake _ _ _ _ _ | .unstake _ _ | .depositRewards _ _ | .claim _ _
  | .emergencyWithdraw _ | .setPaused _ | .setKeeperAuthority _ | .setAdmin _
  | .setDuration _ _ => none

theorem setReward_terms (pool : Pool) (j i : Slot) (slot : RewardInfo) :
    ((pool.setReward j slot).rewards i).terms =
      if j = i then slot.terms else (pool.rewards i).terms := by
  split
  · rename_i h
    subst h
    simp [Pool.setReward]
  · rename_i h
    have hi : i ≠ j := fun e => h e.symm
    simp [Pool.setReward, hi]

variable [DecidableEq ι]

theorem perform_terms {s s' : Sys ι} {now : I64} {op : Op ι}
    (hlast : ∀ i, 0 ≤ (s.pool.rewards i).lastUpdateTime.val) (h : s.perform now op = .ok s') :
    s'.pool.defaultDuration = s.pool.defaultDuration ∧
      s'.pool.rewardCount.val = s.pool.rewardCount.val + op.enrolled.toList.length ∧
      ∀ i, (s'.pool.rewards i).terms = op.terms s.pool i := by
  have hsettle : ∀ {pool : Pool}, settleSlots s.pool now = .ok pool →
      pool.defaultDuration = s.pool.defaultDuration ∧
        pool.rewardCount.val = s.pool.rewardCount.val ∧
        ∀ i, (pool.rewards i).terms = (s.pool.rewards i).terms := by
    intro pool hp
    refine ⟨?_, ?_, settleSlots_terms hlast hp⟩
    · rw [settleSlots_rewards_only hp]
    · rw [settleSlots_rewards_only hp]
  cases op with
  | addReward mint vault durationArg =>
      obtain ⟨-, idx, count, hidx, hc, rfl⟩ := perform_addReward_eq_ok_iff.mp h
      refine ⟨rfl, hc, ?_⟩
      intro i
      simp only [Op.terms, hidx, Option.some.injEq]
      exact setReward_terms s.pool idx i _
  | setRewardActive slot active =>
      obtain ⟨j, hj, rfl⟩ := perform_setRewardActive_eq_ok_iff.mp h
      refine ⟨rfl, rfl, ?_⟩
      intro i
      simp only [Op.terms, hj, Option.some.injEq]
      rw [setReward_terms]
      split
      · rename_i hji
        rw [hji]
      · rfl
  | setDuration slot duration =>
      obtain ⟨-, j, hj, rfl⟩ := perform_setDuration_eq_ok_iff.mp h
      refine ⟨rfl, rfl, ?_⟩
      intro i
      simp only [Op.terms, hj, Option.some.injEq]
      rw [setReward_terms]
      split
      · rename_i hji
        rw [hji]
      · rfl
  | stake v owner poolKey stakerBump amount =>
      obtain ⟨-, -, p₁, _, _, _, hp, -, -, -, rfl⟩ := perform_stake_eq_ok_iff.mp h
      obtain ⟨hd, hc, ht⟩ := hsettle hp
      exact ⟨hd, hc, ht⟩
  | unstake v amount =>
      obtain ⟨-, -, p₁, _, _, _, hp, -, -, -, rfl⟩ := perform_unstake_eq_ok_iff.mp h
      obtain ⟨hd, hc, ht⟩ := hsettle hp
      exact ⟨hd, hc, ht⟩
  | depositRewards mint received =>
      obtain ⟨j, -, -, p₁, _, _, hp, -, -, rfl⟩ := perform_depositRewards_eq_ok_iff.mp h
      obtain ⟨hd, hc, ht⟩ := hsettle hp
      refine ⟨hd, hc, ?_⟩
      intro i
      refine (setReward_terms p₁ j i _).trans ?_
      split
      · rename_i hji
        subst hji
        exact ht j
      · exact ht i
  | claim v vaultKeys =>
      obtain ⟨p₁, _, _, _, hp, -, -, rfl⟩ := perform_claim_eq_ok_iff.mp h
      obtain ⟨hd, hc, ht⟩ := hsettle hp
      exact ⟨hd, hc, ht⟩
  | emergencyWithdraw v =>
      obtain rfl := perform_emergencyWithdraw_eq_ok_iff.mp h
      exact ⟨rfl, rfl, fun _ => rfl⟩
  | setPaused paused =>
      cases h
      exact ⟨rfl, rfl, fun _ => rfl⟩
  | setKeeperAuthority keeper =>
      cases h
      exact ⟨rfl, rfl, fun _ => rfl⟩
  | setAdmin newAdmin =>
      cases h
      exact ⟨rfl, rfl, fun _ => rfl⟩

/-- The keys a slot is found by. -/
def RewardInfo.keys (slot : RewardInfo) : Pubkey × Pubkey := (slot.mint, slot.vault)

theorem RewardInfo.keys_of_terms {slot : RewardInfo} {t : Pubkey × Pubkey × I64 × U8}
    (h : slot.terms = t) : slot.keys = (t.1, t.2.1) := by
  rw [← h]
  rfl

theorem perform_keys {s s' : Sys ι} {now : I64} {op : Op ι}
    (hlast : ∀ i, 0 ≤ (s.pool.rewards i).lastUpdateTime.val) (h : s.perform now op = .ok s')
    {i : Slot} (hi : op.enrolled = none ∨ freeSlot s.pool ≠ some i) :
    (s'.pool.rewards i).keys = (s.pool.rewards i).keys := by
  rw [RewardInfo.keys_of_terms ((perform_terms hlast h).2.2 i)]
  cases op with
  | addReward mint vault durationArg =>
      obtain hnone | hfree := hi
      · cases hnone
      · rw [Op.terms, if_neg hfree]
        rfl
  | setRewardActive slot active =>
      simp only [Op.terms]
      split <;> rfl
  | setDuration slot duration =>
      simp only [Op.terms]
      split <;> rfl
  | _ => rfl

theorem perform_registered {s s' : Sys ι} {now : I64} {op : Op ι}
    (hlast : ∀ i, 0 ≤ (s.pool.rewards i).lastUpdateTime.val) (h : s.perform now op = .ok s')
    {i : Slot} (hi : s.pool.Registered i) :
    (s'.pool.rewards i).keys = (s.pool.rewards i).keys ∧ s'.pool.Registered i := by
  have hkeys := perform_keys hlast h (.inr fun hf => freeSlot_some hf hi)
  have hm : (s'.pool.rewards i).mint = (s.pool.rewards i).mint := congrArg Prod.fst hkeys
  refine ⟨hkeys, ?_⟩
  rw [Pool.Registered, hm]
  exact hi

end MmStaking
