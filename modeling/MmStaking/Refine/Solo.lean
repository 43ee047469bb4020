import MmStaking.Refine.Claims
import MmStaking.Refine.Failures

/-! The reference: a pool of one slot, with what the stakers have in it. It reads the same
calls as the pool of eight and takes as its own the registration that comes in its turn,
the deposits of its mint, the claims of its vault and the settings for its index; of the
deposits of others it keeps the settlement, and of their settings nothing. -/
namespace MmStaking
open Words Loops Runs

variable {ι : Type}

structure Solo (ι : Type) where
  slot : RewardInfo
  totalStaked : U64
  defaultDuration : I64
  enrolled : ℕ
  stakedAmount : ι → U64
  entry : ι → RewardEntry
  claimed : ι → ℕ

/-- `update_reward` on one slot. -/
def settleOne (slot : RewardInfo) (totalStaked : U64) (now : I64) : Result RewardInfo :=
  if slot.mint = 0 then .ok slot else settleSlot slot totalStaked now

/-- `update_reward` on the entry of one staker for one slot. -/
def settleEntry (slot : RewardInfo) (staked : U64) (entry : RewardEntry) : Result RewardEntry :=
  if slot.mint = 0 then .ok entry
  else do
    let rpt := slot.rewardPerTokenStored
    let accrued ← earned staked rpt entry.rewardPerTokenPaid entry.rewardsAccrued
    return { rewardPerTokenPaid := rpt, rewardsAccrued := accrued }

namespace Solo
variable [DecidableEq ι]

/-- The pool of slot `i` before anything is registered. -/
def blank (defaultDuration : I64) : Solo ι :=
  { slot := .zeroed
    totalStaked := 0
    defaultDuration := defaultDuration
    enrolled := 0
    stakedAmount := fun _ => 0
    entry := fun _ => .zeroed
    claimed := fun _ => 0 }

def settle (r : Solo ι) (now : I64) : Result (Solo ι) := do
  let slot ← settleOne r.slot r.totalStaked now
  return { r with slot := slot }

def settleFor (r : Solo ι) (v : ι) (now : I64) : Result (Solo ι) := do
  let r ← r.settle now
  let entry ← settleEntry r.slot (r.stakedAmount v) (r.entry v)
  return { r with entry := Function.update r.entry v entry }

/-- One call on the pool of slot `i`. -/
def perform (i : Slot) (r : Solo ι) (now : I64) : Op ι → Result (Solo ι)
  | .addReward mint vault durationArg =>
      if r.enrolled = i.val then
        .ok { r with
          enrolled := r.enrolled + 1
          slot :=
            { mint := mint
              vault := vault
              rewardRate := 0
              rewardPerTokenStored := 0
              periodFinish := 0
              lastUpdateTime := now
              duration := if 0 < durationArg.val then durationArg else r.defaultDuration
              active := one8 } }
      else .ok { r with enrolled := r.enrolled + 1 }
  | .setRewardActive slot active =>
      if slot.val = i.val then
        .ok { r with slot := { r.slot with active := if active then one8 else 0 } }
      else .ok r
  | .setDuration slot duration =>
      if slot.val = i.val then do
        require (0 < duration.val) .invalidDuration
        return { r with slot := { r.slot with duration := duration } }
      else .ok r
  | .stake v _ _ _ amount => do
      require (0 < amount.val) .zeroAmount
      let r ← r.settleFor v now
      let staked ← okOr ((r.stakedAmount v).checkedAdd amount) .mathOverflow
      let total ← okOr (r.totalStaked.checkedAdd amount) .mathOverflow
      return { r with
        totalStaked := total
        stakedAmount := Function.update r.stakedAmount v staked }
  | .unstake v amount => do
      require (0 < amount.val) .zeroAmount
      require (amount.val ≤ (r.stakedAmount v).val) .insufficientStake
      let r ← r.settleFor v now
      let staked ← orPanic ((r.stakedAmount v).checkedSub amount)
      let total ← orPanic (r.totalStaked.checkedSub amount)
      return { r with
        totalStaked := total
        stakedAmount := Function.update r.stakedAmount v staked }
  | .depositRewards mint received =>
      if r.slot.mint = mint then do
        require (r.slot.active.val = 1) .rewardInactive
        let r ← r.settle now
        let newRate ← notifyRate received r.slot.rewardRate now r.slot.periodFinish r.slot.duration
        let finish ← okOr (now.checkedAdd r.slot.duration) .mathOverflow
        return { r with slot := { r.slot with
          rewardRate := newRate
          lastUpdateTime := now
          periodFinish := finish } }
      else r.settle now
  | .claim v vaultKeys => do
      let r ← r.settleFor v now
      if vaultKeys.contains r.slot.vault then
        return { r with
          entry := Function.update r.entry v { r.entry v with rewardsAccrued := 0 }
          claimed := Function.update r.claimed v
            (r.claimed v + (r.entry v).rewardsAccrued.val) }
      else return r
  | .emergencyWithdraw v =>
      .ok { r with
        totalStaked := r.totalStaked.saturatingSub (r.stakedAmount v)
        stakedAmount := Function.update r.stakedAmount v 0
        entry := Function.update r.entry v
          { rewardPerTokenPaid := r.slot.rewardPerTokenStored, rewardsAccrued := 0 } }
  | .setPaused _ | .setKeeperAuthority _ | .setAdmin _ => .ok r

def run (i : Slot) (r : Solo ι) (calls : List (Call ι)) : Result (Solo ι) :=
  calls.foldlM (fun r c => r.perform i c.now c.op) r

end Solo

/-- What the pool of eight and its stakers hold of slot `i`. -/
def Sys.solo (s : Sys ι) (i : Slot) : Solo ι :=
  { slot := s.pool.rewards i
    totalStaked := s.pool.totalStaked
    defaultDuration := s.pool.defaultDuration
    enrolled := s.pool.rewardCount.val
    stakedAmount := fun v => (s.staker v).stakedAmount
    entry := fun v => (s.staker v).entries i
    claimed := fun v => s.ledger.claimed v i }

section Settle
variable {pool pool' : Pool} {staker staker' : StakerAccount} {now : I64}

theorem settleSlots_each : settleSlots pool now = .ok pool' ↔
    pool' = { pool with rewards := pool'.rewards } ∧
      ∀ i, settleOne (pool.rewards i) pool.totalStaked now = .ok (pool'.rewards i) :=
  settleSlots_eq_ok_iff

theorem settleEntries_each : settleEntries pool staker = .ok staker' ↔
    staker' = { staker with entries := staker'.entries } ∧
      ∀ i, settleEntry (pool.rewards i) staker.stakedAmount (staker.entries i) =
        .ok (staker'.entries i) := by
  simp only [settleEntries, bind_eq_ok_iff, pure_eq_ok_iff, updateEach_eq_ok_iff]
  constructor
  · rintro ⟨entries, he, rfl⟩
    exact ⟨rfl, he⟩
  · rintro ⟨heq, he⟩
    exact ⟨staker'.entries, he, heq.symm⟩

end Settle

variable [DecidableEq ι]

theorem solo_put (s : Sys ι) (pool : Pool) (v : ι) (account : StakerAccount) (i : Slot) :
    (s.put pool v account).solo i =
      { slot := pool.rewards i
        totalStaked := pool.totalStaked
        defaultDuration := pool.defaultDuration
        enrolled := pool.rewardCount.val
        stakedAmount := Function.update (s.solo i).stakedAmount v account.stakedAmount
        entry := Function.update (s.solo i).entry v (account.entries i)
        claimed := (s.solo i).claimed } := by
  have hstaked : (fun u => (Function.update s.staker v account u).stakedAmount) =
      Function.update (fun u => (s.staker u).stakedAmount) v account.stakedAmount := by
    funext u
    exact Function.apply_update (fun _ => StakerAccount.stakedAmount) s.staker v account u
  have hentry : (fun u => (Function.update s.staker v account u).entries i) =
      Function.update (fun u => (s.staker u).entries i) v (account.entries i) := by
    funext u
    exact Function.apply_update (fun _ (a : StakerAccount) => a.entries i) s.staker v account u
  simp only [Sys.solo, Sys.put, hstaked, hentry]

section Perform
variable {s s' : Sys ι} {now : I64} {i : Slot}

theorem solo_payAll (pool : Pool) (v : ι) (account : StakerAccount) (amount : Slot → ℕ)
    (i : Slot) :
    { s.put pool v account with ledger := s.ledger.payAll v amount }.solo i =
      { (s.put pool v account).solo i with
        claimed := Function.update (s.solo i).claimed v ((s.solo i).claimed v + amount i) } := by
  have hclaimed : (fun u => (s.ledger.payAll v amount).claimed u i) =
      Function.update (s.solo i).claimed v ((s.solo i).claimed v + amount i) := by
    funext u
    by_cases hu : u = v
    · subst hu
      simp [Ledger.payAll, Sys.solo]
    · simp [Ledger.payAll, Sys.solo, hu]
  rw [← hclaimed]
  rfl

omit [DecidableEq ι] in
theorem solo_settle {p₁ : Pool} (hs : settleSlots s.pool now = .ok p₁) (i : Slot) :
    (s.solo i).settle now = .ok ({ s with pool := p₁ }.solo i) := by
  obtain ⟨heq, hslot⟩ := settleSlots_each.mp hs
  simp only [Solo.settle, bind_eq_ok_iff, pure_eq_ok_iff]
  refine ⟨p₁.rewards i, hslot i, ?_⟩
  rw [heq]
  rfl

theorem solo_settleFor {p₁ : Pool} {v : ι} {account a₁ : StakerAccount}
    (hstaked : account.stakedAmount = (s.staker v).stakedAmount)
    (hentries : account.entries = (s.staker v).entries)
    (hs : settleSlots s.pool now = .ok p₁) (he : settleEntries p₁ account = .ok a₁) (i : Slot) :
    (s.solo i).settleFor v now = .ok ((s.put p₁ v a₁).solo i) := by
  obtain ⟨heq, hentry⟩ := settleEntries_each.mp he
  have hi := hentry i
  rw [hstaked, hentries] at hi
  simp only [Solo.settleFor, bind_eq_ok_iff, pure_eq_ok_iff]
  refine ⟨_, solo_settle hs i, a₁.entries i, hi, ?_⟩
  rw [solo_put]
  have hsame : a₁.stakedAmount = (s.solo i).stakedAmount v := by
    rw [heq, hstaked]
    rfl
  rw [hsame, Function.update_eq_self]
  rfl

theorem solo_stake {v : ι} {owner poolKey : Pubkey} {stakerBump : U8} {amount : U64}
    (h : s.perform now (.stake v owner poolKey stakerBump amount) = .ok s') :
    (s.solo i).perform i now (.stake v owner poolKey stakerBump amount) = .ok (s'.solo i) := by
  obtain ⟨hpos, -, p₁, a₁, staked, total, hs, he, hst, htot, rfl⟩ := perform_stake_eq_ok_iff.mp h
  have hsettle := solo_settleFor (StakerAccount.opened_staked _ _ _ _)
    (StakerAccount.opened_entries _ _ _ _) hs he i
  simp only [Solo.perform, bind_eq_ok_iff, pure_eq_ok_iff, require_eq_ok_iff, okOr_eq_ok_iff,
    hsettle, Except.ok.injEq, exists_eq_left', Unsigned.checkedAdd_eq_some_iff, exists_const]
  refine ⟨hpos, staked, ?_, total, htot, ?_⟩
  · simpa [solo_put] using hst
  · have hput := solo_put s { p₁ with totalStaked := total } v { a₁ with stakedAmount := staked } i
    simp only [solo_put, Function.update_idem]
    exact hput.symm

theorem solo_unstake {v : ι} {amount : U64} (h : s.perform now (.unstake v amount) = .ok s') :
    (s.solo i).perform i now (.unstake v amount) = .ok (s'.solo i) := by
  obtain ⟨hpos, ha, p₁, a₁, staked, total, hs, he, hst, htot, rfl⟩ := perform_unstake_eq_ok_iff.mp h
  have hsettle := solo_settleFor rfl rfl hs he i
  simp only [Solo.perform, bind_eq_ok_iff, pure_eq_ok_iff, require_eq_ok_iff, orPanic_eq_ok_iff,
    hsettle, Except.ok.injEq, exists_eq_left', Unsigned.checkedSub_eq_some_iff, exists_const]
  refine ⟨hpos, ha, staked, ?_, total, htot, ?_⟩
  · simpa [solo_put] using hst
  · have hput := solo_put s { p₁ with totalStaked := total } v { a₁ with stakedAmount := staked } i
    simp only [solo_put, Function.update_idem]
    exact hput.symm

theorem solo_emergencyWithdraw {v : ι} (h : s.perform now (.emergencyWithdraw v) = .ok s') :
    (s.solo i).perform i now (.emergencyWithdraw v) = .ok (s'.solo i) := by
  obtain rfl := perform_emergencyWithdraw_eq_ok_iff.mp h
  have hput := solo_put s
    { s.pool with totalStaked := s.pool.totalStaked.saturatingSub (s.staker v).stakedAmount } v
    { s.staker v with
      stakedAmount := 0
      entries := fun j =>
        { rewardPerTokenPaid := (s.pool.rewards j).rewardPerTokenStored, rewardsAccrued := 0 } } i
  exact congrArg Except.ok hput.symm

theorem solo_depositRewards (ht : s.Tidy) (hp : s.pool.Packed) {mint : Pubkey} {received : U64}
    (h : s.perform now (.depositRewards mint received) = .ok s') :
    (s.solo i).perform i now (.depositRewards mint received) = .ok (s'.solo i) := by
  obtain ⟨j, hj, ha, p₁, rate, finish, hs, hr, hf, rfl⟩ := perform_depositRewards_eq_ok_iff.mp h
  have hreg := ht.registered_of_active ha
  have hsettle := solo_settle hs i
  simp only [Solo.perform]
  by_cases hij : i = j
  · subst hij
    have hmint : (s.solo i).slot.mint = mint := findSlot_some hj
    rw [if_pos hmint]
    simp only [bind_eq_ok_iff, pure_eq_ok_iff, require_eq_ok_iff, okOr_eq_ok_iff, hsettle,
      Except.ok.injEq, exists_eq_left', Signed.checkedAdd_eq_some_iff, exists_const]
    refine ⟨ha, rate, hr, finish, hf, ?_⟩
    simp [Sys.solo, Pool.setReward, Ledger.recordDeposit]
  · have hmint : (s.solo i).slot.mint ≠ mint := by
      intro hm
      exact hij (hp.mint_inj j i hreg ((findSlot_some hj).trans hm.symm)).symm
    rw [if_neg hmint, hsettle]
    simp [Sys.solo, Pool.setReward, Ledger.recordDeposit, hij]

theorem solo_claim (ht : s.Tidy) (hp : s.pool.Packed) (hv : s.pool.DistinctVaults) {v : ι}
    {vaultKeys : List Pubkey} (h : s.perform now (.claim v vaultKeys) = .ok s') :
    (s.solo i).perform i now (.claim v vaultKeys) = .ok (s'.solo i) := by
  obtain ⟨p₁, a₁, a₂, paid, hs, he, hc, rfl⟩ := perform_claim_eq_ok_iff.mp h
  have hsettle := solo_settleFor rfl rfl hs he i
  have hkeys : ∀ j, (p₁.rewards j).keys = (s.pool.rewards j).keys :=
    fun j => RewardInfo.keys_of_terms (settleSlots_terms ht.last_nonneg hs j)
  have hblank : ∀ j, ¬ p₁.Registered j → a₁.entries j = .zeroed := by
    intro j hj
    rw [settleEntries_empty he hj]
    exact ht.empty_entry j (mt (settleSlots_registered ht.last_nonneg hs j).mpr hj) v
  have hp₁ : p₁.Packed := hp.congr (fun j => congrArg Prod.fst (hkeys j))
    (by rw [settleSlots_rewards_only hs])
  have hresolves := hp₁.resolves (hv.congr hkeys) hblank
  obtain ⟨rfl, hledger⟩ := claimTakeAll_eq_ok v s.ledger hc
  rw [hresolves.takeAll, hledger, hresolves.due]
  simp only [Solo.perform, bind_eq_ok_iff, hsettle, Except.ok.injEq, exists_eq_left', solo_payAll]
  rw [solo_put, solo_put]
  split
  · rename_i hmem
    rw [List.contains_iff_mem] at hmem
    simp [StakerAccount.takeAll, StakerAccount.due, hmem, Sys.solo]
  · rename_i hmem
    rw [List.contains_iff_mem] at hmem
    simp [StakerAccount.takeAll, StakerAccount.due, hmem, Sys.solo]

omit [DecidableEq ι] in
theorem solo_setReward (j : Slot) (slot : RewardInfo) (i : Slot) :
    { s with pool := s.pool.setReward j slot }.solo i =
      if j = i then { s.solo i with slot := slot } else s.solo i := by
  split
  · rename_i hi
    subst hi
    simp [Sys.solo, Pool.setReward]
  · rename_i hi
    simp [Sys.solo, Pool.setReward, Ne.symm hi]

theorem solo_addReward (hp : s.pool.Packed) {mint vault : Pubkey} {durationArg : I64}
    (h : s.perform now (.addReward mint vault durationArg) = .ok s') :
    (s.solo i).perform i now (.addReward mint vault durationArg) = .ok (s'.solo i) := by
  obtain ⟨-, idx, count, hidx, hc, rfl⟩ := perform_addReward_eq_ok_iff.mp h
  have hval : (s.solo i).enrolled = idx.val := (hp.freeSlot_val hidx).symm
  have hcount : count.val = (s.solo i).enrolled + 1 := hc
  simp only [Solo.perform]
  by_cases hi : idx = i
  · subst hi
    rw [if_pos hval]
    simp [Sys.solo, Pool.setReward, hc]
  · have hne : (s.solo i).enrolled ≠ i.val := by
      intro he
      exact hi (Fin.ext (hval.symm.trans he))
    rw [if_neg hne]
    simp [Sys.solo, Pool.setReward, hc, Ne.symm hi]

theorem solo_setRewardActive {slot : U8} {active : Bool}
    (h : s.perform now (.setRewardActive slot active) = .ok s') :
    (s.solo i).perform i now (.setRewardActive slot active) = .ok (s'.solo i) := by
  obtain ⟨j, hj, rfl⟩ := perform_setRewardActive_eq_ok_iff.mp h
  have hval : slot.val = i.val ↔ j = i := by
    rw [(slotArg_eq_some_iff.mp hj).1, Fin.val_inj]
  simp only [Solo.perform, hval, solo_setReward]
  split
  · rename_i hi
    subst hi
    rfl
  · rfl

theorem solo_setDuration {slot : U8} {duration : I64}
    (h : s.perform now (.setDuration slot duration) = .ok s') :
    (s.solo i).perform i now (.setDuration slot duration) = .ok (s'.solo i) := by
  obtain ⟨hd, j, hj, rfl⟩ := perform_setDuration_eq_ok_iff.mp h
  have hval : slot.val = i.val ↔ j = i := by
    rw [(slotArg_eq_some_iff.mp hj).1, Fin.val_inj]
  simp only [Solo.perform, hval, solo_setReward]
  split
  · rename_i hi
    subst hi
    simp only [bind_eq_ok_iff, pure_eq_ok_iff, require_eq_ok_iff]
    exact ⟨(), hd, rfl⟩
  · rfl

/-- One call on the pool of eight is the same call on the pool of each slot. -/
theorem perform_solo (ht : s.Tidy) (hp : s.pool.Packed) (hv : s.pool.DistinctVaults) {op : Op ι}
    (h : s.perform now op = .ok s') : (s.solo i).perform i now op = .ok (s'.solo i) := by
  cases op with
  | addReward mint vault durationArg => exact solo_addReward hp h
  | setRewardActive slot active => exact solo_setRewardActive h
  | stake v owner poolKey stakerBump amount => exact solo_stake h
  | unstake v amount => exact solo_unstake h
  | depositRewards mint received => exact solo_depositRewards ht hp h
  | claim v vaultKeys => exact solo_claim ht hp hv h
  | emergencyWithdraw v => exact solo_emergencyWithdraw h
  | setPaused paused =>
      cases h
      rfl
  | setKeeperAuthority keeper =>
      cases h
      rfl
  | setAdmin newAdmin =>
      cases h
      rfl
  | setDuration slot duration => exact solo_setDuration h

end Perform
end MmStaking
