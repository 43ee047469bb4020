import MmStaking.Program.System
import MmStaking.Refine.Update

/-! What each instruction does when it succeeds, with its settlement kept folded. -/
namespace MmStaking
open Words Loops

/-- The pool without the values that settlement, staking and deposits move. -/
def Pool.frame (pool : Pool) : Pool :=
  { pool with
    totalStaked := 0
    rewards := fun i => { pool.rewards i with
      rewardRate := 0, rewardPerTokenStored := 0, periodFinish := 0, lastUpdateTime := 0 } }

theorem Pool.terms_of_frame {a b : Pool} (h : a.frame = b.frame) (i : Slot) :
    (a.rewards i).terms = (b.rewards i).terms := by
  have hi := congrFun (congrArg Pool.rewards h) i
  simp only [Pool.frame, RewardInfo.mk.injEq] at hi
  simp only [RewardInfo.terms, Prod.mk.injEq]
  exact ⟨hi.1, hi.2.1, hi.2.2.2.2.2.2.1, hi.2.2.2.2.2.2.2⟩

theorem Pool.eq_of_views {a b : Pool} (hf : a.frame = b.frame)
    (ht : a.totalStaked = b.totalStaked)
    (hs : ∀ i, (a.rewards i).stream = (b.rewards i).stream) : a = b := by
  have hrewards : a.rewards = b.rewards := by
    funext i
    exact RewardInfo.eq_of_views (Pool.terms_of_frame hf i) (hs i)
  cases a
  cases b
  simp_all [Pool.frame]

theorem Pool.frame_eq {a b : Pool} (hb : b = { a with rewards := b.rewards })
    (ht : ∀ i, (b.rewards i).terms = (a.rewards i).terms) : b.frame = a.frame := by
  rw [hb]
  simp only [Pool.frame]
  congr 1
  funext i
  have hi := ht i
  simp only [RewardInfo.terms, Prod.mk.injEq] at hi
  rw [hi.1, hi.2.1, hi.2.2.1, hi.2.2.2]

theorem settleSlots_frame {pool pool' : Pool} {now : I64}
    (hlast : ∀ i, 0 ≤ (pool.rewards i).lastUpdateTime.val)
    (h : settleSlots pool now = .ok pool') : pool'.frame = pool.frame :=
  Pool.frame_eq (settleSlots_rewards_only h) (settleSlots_terms hlast h)

/-- The account as `stake` settles it: on first use its identity is filled in. -/
def StakerAccount.opened (staker : StakerAccount) (owner poolKey : Pubkey) (stakerBump : U8) :
    StakerAccount :=
  if staker.owner = 0 then { staker with owner := owner, pool := poolKey, bump := stakerBump }
  else staker

@[simp] theorem StakerAccount.opened_holder (staker : StakerAccount) (owner poolKey : Pubkey)
    (stakerBump : U8) (i : Slot) :
    (staker.opened owner poolKey stakerBump).holder i = staker.holder i := by
  unfold opened
  split <;> rfl

@[simp] theorem StakerAccount.opened_staked (staker : StakerAccount) (owner poolKey : Pubkey)
    (stakerBump : U8) :
    (staker.opened owner poolKey stakerBump).stakedAmount = staker.stakedAmount := by
  unfold opened
  split <;> rfl

@[simp] theorem StakerAccount.opened_entries (staker : StakerAccount) (owner poolKey : Pubkey)
    (stakerBump : U8) : (staker.opened owner poolKey stakerBump).entries = staker.entries := by
  unfold opened
  split <;> rfl

section
variable {pool pool' : Pool} {staker staker' : StakerAccount} {now : I64}

theorem stake_eq_ok_iff {owner poolKey : Pubkey} {stakerBump : U8} {amount : U64} :
    stake pool staker owner poolKey stakerBump amount now = .ok (pool', staker') ↔
      0 < amount.val ∧ pool.paused.val = 0 ∧ ∃ pool₁ staker₁ staked total,
        settleSlots pool now = .ok pool₁ ∧
        settleEntries pool₁ (staker.opened owner poolKey stakerBump) = .ok staker₁ ∧
        staked.val = staker₁.stakedAmount.val + amount.val ∧
        total.val = pool₁.totalStaked.val + amount.val ∧
        pool' = { pool₁ with totalStaked := total } ∧
        staker' = { staker₁ with stakedAmount := staked } := by
  simp only [stake, bind_eq_ok_iff, pure_eq_ok_iff, require_eq_ok_iff, okOr_eq_ok_iff, Prod.exists,
    updateReward_some_eq_ok_iff, Unsigned.checkedAdd_eq_some_iff, Prod.mk.injEq]
  constructor
  · rintro ⟨-, ha, -, hp, p₁, lent, ⟨hs, s₁, he, rfl⟩, staked, hst, total, ht, rfl, rfl⟩
    exact ⟨ha, hp, p₁, s₁, staked, total, hs, he, hst, ht, rfl, rfl⟩
  · rintro ⟨ha, hp, p₁, s₁, staked, total, hs, he, hst, ht, rfl, rfl⟩
    exact ⟨(), ha, (), hp, p₁, some s₁, ⟨hs, s₁, he, rfl⟩, staked, hst, total, ht, rfl, rfl⟩

theorem unstake_eq_ok_iff {amount : U64} : unstake pool staker amount now = .ok (pool', staker') ↔
      0 < amount.val ∧ amount.val ≤ staker.stakedAmount.val ∧ ∃ pool₁ staker₁ staked total,
        settleSlots pool now = .ok pool₁ ∧ settleEntries pool₁ staker = .ok staker₁ ∧
        (amount.val ≤ staker₁.stakedAmount.val ∧
          staked.val = staker₁.stakedAmount.val - amount.val) ∧
        (amount.val ≤ pool₁.totalStaked.val ∧ total.val = pool₁.totalStaked.val - amount.val) ∧
        pool' = { pool₁ with totalStaked := total } ∧
        staker' = { staker₁ with stakedAmount := staked } := by
  simp only [unstake, bind_eq_ok_iff, pure_eq_ok_iff, require_eq_ok_iff, orPanic_eq_ok_iff,
    Prod.exists, updateReward_some_eq_ok_iff, Unsigned.checkedSub_eq_some_iff, Prod.mk.injEq]
  constructor
  · rintro ⟨-, ha, -, hp, p₁, lent, ⟨hs, s₁, he, rfl⟩, staked, hst, total, ht, rfl, rfl⟩
    exact ⟨ha, hp, p₁, s₁, staked, total, hs, he, hst, ht, rfl, rfl⟩
  · rintro ⟨ha, hp, p₁, s₁, staked, total, hs, he, hst, ht, rfl, rfl⟩
    exact ⟨(), ha, (), hp, p₁, some s₁, ⟨hs, s₁, he, rfl⟩, staked, hst, total, ht, rfl, rfl⟩

theorem depositRewards_eq_ok_iff {mint : Pubkey} {received : U64} :
    depositRewards pool mint received now = .ok pool' ↔
      ∃ i, findSlot pool mint = some i ∧ (pool.rewards i).active.val = 1 ∧
        ∃ pool₁ rate finish, settleSlots pool now = .ok pool₁ ∧
          notifyRate received (pool₁.rewards i).rewardRate now (pool₁.rewards i).periodFinish
            (pool₁.rewards i).duration = .ok rate ∧
          finish.val = now.val + (pool₁.rewards i).duration.val ∧
          pool' = pool₁.setReward i { pool₁.rewards i with
            rewardRate := rate, lastUpdateTime := now, periodFinish := finish } := by
  simp only [depositRewards, bind_eq_ok_iff, pure_eq_ok_iff, require_eq_ok_iff, okOr_eq_ok_iff,
    Prod.exists, updateReward_none_eq_ok_iff, Signed.checkedAdd_eq_some_iff]
  constructor
  · rintro ⟨i, hi, -, ha, p₁, lent, ⟨hs, rfl⟩, rate, hr, finish, hf, rfl⟩
    exact ⟨i, hi, ha, p₁, rate, finish, hs, hr, hf, rfl⟩
  · rintro ⟨i, hi, ha, p₁, rate, finish, hs, hr, hf, rfl⟩
    exact ⟨i, hi, (), ha, p₁, none, ⟨hs, rfl⟩, rate, hr, finish, hf, rfl⟩

theorem claimSettleAll_eq_ok_iff : claimSettleAll pool staker now = .ok (pool', staker') ↔
    settleSlots pool now = .ok pool' ∧ settleEntries pool' staker = .ok staker' := by
  simp only [claimSettleAll, bind_eq_ok_iff, pure_eq_ok_iff, Prod.exists,
    updateReward_some_eq_ok_iff, Prod.mk.injEq]
  constructor
  · rintro ⟨p₁, lent, ⟨hs, s₁, he, rfl⟩, rfl, rfl⟩
    exact ⟨hs, he⟩
  · rintro ⟨hs, he⟩
    exact ⟨pool', some staker', ⟨hs, staker', he, rfl⟩, rfl, rfl⟩

theorem claimTakeAll_invariant {I : StakerAccount → Prop}
    (hstep : ∀ account j, I account → I { account with
      entries := Function.update account.entries j
        { account.entries j with rewardsAccrued := 0 } })
    {keys : List Pubkey} {paid : List (Slot × U64)} (hs : I staker)
    (h : claimTakeAll pool staker keys = .ok (staker', paid)) : I staker' := by
  induction keys generalizing staker staker' paid with
  | nil =>
      simp only [claimTakeAll, Except.ok.injEq, Prod.mk.injEq] at h
      rw [← h.1]
      exact hs
  | cons key rest ih =>
      simp only [claimTakeAll, claimTakeSlot, bind_eq_ok_iff, okOr_eq_ok_iff, pure_eq_ok_iff,
        Prod.exists, Prod.mk.injEq] at h
      obtain ⟨_, _, _, ⟨j, -, rfl, rfl, rfl⟩, _, _, hrest, rfl, rfl⟩ := h
      exact ih (hstep _ j hs) hrest

theorem claimTakeAll_staked {keys : List Pubkey} {paid : List (Slot × U64)}
    (h : claimTakeAll pool staker keys = .ok (staker', paid)) :
    staker'.stakedAmount = staker.stakedAmount :=
  claimTakeAll_invariant (I := fun a => a.stakedAmount = staker.stakedAmount)
    (fun _ _ ha => ha) rfl h

theorem claimTakeAll_identity {keys : List Pubkey} {paid : List (Slot × U64)}
    (h : claimTakeAll pool staker keys = .ok (staker', paid)) :
    staker'.identity = staker.identity :=
  claimTakeAll_invariant (I := fun a => a.identity = staker.identity) (fun _ _ ha => ha) rfl h

theorem addReward_eq_ok_iff {mint vault : Pubkey} {durationArg : I64} :
    addReward pool mint vault durationArg now = .ok pool' ↔
      findSlot pool mint = none ∧ ∃ idx count, freeSlot pool = some idx ∧
        count.val = pool.rewardCount.val + 1 ∧
        pool' = { pool.setReward idx
          { mint := mint
            vault := vault
            rewardRate := 0
            rewardPerTokenStored := 0
            periodFinish := 0
            lastUpdateTime := now
            duration := if 0 < durationArg.val then durationArg else pool.defaultDuration
            active := one8 } with rewardCount := count } := by
  simp only [addReward, bind_eq_ok_iff, pure_eq_ok_iff, require_eq_ok_iff, okOr_eq_ok_iff,
    Unsigned.checkedAdd_eq_some_iff]
  constructor
  · rintro ⟨-, hm, idx, hidx, count, hc, rfl⟩
    exact ⟨hm, idx, count, hidx, hc, rfl⟩
  · rintro ⟨hm, idx, count, hidx, hc, rfl⟩
    exact ⟨(), hm, idx, hidx, count, hc, rfl⟩

theorem setDuration_eq_ok_iff {slot : U8} {duration : I64} :
    setDuration pool slot duration = .ok pool' ↔ 0 < duration.val ∧
      ∃ i, slotArg pool slot = some i ∧
        pool' = pool.setReward i { pool.rewards i with duration := duration } := by
  simp only [setDuration, bind_eq_ok_iff, pure_eq_ok_iff, require_eq_ok_iff, okOr_eq_ok_iff]
  constructor
  · rintro ⟨-, hd, i, hi, rfl⟩
    exact ⟨hd, i, hi, rfl⟩
  · rintro ⟨hd, i, hi, rfl⟩
    exact ⟨(), hd, i, hi, rfl⟩

theorem setRewardActive_eq_ok_iff {slot : U8} {active : Bool} :
    setRewardActive pool slot active = .ok pool' ↔ ∃ i, slotArg pool slot = some i ∧
      pool' = pool.setReward i
        { pool.rewards i with active := if active then one8 else 0 } := by
  simp only [setRewardActive, bind_eq_ok_iff, pure_eq_ok_iff, okOr_eq_ok_iff]
  exact exists_congr fun i => and_congr_right fun _ => eq_comm

end

theorem freeSlot_eq_some_iff {pool : Pool} {i : Slot} :
    freeSlot pool = some i ↔ ¬ pool.Registered i ∧ ∀ j < i, pool.Registered j := by
  simp [freeSlot, Pool.Registered, ← Fin.find?_eq_find?_finRange]

theorem freeSlot_some {pool : Pool} {i : Slot} (h : freeSlot pool = some i) :
    ¬ pool.Registered i := (freeSlot_eq_some_iff.mp h).1

theorem findVault_eq_some_iff {pool : Pool} {vaultKey : Pubkey} {i : Slot} :
    findVault pool vaultKey = some i ↔
      (pool.rewards i).vault = vaultKey ∧ ∀ j < i, (pool.rewards j).vault ≠ vaultKey := by
  simp [findVault, ← Fin.find?_eq_find?_finRange]

theorem findVault_eq_none_iff {pool : Pool} {vaultKey : Pubkey} :
    findVault pool vaultKey = none ↔ ∀ i, (pool.rewards i).vault ≠ vaultKey := by
  simp [findVault]

theorem slotArg_eq_some_iff {pool : Pool} {slot : U8} {i : Slot} :
    slotArg pool slot = some i ↔ slot.val = i.val ∧ pool.Registered i := by
  unfold slotArg
  constructor
  · intro h
    split at h
    · split at h
      · rename_i hreg
        cases h
        exact ⟨rfl, hreg⟩
      · cases h
    · cases h
  · intro ⟨hval, hreg⟩
    have hi : ∀ hlt, (⟨slot.val, hlt⟩ : Slot) = i := fun _ => Fin.ext hval
    have hlt : slot.val < MAX_REWARDS := hval ▸ i.isLt
    rw [dif_pos hlt, hi, if_pos hreg]

theorem slotArg_some {pool : Pool} {slot : U8} {i : Slot} (h : slotArg pool slot = some i) :
    pool.Registered i := (slotArg_eq_some_iff.mp h).2

section Perform
variable {ι : Type} [DecidableEq ι] {s s' : Sys ι} {now : I64}

theorem perform_stake_eq_ok_iff {v : ι} {owner poolKey : Pubkey} {stakerBump : U8}
    {amount : U64} : s.perform now (.stake v owner poolKey stakerBump amount) = .ok s' ↔
      0 < amount.val ∧ s.pool.paused.val = 0 ∧ ∃ pool₁ staker₁ staked total,
        settleSlots s.pool now = .ok pool₁ ∧
        settleEntries pool₁ ((s.staker v).opened owner poolKey stakerBump) = .ok staker₁ ∧
        staked.val = staker₁.stakedAmount.val + amount.val ∧
        total.val = pool₁.totalStaked.val + amount.val ∧
        s' = { s.put { pool₁ with totalStaked := total } v
            { staker₁ with stakedAmount := staked } with
          ledger := s.ledger.recordStake v amount } := by
  simp only [Sys.perform, bind_eq_ok_iff, pure_eq_ok_iff, Prod.exists, stake_eq_ok_iff]
  constructor
  · rintro ⟨_, _, ⟨ha, hp, p₁, a₁, staked, total, hs, he, hst, ht, rfl, rfl⟩, rfl⟩
    exact ⟨ha, hp, p₁, a₁, staked, total, hs, he, hst, ht, rfl⟩
  · rintro ⟨ha, hp, p₁, a₁, staked, total, hs, he, hst, ht, rfl⟩
    exact ⟨_, _, ⟨ha, hp, p₁, a₁, staked, total, hs, he, hst, ht, rfl, rfl⟩, rfl⟩

theorem perform_unstake_eq_ok_iff {v : ι} {amount : U64} :
    s.perform now (.unstake v amount) = .ok s' ↔
      0 < amount.val ∧ amount.val ≤ (s.staker v).stakedAmount.val ∧
      ∃ pool₁ staker₁ staked total,
        settleSlots s.pool now = .ok pool₁ ∧ settleEntries pool₁ (s.staker v) = .ok staker₁ ∧
        (amount.val ≤ staker₁.stakedAmount.val ∧
          staked.val = staker₁.stakedAmount.val - amount.val) ∧
        (amount.val ≤ pool₁.totalStaked.val ∧ total.val = pool₁.totalStaked.val - amount.val) ∧
        s' = { s.put { pool₁ with totalStaked := total } v
            { staker₁ with stakedAmount := staked } with
          ledger := s.ledger.recordUnstake v amount } := by
  simp only [Sys.perform, bind_eq_ok_iff, pure_eq_ok_iff, Prod.exists, unstake_eq_ok_iff]
  constructor
  · rintro ⟨_, _, ⟨ha, hle, p₁, a₁, staked, total, hs, he, hst, ht, rfl, rfl⟩, rfl⟩
    exact ⟨ha, hle, p₁, a₁, staked, total, hs, he, hst, ht, rfl⟩
  · rintro ⟨ha, hle, p₁, a₁, staked, total, hs, he, hst, ht, rfl⟩
    exact ⟨_, _, ⟨ha, hle, p₁, a₁, staked, total, hs, he, hst, ht, rfl, rfl⟩, rfl⟩

theorem perform_depositRewards_eq_ok_iff {mint : Pubkey} {received : U64} :
    s.perform now (.depositRewards mint received) = .ok s' ↔
      ∃ i, findSlot s.pool mint = some i ∧ (s.pool.rewards i).active.val = 1 ∧
        ∃ pool₁ rate finish, settleSlots s.pool now = .ok pool₁ ∧
          notifyRate received (pool₁.rewards i).rewardRate now (pool₁.rewards i).periodFinish
            (pool₁.rewards i).duration = .ok rate ∧
          finish.val = now.val + (pool₁.rewards i).duration.val ∧
          s' = { s with
            pool := pool₁.setReward i { pool₁.rewards i with
              rewardRate := rate, lastUpdateTime := now, periodFinish := finish }
            ledger := s.ledger.recordDeposit i received } := by
  simp only [Sys.perform, bind_eq_ok_iff, pure_eq_ok_iff, okOr_eq_ok_iff, depositRewards_eq_ok_iff]
  constructor
  · rintro ⟨i, hi, _, ⟨j, hj, ha, p₁, rate, finish, hs, hr, hf, rfl⟩, rfl⟩
    cases hi.symm.trans hj
    exact ⟨i, hi, ha, p₁, rate, finish, hs, hr, hf, rfl⟩
  · rintro ⟨i, hi, ha, p₁, rate, finish, hs, hr, hf, rfl⟩
    exact ⟨i, hi, _, ⟨i, hi, ha, p₁, rate, finish, hs, hr, hf, rfl⟩, rfl⟩

theorem perform_claim_eq_ok_iff {v : ι} {vaultKeys : List Pubkey} :
    s.perform now (.claim v vaultKeys) = .ok s' ↔ ∃ pool₁ staker₁ staker₂ paid,
      settleSlots s.pool now = .ok pool₁ ∧ settleEntries pool₁ (s.staker v) = .ok staker₁ ∧
      claimTakeAll pool₁ staker₁ vaultKeys = .ok (staker₂, paid) ∧
      s' = { s.put pool₁ v staker₂ with
        ledger := paid.foldl (Ledger.recordClaim v) s.ledger } := by
  simp only [Sys.perform, bind_eq_ok_iff, pure_eq_ok_iff, Prod.exists, claimSettleAll_eq_ok_iff]
  constructor
  · rintro ⟨p₁, a₁, ⟨hs, he⟩, a₂, paid, hc, rfl⟩
    exact ⟨p₁, a₁, a₂, paid, hs, he, hc, rfl⟩
  · rintro ⟨p₁, a₁, a₂, paid, hs, he, hc, rfl⟩
    exact ⟨p₁, a₁, ⟨hs, he⟩, a₂, paid, hc, rfl⟩

theorem perform_emergencyWithdraw_eq_ok_iff {v : ι} :
    s.perform now (.emergencyWithdraw v) = .ok s' ↔
      s' = { s.put
          { s.pool with
            totalStaked := s.pool.totalStaked.saturatingSub (s.staker v).stakedAmount } v
          { s.staker v with
            stakedAmount := 0
            entries := fun i =>
              { rewardPerTokenPaid := (s.pool.rewards i).rewardPerTokenStored
                rewardsAccrued := 0 } } with
        ledger := s.ledger.recordWithdraw v (s.staker v).stakedAmount } := by
  change Except.ok _ = Except.ok s' ↔ _
  rw [Except.ok.injEq]
  exact eq_comm

theorem perform_addReward_eq_ok_iff {mint vault : Pubkey} {durationArg : I64} :
    s.perform now (.addReward mint vault durationArg) = .ok s' ↔
      findSlot s.pool mint = none ∧ ∃ idx count, freeSlot s.pool = some idx ∧
        count.val = s.pool.rewardCount.val + 1 ∧
        s' = { s with pool := { s.pool.setReward idx
          { mint := mint
            vault := vault
            rewardRate := 0
            rewardPerTokenStored := 0
            periodFinish := 0
            lastUpdateTime := now
            duration := if 0 < durationArg.val then durationArg else s.pool.defaultDuration
            active := one8 } with rewardCount := count } } := by
  simp only [Sys.perform, bind_eq_ok_iff, pure_eq_ok_iff, addReward_eq_ok_iff]
  constructor
  · rintro ⟨_, ⟨hm, idx, count, hidx, hc, rfl⟩, rfl⟩
    exact ⟨hm, idx, count, hidx, hc, rfl⟩
  · rintro ⟨hm, idx, count, hidx, hc, rfl⟩
    exact ⟨_, ⟨hm, idx, count, hidx, hc, rfl⟩, rfl⟩

theorem perform_setRewardActive_eq_ok_iff {slot : U8} {active : Bool} :
    s.perform now (.setRewardActive slot active) = .ok s' ↔ ∃ i, slotArg s.pool slot = some i ∧
      s' = { s with
        pool := s.pool.setReward i
          { s.pool.rewards i with active := if active then one8 else 0 } } := by
  simp only [Sys.perform, bind_eq_ok_iff, pure_eq_ok_iff, setRewardActive_eq_ok_iff]
  constructor
  · rintro ⟨_, ⟨i, hi, rfl⟩, rfl⟩
    exact ⟨i, hi, rfl⟩
  · rintro ⟨i, hi, rfl⟩
    exact ⟨_, ⟨i, hi, rfl⟩, rfl⟩

theorem perform_setDuration_eq_ok_iff {slot : U8} {duration : I64} :
    s.perform now (.setDuration slot duration) = .ok s' ↔ 0 < duration.val ∧
      ∃ i, slotArg s.pool slot = some i ∧
        s' = { s with
          pool := s.pool.setReward i { s.pool.rewards i with duration := duration } } := by
  simp only [Sys.perform, bind_eq_ok_iff, pure_eq_ok_iff, setDuration_eq_ok_iff]
  constructor
  · rintro ⟨_, ⟨hd, i, hi, rfl⟩, rfl⟩
    exact ⟨hd, i, hi, rfl⟩
  · rintro ⟨hd, i, hi, rfl⟩
    exact ⟨_, ⟨hd, i, hi, rfl⟩, rfl⟩

end Perform
end MmStaking
