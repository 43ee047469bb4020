import MmStaking.Program.Update

/-! The instruction logic, one definition for each function of `logic.rs`. A function
that mutates accounts returns them; the token transfer that follows it in the handler
belongs to the system around it. -/
namespace MmStaking
open Words

def initPool (pool : Pool) (admin keeper stakeMint stakeVault : Pubkey) (defaultDuration : I64)
    (bump : U8) : Result Pool := do
  require (0 < defaultDuration.val) .invalidDuration
  return { pool with
    admin := admin
    keeperAuthority := keeper
    stakeMint := stakeMint
    stakeVault := stakeVault
    totalStaked := 0
    defaultDuration := defaultDuration
    rewardCount := 0
    paused := 0
    bump := bump }

def freeSlot (pool : Pool) : Option Slot :=
  (List.finRange MAX_REWARDS).find? fun i => (pool.rewards i).mint = 0

def one8 : U8 := ⟨1, by decide⟩

def addReward (pool : Pool) (mint vault : Pubkey) (durationArg now : I64) : Result Pool := do
  require (findSlot pool mint = none) .rewardAlreadyExists
  let duration := if 0 < durationArg.val then durationArg else pool.defaultDuration
  let idx ← okOr (freeSlot pool) .rewardSlotsFull
  let pool := pool.setReward idx
    { mint := mint
      vault := vault
      rewardRate := 0
      rewardPerTokenStored := 0
      periodFinish := 0
      lastUpdateTime := now
      duration := duration
      active := one8 }
  let count ← okOr (pool.rewardCount.checkedAdd one8) .mathOverflow
  return { pool with rewardCount := count }

/-- The slot a `u8` argument names, when it is in range and occupied. -/
def slotArg (pool : Pool) (slot : U8) : Option Slot :=
  if h : slot.val < MAX_REWARDS then
    if pool.Registered ⟨slot.val, h⟩ then some ⟨slot.val, h⟩ else none
  else none

def setRewardActive (pool : Pool) (slot : U8) (active : Bool) : Result Pool := do
  let i ← okOr (slotArg pool slot) .rewardNotFound
  return pool.setReward i { pool.rewards i with active := if active then one8 else 0 }

def stake (pool : Pool) (staker : StakerAccount) (owner poolKey : Pubkey) (stakerBump : U8)
    (amount : U64) (now : I64) : Result (Pool × StakerAccount) := do
  require (0 < amount.val) .zeroAmount
  require (pool.paused.val = 0) .paused
  let staker := if staker.owner = 0 then
      { staker with owner := owner, pool := poolKey, bump := stakerBump }
    else staker
  let (pool, lent) ← updateReward pool (some staker) now
  let staker := lent.getD staker
  let staked ← okOr (staker.stakedAmount.checkedAdd amount) .mathOverflow
  let total ← okOr (pool.totalStaked.checkedAdd amount) .mathOverflow
  return ({ pool with totalStaked := total }, { staker with stakedAmount := staked })

/-- The pause flag is not read: principal stays exitable. -/
def unstake (pool : Pool) (staker : StakerAccount) (amount : U64) (now : I64) :
    Result (Pool × StakerAccount) := do
  require (0 < amount.val) .zeroAmount
  require (amount.val ≤ staker.stakedAmount.val) .insufficientStake
  let (pool, lent) ← updateReward pool (some staker) now
  let staker := lent.getD staker
  let staked ← orPanic (staker.stakedAmount.checkedSub amount)
  let total ← orPanic (pool.totalStaked.checkedSub amount)
  return ({ pool with totalStaked := total }, { staker with stakedAmount := staked })

/-- `received` is the growth of the reward vault over the transfer. -/
def depositRewards (pool : Pool) (mint : Pubkey) (received : U64) (now : I64) : Result Pool := do
  let i ← okOr (findSlot pool mint) .rewardNotFound
  require ((pool.rewards i).active.val = 1) .rewardInactive
  let (pool, _) ← updateReward pool none now
  let duration := (pool.rewards i).duration
  let newRate ← notifyRate received (pool.rewards i).rewardRate now
    (pool.rewards i).periodFinish duration
  let finish ← okOr (now.checkedAdd duration) .mathOverflow
  return pool.setReward i { pool.rewards i with
    rewardRate := newRate
    lastUpdateTime := now
    periodFinish := finish }

/-- No settlement here: the exit of principal must not depend on the reward math. -/
def emergencyWithdraw (pool : Pool) (staker : StakerAccount) :
    Result (Pool × StakerAccount × U64) :=
  let amt := staker.stakedAmount
  .ok ({ pool with totalStaked := pool.totalStaked.saturatingSub amt },
    { staker with
      stakedAmount := 0
      entries := fun i =>
        { rewardPerTokenPaid := (pool.rewards i).rewardPerTokenStored, rewardsAccrued := 0 } },
    amt)

def setPaused (pool : Pool) (paused : Bool) : Result Pool :=
  .ok { pool with paused := if paused then one8 else 0 }

def setKeeperAuthority (pool : Pool) (keeper : Pubkey) : Result Pool :=
  .ok { pool with keeperAuthority := keeper }

def setAdmin (pool : Pool) (newAdmin : Pubkey) : Result Pool :=
  .ok { pool with admin := newAdmin }

def setDuration (pool : Pool) (slot : U8) (duration : I64) : Result Pool := do
  require (0 < duration.val) .invalidDuration
  let i ← okOr (slotArg pool slot) .rewardNotFound
  return pool.setReward i { pool.rewards i with duration := duration }

def claimSettleAll (pool : Pool) (staker : StakerAccount) (now : I64) :
    Result (Pool × StakerAccount) := do
  let (pool, lent) ← updateReward pool (some staker) now
  return (pool, lent.getD staker)

/-- The first slot with a given vault key; empty slots have the all-zero key. -/
def findVault (pool : Pool) (vaultKey : Pubkey) : Option Slot :=
  (List.finRange MAX_REWARDS).find? fun i => (pool.rewards i).vault = vaultKey

def claimTakeSlot (pool : Pool) (staker : StakerAccount) (vaultKey : Pubkey) :
    Result (StakerAccount × Slot × U64) := do
  let idx ← okOr (findVault pool vaultKey) .vaultMismatch
  let amt := (staker.entries idx).rewardsAccrued
  return ({ staker with
      entries := Function.update staker.entries idx { staker.entries idx with rewardsAccrued := 0 } },
    idx, amt)

end MmStaking
