import MmStaking.Program.Math

/-! Settlement: every registered slot to the current time, and with a staker given
also that staker's entries. -/
namespace MmStaking
open Words Loops

/-- Settle one slot up to `now`, rolling it forward while nothing is staked. -/
def settleSlot (slot : RewardInfo) (totalStaked : U64) (now : I64) : Result RewardInfo := do
  let applicable := now.min slot.periodFinish
  if 0 < totalStaked.val then
    let rpt ← (if slot.lastUpdateTime.val < applicable.val then do
        let secs ← orPanic (applicable.checkedSub slot.lastUpdateTime)
        accrueRpt slot.rewardPerTokenStored secs slot.rewardRate totalStaked
      else .ok slot.rewardPerTokenStored)
    return { slot with rewardPerTokenStored := rpt, lastUpdateTime := now }
  else
    -- the finish is extended by the idle gap, but only before the finish
    let finish ← (if now.val < slot.periodFinish.val ∧ slot.lastUpdateTime.val < now.val then do
        let gap ← orPanic (now.checkedSub slot.lastUpdateTime)
        okOr (slot.periodFinish.checkedAdd gap) .mathOverflow
      else .ok slot.periodFinish)
    return { slot with periodFinish := finish, lastUpdateTime := now }

/-- The first loop of `update_reward`: empty slots are skipped. -/
def settleSlots (pool : Pool) (now : I64) : Result Pool := do
  let totalStaked := pool.totalStaked
  let rewards ← updateEach
    (fun _ slot => if slot.mint = 0 then .ok slot else settleSlot slot totalStaked now)
    pool.rewards
  return { pool with rewards := rewards }

/-- The second loop of `update_reward`, over the entries of one staker. -/
def settleEntries (pool : Pool) (staker : StakerAccount) : Result StakerAccount := do
  let staked := staker.stakedAmount
  let entries ← updateEach
    (fun i entry =>
      if (pool.rewards i).mint = 0 then .ok entry
      else do
        let rpt := (pool.rewards i).rewardPerTokenStored
        let accrued ← earned staked rpt entry.rewardPerTokenPaid entry.rewardsAccrued
        return { rewardPerTokenPaid := rpt, rewardsAccrued := accrued })
    staker.entries
  return { staker with entries := entries }

/-- `update_reward`, returning the accounts it was lent. -/
def updateReward (pool : Pool) (staker : Option StakerAccount) (now : I64) :
    Result (Pool × Option StakerAccount) := do
  let pool ← settleSlots pool now
  match staker with
  | none => return (pool, none)
  | some staker =>
      let staker ← settleEntries pool staker
      return (pool, some staker)

/-- The slot of a mint: the first index that holds it. -/
def findSlot (pool : Pool) (mint : Pubkey) : Option Slot :=
  (List.finRange MAX_REWARDS).find? fun i => (pool.rewards i).mint = mint

end MmStaking
