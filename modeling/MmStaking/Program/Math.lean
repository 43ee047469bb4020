import MmStaking.Program.State

/-! The reward arithmetic. Rates and reward per token are `u128` values scaled by
`PRECISION`; every step is checked. -/
namespace MmStaking
open Words

/-- Advance reward per token by the elapsed seconds; nothing moves without stake. -/
def accrueRpt (rptStored : U128) (elapsedSecs : I64) (rewardRate : U128) (totalStaked : U64) :
    Result U128 :=
  if totalStaked.val = 0 ∨ elapsedSecs.val ≤ 0 then .ok rptStored
  else do
    let delta ← okOr
      (((elapsedSecs.toUnsigned 128).checkedMul rewardRate).bind
        fun x => x.checkedDiv (totalStaked.cast 128))
      .mathOverflow
    okOr (rptStored.checkedAdd delta) .mathOverflow

/-- `staked * (rpt - paid) / PRECISION + accrued`, rounded down. -/
def earned (stakedAmount : U64) (rewardPerToken rewardPerTokenPaid : U128)
    (rewardsAccrued : U64) : Result U64 := do
  let delta ← okOr (rewardPerToken.checkedSub rewardPerTokenPaid) .mathOverflow
  let newRewards ← okOr
    (((stakedAmount.cast 128).checkedMul delta).bind fun x => x.checkedDiv PRECISION)
    .mathOverflow
  let total ← okOr ((rewardsAccrued.cast 128).checkedAdd newRewards) .mathOverflow
  okOr (total.tryFrom 64) .mathOverflow

/-- The rate after a deposit, with the leftover of the current period folded in. -/
def notifyRate (amount : U64) (currentRate : U128) (now periodFinish duration : I64) :
    Result U128 := do
  require (0 < duration.val) .invalidDuration
  let remaining ← (if now.val < periodFinish.val then do
      let secs ← orPanic (periodFinish.checkedSub now)
      okOr ((secs.toUnsigned 128).checkedMul currentRate) .mathOverflow
    else .ok 0)
  let scaledAmount ← okOr ((amount.cast 128).checkedMul PRECISION) .mathOverflow
  okOr ((scaledAmount.checkedAdd remaining).bind fun x => x.checkedDiv (duration.toUnsigned 128))
    .mathOverflow

end MmStaking
