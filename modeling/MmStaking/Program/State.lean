import Mathlib.Data.Fintype.Pi
import MmStaking.Lib.Words
import MmStaking.Lib.Loops

/-! Constants, errors and the account layouts of the staking program. The padding
fields and the PDA bumps' derivations carry no program logic; `bump` itself is kept
because the handlers store it. -/
namespace MmStaking
open Words

abbrev U8 := Unsigned 8
abbrev U64 := Unsigned 64
abbrev U128 := Unsigned 128
abbrev I64 := Signed 64

abbrev MAX_REWARDS : ℕ := 8

/-- `1e12`, the scale of rates and of reward per token. -/
def PRECISION : U128 := ⟨1000000000000, by decide⟩

abbrev Slot := Fin MAX_REWARDS

/-- A 32-byte key; the default key is all zero. -/
abbrev Pubkey := BitVec 256

inductive StakingError
  | mathOverflow
  | rewardSlotsFull
  | rewardNotFound
  | rewardInactive
  | rewardAlreadyExists
  | unauthorized
  | paused
  | zeroAmount
  | insufficientStake
  | invalidDuration
  | vaultMismatch
  | mintMismatch
  deriving DecidableEq

/-- An instruction fails with a program error, or aborts: the release profile
builds with overflow checks, so unchecked arithmetic that overflows panics. -/
inductive Fault
  | err (e : StakingError)
  | panic
  deriving DecidableEq

abbrev Result := Except Fault

/-- `require!(c, e)`. -/
def require (c : Prop) [Decidable c] (e : StakingError) : Result Unit :=
  if c then .ok () else .error (.err e)

/-- `o.ok_or_else(|| error!(e))?`. -/
def okOr {α : Type} (o : Option α) (e : StakingError) : Result α :=
  match o with
  | some a => .ok a
  | none => .error (.err e)

/-- Unchecked arithmetic under overflow checks. -/
def orPanic {α : Type} (o : Option α) : Result α :=
  match o with
  | some a => .ok a
  | none => .error .panic

@[simp] theorem require_eq_ok_iff {c : Prop} [Decidable c] {e : StakingError} {u : Unit} :
    require c e = .ok u ↔ c := by
  simp [require]

@[simp] theorem okOr_eq_ok_iff {α : Type} {o : Option α} {e : StakingError} {a : α} :
    okOr o e = .ok a ↔ o = some a := by
  cases o <;> simp [okOr]

@[simp] theorem orPanic_eq_ok_iff {α : Type} {o : Option α} {a : α} :
    orPanic o = .ok a ↔ o = some a := by
  cases o <;> simp [orPanic]

theorem require_eq_error_iff {c : Prop} [Decidable c] {e : StakingError} {f : Fault} :
    require c e = (.error f : Result Unit) ↔ ¬ c ∧ f = .err e := by
  unfold require
  split <;> simp_all [eq_comm]

theorem okOr_eq_error_iff {α : Type} {o : Option α} {e : StakingError} {f : Fault} :
    okOr o e = .error f ↔ o = none ∧ f = .err e := by
  cases o <;> simp [okOr, eq_comm]

theorem exists_ok {ε α : Type} {x : Except ε α} (h : x.isOk = true) : ∃ a, x = .ok a := by
  cases x with
  | error e => cases h
  | ok a => exact ⟨a, rfl⟩

/-- One reward slot. An all-zero mint marks the slot empty. -/
structure RewardInfo where
  mint : Pubkey
  vault : Pubkey
  rewardRate : U128
  rewardPerTokenStored : U128
  periodFinish : I64
  lastUpdateTime : I64
  duration : I64
  active : U8
  deriving DecidableEq

structure RewardEntry where
  rewardPerTokenPaid : U128
  rewardsAccrued : U64
  deriving DecidableEq

structure Pool where
  admin : Pubkey
  keeperAuthority : Pubkey
  stakeMint : Pubkey
  stakeVault : Pubkey
  totalStaked : U64
  defaultDuration : I64
  rewardCount : U8
  paused : U8
  bump : U8
  rewards : Slot → RewardInfo
  deriving DecidableEq

structure StakerAccount where
  owner : Pubkey
  pool : Pubkey
  stakedAmount : U64
  bump : U8
  entries : Slot → RewardEntry
  deriving DecidableEq

def RewardInfo.zeroed : RewardInfo :=
  { mint := 0, vault := 0, rewardRate := 0, rewardPerTokenStored := 0, periodFinish := 0,
    lastUpdateTime := 0, duration := 0, active := 0 }

def RewardEntry.zeroed : RewardEntry := { rewardPerTokenPaid := 0, rewardsAccrued := 0 }

/-- The pool account as `init` allocates it. -/
def Pool.zeroed : Pool :=
  { admin := 0, keeperAuthority := 0, stakeMint := 0, stakeVault := 0, totalStaked := 0,
    defaultDuration := 0, rewardCount := 0, paused := 0, bump := 0,
    rewards := fun _ => .zeroed }

/-- A staker account as `init_if_needed` allocates it. -/
def StakerAccount.zeroed : StakerAccount :=
  { owner := 0, pool := 0, stakedAmount := 0, bump := 0, entries := fun _ => .zeroed }

/-- `pool.rewards[i].mint != Pubkey::default()`. -/
def Pool.Registered (pool : Pool) (i : Slot) : Prop := (pool.rewards i).mint ≠ 0

instance (pool : Pool) (i : Slot) : Decidable (pool.Registered i) :=
  inferInstanceAs (Decidable (_ ≠ _))

def Pool.setReward (pool : Pool) (i : Slot) (slot : RewardInfo) : Pool :=
  { pool with rewards := Function.update pool.rewards i slot }

end MmStaking
