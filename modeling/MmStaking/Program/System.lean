import MmStaking.Lib.Runs
import MmStaking.Program.Logic

/-! The program with the accounts around it: one pool, the staker account of every
holder, and the token balances the handlers move. The stakers are the members of any
type `ι`; an account never touched is the zeroed one. -/
namespace MmStaking
open Words Runs

/-- Token balances and the running totals of what was moved. The vault of each slot
is an account of its own, so balances are kept by slot. Balances are unbounded here;
that a transfer out is always covered is for the proofs to show. -/
structure Ledger (ι : Type) where
  stakeVault : ℤ
  rewardVault : Slot → ℤ
  deposited : Slot → ℕ
  claimed : ι → Slot → ℕ
  stakedIn : ι → ℕ
  unstaked : ι → ℕ
  withdrawn : ι → ℕ

structure Sys (ι : Type) where
  pool : Pool
  staker : ι → StakerAccount
  clock : I64
  ledger : Ledger ι

/-- The instructions, with the arguments their logic takes. A claim names the vaults
of its remaining accounts in order. -/
inductive Op (ι : Type)
  | addReward (mint vault : Pubkey) (durationArg : I64)
  | setRewardActive (slot : U8) (active : Bool)
  | stake (v : ι) (owner poolKey : Pubkey) (stakerBump : U8) (amount : U64)
  | unstake (v : ι) (amount : U64)
  | depositRewards (mint : Pubkey) (received : U64)
  | claim (v : ι) (vaultKeys : List Pubkey)
  | emergencyWithdraw (v : ι)
  | setPaused (paused : Bool)
  | setKeeperAuthority (keeper : Pubkey)
  | setAdmin (newAdmin : Pubkey)
  | setDuration (slot : U8) (duration : I64)

structure Call (ι : Type) where
  now : I64
  op : Op ι

/-- The loop of the claim handler over the listed vaults: the slots taken, with the
amounts paid. -/
def claimTakeAll (pool : Pool) : StakerAccount → List Pubkey →
    Result (StakerAccount × List (Slot × U64))
  | staker, [] => .ok (staker, [])
  | staker, vaultKey :: rest => do
      let (staker, idx, amt) ← claimTakeSlot pool staker vaultKey
      let (staker, paid) ← claimTakeAll pool staker rest
      return (staker, (idx, amt) :: paid)

namespace Ledger
variable {ι : Type} [DecidableEq ι]

def empty : Ledger ι :=
  { stakeVault := 0, rewardVault := fun _ => 0, deposited := fun _ => 0,
    claimed := fun _ _ => 0, stakedIn := fun _ => 0, unstaked := fun _ => 0,
    withdrawn := fun _ => 0 }

def recordStake (l : Ledger ι) (v : ι) (amount : U64) : Ledger ι :=
  { l with
    stakeVault := l.stakeVault + amount.val
    stakedIn := Function.update l.stakedIn v (l.stakedIn v + amount.val) }

def recordUnstake (l : Ledger ι) (v : ι) (amount : U64) : Ledger ι :=
  { l with
    stakeVault := l.stakeVault - amount.val
    unstaked := Function.update l.unstaked v (l.unstaked v + amount.val) }

def recordWithdraw (l : Ledger ι) (v : ι) (amount : U64) : Ledger ι :=
  { l with
    stakeVault := l.stakeVault - amount.val
    withdrawn := Function.update l.withdrawn v (l.withdrawn v + amount.val) }

def recordDeposit (l : Ledger ι) (i : Slot) (received : U64) : Ledger ι :=
  { l with
    rewardVault := Function.update l.rewardVault i (l.rewardVault i + received.val)
    deposited := Function.update l.deposited i (l.deposited i + received.val) }

def recordClaim (v : ι) (l : Ledger ι) (paid : Slot × U64) : Ledger ι :=
  { l with
    rewardVault := Function.update l.rewardVault paid.1 (l.rewardVault paid.1 - paid.2.val)
    claimed := Function.update l.claimed v
      (Function.update (l.claimed v) paid.1 (l.claimed v paid.1 + paid.2.val)) }

end Ledger

namespace Sys
variable {ι : Type} [DecidableEq ι]

def put (s : Sys ι) (pool : Pool) (v : ι) (account : StakerAccount) : Sys ι :=
  { s with pool := pool, staker := Function.update s.staker v account }

/-- One instruction at time `now`. The emergency exit of a staker with nothing staked,
which its handler turns down, is admitted here and moves no tokens. -/
def perform (s : Sys ι) (now : I64) : Op ι → Result (Sys ι)
  | .addReward mint vault durationArg => do
      let pool ← addReward s.pool mint vault durationArg now
      return { s with pool := pool }
  | .setRewardActive slot active => do
      let pool ← setRewardActive s.pool slot active
      return { s with pool := pool }
  | .stake v owner poolKey stakerBump amount => do
      let (pool, account) ← stake s.pool (s.staker v) owner poolKey stakerBump amount now
      return { s.put pool v account with ledger := s.ledger.recordStake v amount }
  | .unstake v amount => do
      let (pool, account) ← unstake s.pool (s.staker v) amount now
      return { s.put pool v account with ledger := s.ledger.recordUnstake v amount }
  | .depositRewards mint received => do
      let i ← okOr (findSlot s.pool mint) .rewardNotFound
      let pool ← depositRewards s.pool mint received now
      return { s with pool := pool, ledger := s.ledger.recordDeposit i received }
  | .claim v vaultKeys => do
      let (pool, account) ← claimSettleAll s.pool (s.staker v) now
      let (account, paid) ← claimTakeAll pool account vaultKeys
      return { s.put pool v account with ledger := paid.foldl (Ledger.recordClaim v) s.ledger }
  | .emergencyWithdraw v => do
      let (pool, account, amt) ← emergencyWithdraw s.pool (s.staker v)
      return { s.put pool v account with ledger := s.ledger.recordWithdraw v amt }
  | .setPaused paused => do
      let pool ← setPaused s.pool paused
      return { s with pool := pool }
  | .setKeeperAuthority keeper => do
      let pool ← setKeeperAuthority s.pool keeper
      return { s with pool := pool }
  | .setAdmin newAdmin => do
      let pool ← setAdmin s.pool newAdmin
      return { s with pool := pool }
  | .setDuration slot duration => do
      let pool ← setDuration s.pool slot duration
      return { s with pool := pool }

/-- A call moves the clock. The runtime makes no call in the past. -/
def step (s : Sys ι) (c : Call ι) : Result (Sys ι) :=
  if s.clock.val ≤ c.now.val then
    (s.perform c.now c.op).map fun t => { t with clock := c.now }
  else .error .panic

def Step (s : Sys ι) (c : Call ι) (s' : Sys ι) : Prop := s.step c = .ok s'

/-- The system just after `init_pool` on a zeroed account. -/
def genesis (pool : Pool) : Sys ι :=
  { pool := pool, staker := fun _ => .zeroed, clock := 0, ledger := .empty }

def Initial (s : Sys ι) : Prop :=
  ∃ admin keeper stakeMint stakeVault defaultDuration bump pool,
    initPool .zeroed admin keeper stakeMint stakeVault defaultDuration bump = .ok pool ∧
      s = genesis pool

/-- The states of all runs of successful calls from an initial one. -/
def Reachable (s : Sys ι) : Prop := ∃ s₀ h, Initial s₀ ∧ Run Step s₀ h s

theorem step_eq_ok_iff {s s' : Sys ι} {c : Call ι} : s.step c = .ok s' ↔
    s.clock.val ≤ c.now.val ∧
      ∃ t, s.perform c.now c.op = .ok t ∧ s' = { t with clock := c.now } := by
  unfold step
  split
  · rename_i h
    cases hp : s.perform c.now c.op with
    | error e => simp [Except.map, h]
    | ok t => simp [Except.map, h, eq_comm]
  · rename_i h
    simp [h]

theorem Reachable.step {s s' : Sys ι} {c : Call ι} (hs : s.Reachable) (h : s.Step c s') :
    s'.Reachable := by
  obtain ⟨s₀, l, h0, hr⟩ := hs
  exact ⟨s₀, _, h0, hr.tail h⟩

theorem Reachable.invariant {I : Sys ι → Prop} {s : Sys ι} (hs : s.Reachable)
    (h0 : ∀ s, Initial s → I s) (hstep : ∀ s c s', I s → s.Step c s' → I s') : I s := by
  obtain ⟨s₀, l, hi, hr⟩ := hs
  exact hr.invariant (h0 s₀ hi) hstep

theorem Reachable.of_initial {s : Sys ι} (h : Initial s) : s.Reachable := ⟨s, [], h, .refl⟩

/-- Calls made one after another; a call that fails leaves the accounts as they were. -/
def attempt (s : Sys ι) (calls : List (Call ι)) : Sys ι :=
  calls.foldl (fun s c => match s.step c with
    | .ok s' => s'
    | .error _ => s) s

theorem attempt_cons_ok {s s' : Sys ι} {c : Call ι} (h : s.step c = .ok s')
    (rest : List (Call ι)) : s.attempt (c :: rest) = s'.attempt rest := by
  rw [attempt, List.foldl_cons, h]
  rfl

theorem attempt_cons_error {s : Sys ι} {c : Call ι} {e : Fault} (h : s.step c = .error e)
    (rest : List (Call ι)) : s.attempt (c :: rest) = s.attempt rest := by
  rw [attempt, List.foldl_cons, h]
  rfl

theorem Reachable.attempt {s : Sys ι} (hs : s.Reachable) (calls : List (Call ι)) :
    (s.attempt calls).Reachable := by
  induction calls generalizing s with
  | nil => exact hs
  | cons c rest ih =>
      cases h : s.step c with
      | error e =>
          rw [attempt_cons_error h]
          exact ih hs
      | ok s' =>
          rw [attempt_cons_ok h]
          exact ih (hs.step h)

theorem attempt_eq_of_replay {s s' : Sys ι} {calls : List (Call ι)} {h : List (Sys ι × Call ι)}
    (hr : replay step s calls = .ok (h, s')) : s.attempt calls = s' := by
  induction calls generalizing s h with
  | nil =>
      simp only [replay, Except.ok.injEq, Prod.mk.injEq] at hr
      exact hr.2
  | cons c rest ih =>
      simp only [replay] at hr
      cases hs : s.step c with
      | error e => simp [hs] at hr
      | ok t =>
          rw [attempt_cons_ok hs]
          cases hl : replay step t rest with
          | error e => simp [hs, hl, Except.map] at hr
          | ok r =>
              simp only [hs, hl, Except.map, Except.ok.injEq, Prod.mk.injEq] at hr
              obtain ⟨rfl, rfl⟩ := hr
              exact ih hl

theorem attempt_run (s : Sys ι) (calls : List (Call ι)) (h : (replay step s calls).isOk = true) :
    ∃ l, Run Step s l (s.attempt calls) ∧ l.map Prod.snd = calls := by
  obtain ⟨⟨l, s'⟩, hr⟩ := exists_ok h
  rw [attempt_eq_of_replay hr]
  exact ⟨l, replay_run (fun _ _ _ h => h) hr, replay_labels hr⟩

/-- A pool opened with zero keys and default duration `d`. -/
def fresh (d : I64) : Sys ι := genesis { Pool.zeroed with defaultDuration := d }

omit [DecidableEq ι] in
theorem initial_fresh {d : I64} (hd : 0 < d.val) : Initial (fresh d : Sys ι) :=
  ⟨0, 0, 0, 0, d, 0, _, by simp only [initPool, require, if_pos hd]; rfl, rfl⟩

/-- A short run of two stakers on one slot: both stake, a deposit streams for 100
seconds and the first of them claims halfway. -/
def trialCalls : List (Call (Fin 2)) :=
  [ ⟨0, .addReward 7 11 100⟩,
    ⟨0, .stake 0 1 9 255 100⟩,
    ⟨0, .depositRewards 7 1000⟩,
    ⟨10, .stake 1 2 9 254 300⟩,
    ⟨50, .claim 0 [11]⟩ ]

def trialStart : Sys (Fin 2) := fresh 3600

def trial : Sys (Fin 2) := trialStart.attempt trialCalls

theorem initial_trialStart : Initial trialStart := initial_fresh (by decide)

def trialHistory : List (Sys (Fin 2) × Call (Fin 2)) :=
  match replay step trialStart trialCalls with
  | .ok r => r.1
  | .error _ => []

theorem trial_run : Run Step trialStart trialHistory trial ∧
    trialHistory.map Prod.snd = trialCalls := by
  obtain ⟨⟨h, s⟩, hr⟩ := exists_ok (x := replay step trialStart trialCalls) (by decide +kernel)
  have hs : trial = s := attempt_eq_of_replay hr
  have hh : trialHistory = h := by rw [trialHistory, hr]
  rw [hs, hh]
  exact ⟨replay_run (fun _ _ _ h => h) hr, replay_labels hr⟩

theorem reachable_trial : trial.Reachable :=
  (Reachable.of_initial initial_trialStart).attempt _

/-- A run over two slots: both are funded, and the one staker claims from the second and then
from the first. -/
def pairCalls : List (Call (Fin 2)) :=
  [ ⟨0, .addReward 7 11 100⟩,
    ⟨0, .addReward 8 12 50⟩,
    ⟨0, .stake 0 1 9 255 100⟩,
    ⟨0, .depositRewards 7 1000⟩,
    ⟨0, .depositRewards 8 600⟩,
    ⟨30, .claim 0 [12, 11]⟩ ]

def pair : Sys (Fin 2) := trialStart.attempt pairCalls

end Sys
end MmStaking
