import MmStaking.Program.Handlers

/-! Transactions, and the chain they run on. The entry points of `lib.rs` pass their
arguments on to the handlers. Between transactions of the program anything may happen to
accounts that are not the program's; a derived address nobody else can sign for. -/
namespace MmStaking
open Words Runs

/-- The entry points, each with the accounts and arguments of its handler. -/
inductive Instruction
  | initializePool (ctx : InitializePool) (defaultDuration : I64) (keeperAuthority : Pubkey)
  | addReward (ctx : AddReward) (duration : I64)
  | setRewardActive (ctx : SetRewardActive) (slot : U8) (active : Bool)
  | stake (ctx : Stake) (amount : U64)
  | unstake (ctx : Unstake) (amount : U64)
  | depositRewards (ctx : DepositRewards) (amount : U64)
  | claim (ctx : Claim)
  | emergencyWithdraw (ctx : EmergencyWithdraw)
  | setPaused (ctx : AdminOnly) (paused : Bool)
  | setKeeperAuthority (ctx : AdminOnly) (keeper : Pubkey)
  | setAdmin (ctx : AdminOnly) (newAdmin : Pubkey)
  | setDuration (ctx : AdminOnly) (slot : U8) (duration : I64)

structure Tx where
  signers : List Pubkey
  now : I64
  instruction : Instruction

def Instruction.handle (env : Env) (w : World) : Instruction → TxResult World
  | .initializePool ctx defaultDuration keeperAuthority =>
      ctx.handler env w defaultDuration keeperAuthority
  | .addReward ctx duration => ctx.handler env w duration
  | .setRewardActive ctx slot active => SetRewardActive.handler env w ctx slot active
  | .stake ctx amount => ctx.handler env w amount
  | .unstake ctx amount => ctx.handler env w amount
  | .depositRewards ctx amount => ctx.handler env w amount
  | .claim ctx => ctx.handler env w
  | .emergencyWithdraw ctx => EmergencyWithdraw.handler env w ctx
  | .setPaused ctx paused => ctx.setPaused env w paused
  | .setKeeperAuthority ctx keeper => ctx.setKeeperAuthority env w keeper
  | .setAdmin ctx newAdmin => ctx.setAdmin env w newAdmin
  | .setDuration ctx slot duration => ctx.setDuration env w slot duration

def Instruction.pool : Instruction → Pubkey
  | .initializePool ctx _ _ => ctx.pool
  | .addReward ctx _ => ctx.pool
  | .setRewardActive ctx _ _ => ctx.pool
  | .stake ctx _ => ctx.pool
  | .unstake ctx _ => ctx.pool
  | .depositRewards ctx _ => ctx.pool
  | .claim ctx => ctx.pool
  | .emergencyWithdraw ctx => ctx.pool
  | .setPaused ctx _ => ctx.pool
  | .setKeeperAuthority ctx _ => ctx.pool
  | .setAdmin ctx _ => ctx.pool
  | .setDuration ctx _ _ => ctx.pool

def Tx.env (tx : Tx) (rt : Runtime) : Env := { rt := rt, signers := tx.signers, now := tx.now }

namespace World

/-- A transaction runs against the clock, with signatures that can be made. -/
def step (rt : Runtime) (w : World) (tx : Tx) : TxResult World := do
  ensure (w.clock.val ≤ tx.now.val) .refused
  ensure (tx.signers.all rt.signable = true) .refused
  let w ← tx.instruction.handle (tx.env rt) w
  return { w with clock := tx.now }

/-- What may happen between two transactions of the program. Others cannot write its
accounts, and at a derived address they can neither open an account nor take from the one
the program opened or approve a delegate; they can pay into it. -/
structure Outside (rt : Runtime) (w w' : World) : Prop where
  pools_eq : w'.pools = w.pools
  stakers_eq : w'.stakers = w.stakers
  clock_eq : w'.clock = w.clock
  mints_kept : ∀ {key}, w.mints key = true → w'.mints key = true
  vacant_kept : ∀ {seeds bump key}, rt.create seeds bump = some key → w.vacant key = true →
    w'.vacant key = true
  holding_kept : ∀ {seeds bump key a}, rt.create seeds bump = some key →
    w.tokens key = some a → ∃ a', w'.tokens key = some a' ∧ a'.owner = a.owner ∧
      a'.mint = a.mint ∧ a'.delegate = a.delegate ∧ a.amount.val ≤ a'.amount.val

/-- Before the program was ever called. -/
structure Initial (rt : Runtime) (w : World) : Prop where
  pools_none : ∀ key, w.pools key = none
  stakers_none : ∀ key, w.stakers key = none
  clock_eq : w.clock = 0
  vacant : ∀ {seeds bump key}, rt.create seeds bump = some key → w.vacant key = true

end World

/-- A transaction of the program, or a change of other accounts. -/
inductive Event
  | tx (tx : Tx)
  | outside (after : World)

namespace World

inductive Step (rt : Runtime) (w : World) : Event → World → Prop
  | tx {tx : Tx} {w' : World} : w.step rt tx = .ok w' → Step rt w (.tx tx) w'
  | outside {w' : World} : w.Outside rt w' → Step rt w (.outside w') w'

/-- The states of all runs, transactions of anyone on any pool and outside changes in any
order. -/
def Reachable (rt : Runtime) (w : World) : Prop :=
  ∃ w₀ h, w₀.Initial rt ∧ Run (Step rt) w₀ h w

theorem Reachable.invariant {rt : Runtime} {w : World} {I : World → Prop} (hw : w.Reachable rt)
    (h0 : ∀ w, w.Initial rt → I w) (hstep : ∀ w e w', I w → w.Step rt e w' → I w') : I w := by
  obtain ⟨w₀, h, hi, r⟩ := hw
  exact r.invariant (h0 w₀ hi) hstep

theorem Reachable.run {rt : Runtime} {w w' : World} {h : List (World × Event)}
    (hw : w.Reachable rt) (r : Run (Step rt) w h w') : w'.Reachable rt := by
  obtain ⟨w₀, h₀, hi, r₀⟩ := hw
  exact ⟨w₀, h₀ ++ h, hi, r₀.trans r⟩

theorem Reachable.step {rt : Runtime} {w w' : World} {e : Event} (hw : w.Reachable rt)
    (h : w.Step rt e w') : w'.Reachable rt :=
  hw.run (Run.refl.tail h)

/-- Transactions one after another; one that fails leaves the accounts as they were. -/
def attempt (rt : Runtime) (w : World) (txs : List Tx) : World :=
  txs.foldl (fun w tx => match w.step rt tx with
    | .ok w' => w'
    | .error _ => w) w

theorem attempt_eq_of_replay {rt : Runtime} {w w' : World} {txs : List Tx} {h : List (World × Tx)}
    (hr : replay (step rt) w txs = .ok (h, w')) : w.attempt rt txs = w' := by
  induction txs generalizing w h with
  | nil =>
      simp only [replay, Except.ok.injEq, Prod.mk.injEq] at hr
      exact hr.2
  | cons tx rest ih =>
      simp only [replay] at hr
      cases hs : w.step rt tx with
      | error e => simp [hs] at hr
      | ok t =>
          rw [attempt, List.foldl_cons, hs]
          cases hl : replay (step rt) t rest with
          | error e => simp [hs, hl, Except.map] at hr
          | ok r =>
              simp only [hs, hl, Except.map, Except.ok.injEq, Prod.mk.injEq] at hr
              obtain ⟨rfl, rfl⟩ := hr
              exact ih hl

/-- A derivation with one pool, its vaults and two stakers. -/
def trialCreate (seeds : Seeds) (bump : U8) : Option Pubkey :=
  if bump.val = 255 then
    if seeds = .pool 5 then some 100
    else if seeds = .stakeVault 100 then some 101
    else if seeds = .rewardVault 100 7 then some 102
    else if seeds = .staker 100 1 then some 111
    else if seeds = .staker 100 2 then some 112
    else none
  else none

theorem trialCreate_eq_some {seeds : Seeds} {bump : U8} {key : Pubkey}
    (h : trialCreate seeds bump = some key) :
    seeds = .pool 5 ∧ key = 100 ∨ seeds = .stakeVault 100 ∧ key = 101 ∨
      seeds = .rewardVault 100 7 ∧ key = 102 ∨ seeds = .staker 100 1 ∧ key = 111 ∨
      seeds = .staker 100 2 ∧ key = 112 := by
  unfold trialCreate at h
  split_ifs at h <;> simp_all

def trialPda : Pda where
  create := trialCreate
  signable key := key = 1 ∨ key = 2 ∨ key = 3 ∨ key = 4
  injective := by
    intro seeds seeds' bump bump' key h h'
    have h' := trialCreate_eq_some h'
    rcases trialCreate_eq_some h with
      ⟨rfl, rfl⟩ | ⟨rfl, rfl⟩ | ⟨rfl, rfl⟩ | ⟨rfl, rfl⟩ | ⟨rfl, rfl⟩ <;>
      exact Eq.symm (by simpa using h')
  unsignable := by
    intro seeds bump key h
    rcases trialCreate_eq_some h with
      ⟨-, rfl⟩ | ⟨-, rfl⟩ | ⟨-, rfl⟩ | ⟨-, rfl⟩ | ⟨-, rfl⟩ <;> decide
  create_ne_zero := by
    intro seeds bump h
    rcases trialCreate_eq_some h with
      ⟨-, h⟩ | ⟨-, h⟩ | ⟨-, h⟩ | ⟨-, h⟩ | ⟨-, h⟩ <;> exact absurd h (by decide)
  zero_unsignable := by decide

/-- The account a transfer leaves: a delegate loses what it moved, and goes with the last of
it. -/
def trialSent (x : Holding) (authority : Pubkey) (amount : U64) : Holding :=
  if x.delegate = some authority then
    { x with
      amount := x.amount.saturatingSub amount
      delegate := if x.delegatedAmount.val ≤ amount.val then none else x.delegate
      delegatedAmount := x.delegatedAmount.saturatingSub amount }
  else { x with amount := x.amount.saturatingSub amount }

/-- The transfer of the token program. -/
def trialTransfer (tokens : Tokens) (source dest authority : Pubkey) (amount : U64) :
    Except TokenError Tokens :=
  match tokens source, tokens dest with
  | some x, some y =>
      if ¬ (x.frozen = false ∧ y.frozen = false) then .error .accountFrozen
      else if ¬ amount.val ≤ x.amount.val then .error .insufficientFunds
      else if ¬ x.mint = y.mint then .error .mintMismatch
      else if ¬ x.Lets authority amount then .error .ownerMismatch
      else if source = dest then .ok tokens
      else match y.amount.checkedAdd amount with
        | some grown => .ok (Function.update
            (Function.update tokens source (some (trialSent x authority amount))) dest
            (some { y with amount := grown }))
        | none => .error .overflow
  | _, _ => .error .uninitializedState

theorem trialSent_sends (x : Holding) (authority : Pubkey) (amount : U64) :
    x.Sends authority amount (trialSent x authority amount) := by
  unfold trialSent
  split
  · rename_i hdelegate
    exact ⟨rfl, rfl, rfl, rfl, fun hne => absurd hdelegate hne⟩
  · exact ⟨rfl, rfl, rfl, rfl, fun _ => ⟨rfl, rfl⟩⟩

/-- Nobody is a multisig. -/
def trialTokenProgram : TokenProgram where
  transfer := trialTransfer
  multisig _ := false
  transfer_ok := by
    intro tokens source dest authority amount tokens' h
    unfold trialTransfer at h
    split at h
    · rename_i x y hx hy
      split_ifs at h with hfrozen hle hmint hlets hsame
      · exact ⟨x, y, hx, hy, hfrozen, hle, hmint, ⟨hlets, rfl⟩, by
          rw [if_pos hsame]
          exact (Except.ok.inj h).symm⟩
      · split at h
        · rename_i grown hgrown
          refine ⟨x, y, hx, hy, hfrozen, hle, hmint, ⟨hlets, rfl⟩, ?_⟩
          rw [if_neg hsame]
          exact ⟨_, grown, trialSent_sends x authority amount,
            Unsigned.checkedAdd_eq_some_iff.mp hgrown, (Except.ok.inj h).symm⟩
        · cases h
    · cases h
  transfer_goes := by
    intro tokens source dest authority amount x y hx hy hfrozen hle hmint hlets _ hroom
    unfold trialTransfer
    rw [hx, hy]
    dsimp only
    rw [if_neg (not_not.mpr hfrozen), if_neg (not_not.mpr hle), if_neg (not_not.mpr hmint),
      if_neg (not_not.mpr hlets)]
    by_cases hsame : source = dest
    · exact ⟨tokens, if_pos hsame⟩
    · obtain ⟨grown, hgrown⟩ := Unsigned.exists_val (hroom.resolve_left hsame)
      rw [if_neg hsame, Unsigned.checkedAdd_eq_some_iff.mpr hgrown]
      exact ⟨_, rfl⟩

/-- The rent of every account is 10, less what somebody has sent there already. -/
def trialPayRent (lamports : Lamports) (payer : Pubkey) (_ : Seeds) (key : Pubkey) :
    Option Lamports := do
  let missing := (10 : U64).saturatingSub (lamports key)
  let left ← (lamports payer).checkedSub missing
  let paid ← (lamports key).checkedAdd missing
  return Function.update (Function.update lamports payer left) key paid

def trialRuntime : Runtime :=
  { trialPda, trialTokenProgram with
    payRent := trialPayRent
    create_single := fun _ => rfl }

/-- Before the pool is opened: wallets of the stakers 1 and 2 and of the keeper 3, who can pay
the rent of one account only. -/
def trialStart : World where
  pools _ := none
  stakers _ := none
  tokens key :=
    if key = 21 then some ⟨⟨1, 5⟩, 1000, false, none, 0⟩
    else if key = 22 then some ⟨⟨2, 5⟩, 1000, false, some 2, 600⟩
    else if key = 23 then some ⟨⟨3, 7⟩, 5000, false, none, 0⟩
    else if key = 31 then some ⟨⟨1, 7⟩, 0, false, none, 0⟩
    else if key = 32 then some ⟨⟨2, 7⟩, 0, false, none, 0⟩
    else none
  mints key := key = 5 ∨ key = 7
  lamports key := if key = 3 then 15 else if key.toNat < 10 then 100 else 0
  clock := 0

/-- The admin 4 opens the pool and a slot, both stake, the keeper deposits, and the first
staker claims halfway. -/
def trialTxs : List Tx :=
  [ ⟨[4], 0, .initializePool ⟨4, 5, 100, 101⟩ 3600 3⟩,
    ⟨[4], 0, .addReward ⟨4, 100, 7, 102⟩ 100⟩,
    ⟨[1], 0, .stake ⟨1, 100, 111, 5, 21, 101⟩ 100⟩,
    ⟨[3], 0, .depositRewards ⟨3, 100, 7, 23, 102⟩ 1000⟩,
    ⟨[2], 10, .stake ⟨2, 100, 112, 5, 22, 101⟩ 300⟩,
    ⟨[1], 50, .claim ⟨1, 100, 111, [102, 31]⟩⟩ ]

def trial : World := trialStart.attempt trialRuntime trialTxs

/-- The trial before anybody stakes. -/
def trialOpened : World := trialStart.attempt trialRuntime (trialTxs.take 2)

theorem initial_trialStart : trialStart.Initial trialRuntime where
  pools_none _ := rfl
  stakers_none _ := rfl
  clock_eq := rfl
  vacant := by
    intro seeds bump key h
    rcases trialCreate_eq_some h with
      ⟨-, rfl⟩ | ⟨-, rfl⟩ | ⟨-, rfl⟩ | ⟨-, rfl⟩ | ⟨-, rfl⟩ <;> decide

def trialHistory : List (World × Event) :=
  match replay (step trialRuntime) trialStart trialTxs with
  | .ok r => r.1.map fun e => (e.1, .tx e.2)
  | .error _ => []

theorem attempt_run {rt : Runtime} {w w' : World} {txs : List Tx} {h : List (World × Tx)}
    (hr : replay (step rt) w txs = .ok (h, w')) :
    Run (Step rt) w (h.map fun e => (e.1, .tx e.2)) (w.attempt rt txs) ∧
      (h.map fun e => (e.1, Event.tx e.2)).map Prod.snd = txs.map Event.tx := by
  rw [attempt_eq_of_replay hr]
  refine ⟨(replay_run (fun _ _ _ h => h) hr).relabel fun _ _ _ => .tx, ?_⟩
  rw [← replay_labels hr, List.map_map, List.map_map]
  rfl

theorem trial_run : Run (Step trialRuntime) trialStart trialHistory trial ∧
    trialHistory.map Prod.snd = trialTxs.map Event.tx := by
  obtain ⟨⟨h, w⟩, hr⟩ := exists_ok (x := replay (step trialRuntime) trialStart trialTxs)
    (by decide +kernel)
  have hh : trialHistory = h.map fun e => (e.1, .tx e.2) := by rw [trialHistory, hr]
  rw [hh]
  exact attempt_run hr

theorem trialOpened_run : ∃ h : List (World × Event),
    Run (Step trialRuntime) trialStart h trialOpened ∧
      h.map Prod.snd = (trialTxs.take 2).map Event.tx := by
  obtain ⟨⟨h, w⟩, hr⟩ := exists_ok
    (x := replay (step trialRuntime) trialStart (trialTxs.take 2)) (by decide +kernel)
  exact ⟨_, attempt_run hr⟩

theorem reachable_trial : trial.Reachable trialRuntime :=
  ⟨trialStart, trialHistory, initial_trialStart, trial_run.1⟩

/-- Somebody has paid 7 into the reward vault. -/
def trialGift : World :=
  trial.putToken 102 ⟨⟨100, 7⟩, 807, false, none, 0⟩

theorem outside_trialGift : trial.Outside trialRuntime trialGift where
  pools_eq := rfl
  stakers_eq := rfl
  clock_eq := rfl
  mints_kept h := h
  vacant_kept := by
    intro seeds bump key h hvacant
    rcases trialCreate_eq_some h with
      ⟨-, rfl⟩ | ⟨-, rfl⟩ | ⟨-, rfl⟩ | ⟨-, rfl⟩ | ⟨-, rfl⟩ <;>
      exact absurd hvacant (by decide +kernel)
  holding_kept := by
    intro seeds bump key a _ ha
    by_cases hkey : key = 102
    · subst hkey
      have hbefore : trial.tokens 102 =
          some ⟨⟨100, 7⟩, 800, false, none, 0⟩ := by decide +kernel
      rw [hbefore, Option.some.injEq] at ha
      subst ha
      have hafter : trialGift.tokens 102 =
          some ⟨⟨100, 7⟩, 807, false, none, 0⟩ := by decide +kernel
      exact ⟨_, hafter, rfl, rfl, rfl, by decide⟩
    · have hsame : trialGift.tokens key = trial.tokens key := Function.update_of_ne hkey _ _
      exact ⟨a, hsame.trans ha, rfl, rfl, rfl, le_rfl⟩

end World
end MmStaking
