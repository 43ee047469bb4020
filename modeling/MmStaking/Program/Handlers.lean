import MmStaking.Program.Accounts

/-! The handlers of `instructions/*.rs`. Each has the keys of the accounts its caller
passes; `tryAccounts` loads them and checks their constraints, fields first and then the
constraints in the order of the fields, and the handler runs the logic and the transfer.
A handler returns the accounts it leaves behind, so one that fails leaves them alone. -/
namespace MmStaking
open Words

section Opening

structure InitializePool where
  admin : Pubkey
  stakeMint : Pubkey
  pool : Pubkey
  stakeVault : Pubkey

/-- `initialize_pool::handler`. The accounts are created before the logic runs. -/
def InitializePool.handler (env : Env) (w : World) (ctx : InitializePool) (defaultDuration : I64)
    (keeperAuthority : Pubkey) : TxResult World := do
  signer env ctx.admin
  loadMint w ctx.stakeMint
  let (bump, w) ← initAt env w ctx.admin (.pool ctx.stakeMint) ctx.pool
  let w := w.putPool ctx.pool .zeroed
  let (_, w) ← initAt env w ctx.admin (.stakeVault ctx.pool) ctx.stakeVault
  let w := w.putToken ctx.stakeVault (.opened ctx.stakeMint ctx.pool)
  let pool ← ofLogic (initPool .zeroed ctx.admin keeperAuthority ctx.stakeMint ctx.stakeVault
    defaultDuration bump)
  return w.putPool ctx.pool pool

structure AddReward where
  admin : Pubkey
  pool : Pubkey
  rewardMint : Pubkey
  rewardVault : Pubkey

/-- `add_reward::handler`. -/
def AddReward.handler (env : Env) (w : World) (ctx : AddReward) (duration : I64) :
    TxResult World := do
  signer env ctx.admin
  let pool ← loaded (w.pools ctx.pool)
  loadMint w ctx.rewardMint
  let (_, w) ← initAt env w ctx.admin (.rewardVault ctx.pool ctx.rewardMint) ctx.rewardVault
  let w := w.putToken ctx.rewardVault (.opened ctx.rewardMint ctx.pool)
  ofLogic (require (ctx.admin = pool.admin) .unauthorized)
  seedsMatch env (.pool pool.stakeMint) pool.bump ctx.pool
  let pool ← ofLogic (addReward pool ctx.rewardMint ctx.rewardVault duration env.now)
  return w.putPool ctx.pool pool

end Opening

section Admin

structure AdminOnly where
  admin : Pubkey
  pool : Pubkey

def AdminOnly.tryAccounts (env : Env) (w : World) (ctx : AdminOnly) : TxResult Pool := do
  signer env ctx.admin
  let pool ← loaded (w.pools ctx.pool)
  ofLogic (require (ctx.admin = pool.admin) .unauthorized)
  seedsMatch env (.pool pool.stakeMint) pool.bump ctx.pool
  return pool

/-- A handler that only calls the logic on the pool of its admin. -/
def AdminOnly.run (env : Env) (w : World) (ctx : AdminOnly) (logic : Pool → Result Pool) :
    TxResult World := do
  let pool ← ctx.tryAccounts env w
  let pool ← ofLogic (logic pool)
  return w.putPool ctx.pool pool

def AdminOnly.setPaused (env : Env) (w : World) (ctx : AdminOnly) (paused : Bool) :
    TxResult World := ctx.run env w fun pool => MmStaking.setPaused pool paused

def AdminOnly.setKeeperAuthority (env : Env) (w : World) (ctx : AdminOnly) (keeper : Pubkey) :
    TxResult World := ctx.run env w fun pool => MmStaking.setKeeperAuthority pool keeper

def AdminOnly.setAdmin (env : Env) (w : World) (ctx : AdminOnly) (newAdmin : Pubkey) :
    TxResult World := ctx.run env w fun pool => MmStaking.setAdmin pool newAdmin

def AdminOnly.setDuration (env : Env) (w : World) (ctx : AdminOnly) (slot : U8)
    (duration : I64) : TxResult World :=
  ctx.run env w fun pool => MmStaking.setDuration pool slot duration

/-- The accounts of `set_reward_active` have the constraints of `AdminOnly`. -/
abbrev SetRewardActive := AdminOnly

/-- `add_reward::set_active_handler`. -/
def SetRewardActive.handler (env : Env) (w : World) (ctx : SetRewardActive) (slot : U8)
    (active : Bool) : TxResult World :=
  ctx.run env w fun pool => MmStaking.setRewardActive pool slot active

end Admin

section Staking

structure Stake where
  owner : Pubkey
  pool : Pubkey
  staker : Pubkey
  stakeMint : Pubkey
  userTokenAccount : Pubkey
  stakeVault : Pubkey

/-- `init_if_needed, payer = payer`: a missing staker account is created. -/
def stakerOrInit (env : Env) (w : World) (payer : Pubkey) (seeds : Seeds) (key : Pubkey) :
    TxResult (StakerAccount × World) :=
  match w.stakers key with
  | some staker => .ok (staker, w)
  | none => do
      let w ← createAccount env w payer seeds key
      return (.zeroed, w)

/-- The loaded pool and staker account, the bump of the staker's address, and the accounts
once the owner has paid for a new one. -/
def Stake.tryAccounts (env : Env) (w : World) (ctx : Stake) :
    TxResult (Pool × StakerAccount × U8 × World) := do
  signer env ctx.owner
  let pool ← loaded (w.pools ctx.pool)
  loadMint w ctx.stakeMint
  let userTokenAccount ← loaded (w.tokens ctx.userTokenAccount)
  let _ ← loaded (w.tokens ctx.stakeVault)
  let stakerBump ← seedsFound env (.staker ctx.pool ctx.owner) ctx.staker
  let (staker, w) ← stakerOrInit env w ctx.owner (.staker ctx.pool ctx.owner) ctx.staker
  seedsMatch env (.pool ctx.stakeMint) pool.bump ctx.pool
  ensure (ctx.stakeMint = pool.stakeMint) (.constraint .address)
  tokenMatches userTokenAccount ctx.stakeMint ctx.owner
  ensure (ctx.stakeVault = pool.stakeVault) (.constraint .address)
  return (pool, staker, stakerBump, w)

/-- `stake_handler`. The amount and the pause flag are checked before the staker account
is opened, and again by the logic. -/
def Stake.handler (env : Env) (w : World) (ctx : Stake) (amount : U64) : TxResult World := do
  let (pool, staker, stakerBump, w) ← ctx.tryAccounts env w
  ofLogic (require (0 < amount.val) .zeroAmount)
  ofLogic (require (pool.paused.val = 0) .paused)
  let (pool, staker) ← ofLogic (stake pool staker ctx.owner ctx.pool stakerBump amount env.now)
  let tokens ← transferTokens env w.tokens ctx.userTokenAccount ctx.stakeVault ctx.owner amount
  return ((w.putPool ctx.pool pool).putStaker ctx.staker staker).putTokens tokens

structure Unstake where
  owner : Pubkey
  pool : Pubkey
  staker : Pubkey
  stakeMint : Pubkey
  userTokenAccount : Pubkey
  stakeVault : Pubkey

def Unstake.tryAccounts (env : Env) (w : World) (ctx : Unstake) :
    TxResult (Pool × StakerAccount) := do
  signer env ctx.owner
  let pool ← loaded (w.pools ctx.pool)
  let staker ← loaded (w.stakers ctx.staker)
  loadMint w ctx.stakeMint
  let userTokenAccount ← loaded (w.tokens ctx.userTokenAccount)
  let _ ← loaded (w.tokens ctx.stakeVault)
  seedsMatch env (.pool ctx.stakeMint) pool.bump ctx.pool
  seedsMatch env (.staker ctx.pool ctx.owner) staker.bump ctx.staker
  ofLogic (require (staker.owner = ctx.owner) .unauthorized)
  ensure (ctx.stakeMint = pool.stakeMint) (.constraint .address)
  tokenMatches userTokenAccount ctx.stakeMint ctx.owner
  ensure (ctx.stakeVault = pool.stakeVault) (.constraint .address)
  return (pool, staker)

/-- `unstake_handler`. The pool signs for the vault. -/
def Unstake.handler (env : Env) (w : World) (ctx : Unstake) (amount : U64) : TxResult World := do
  let (pool, staker) ← ctx.tryAccounts env w
  let poolBump := pool.bump
  let (pool, staker) ← ofLogic (unstake pool staker amount env.now)
  let tokens ← transferSigned env w.tokens ctx.stakeVault ctx.userTokenAccount ctx.pool
    ctx.stakeMint poolBump amount
  return ((w.putPool ctx.pool pool).putStaker ctx.staker staker).putTokens tokens

/-- The accounts of `emergency_withdraw` are those of `unstake`, with the same constraints. -/
abbrev EmergencyWithdraw := Unstake

/-- `emergency_withdraw::handler`. Only after the logic has run is an empty stake refused. -/
def EmergencyWithdraw.handler (env : Env) (w : World) (ctx : EmergencyWithdraw) :
    TxResult World := do
  let (pool, staker) ← ctx.tryAccounts env w
  let poolBump := pool.bump
  let (pool, staker, amount) ← ofLogic (emergencyWithdraw pool staker)
  ofLogic (require (0 < amount.val) .zeroAmount)
  let tokens ← transferSigned env w.tokens ctx.stakeVault ctx.userTokenAccount ctx.pool
    ctx.stakeMint poolBump amount
  return ((w.putPool ctx.pool pool).putStaker ctx.staker staker).putTokens tokens

end Staking

section Rewards

structure DepositRewards where
  keeper : Pubkey
  pool : Pubkey
  rewardMint : Pubkey
  keeperTokenAccount : Pubkey
  rewardVault : Pubkey

def findRewardVault (pool : Pool) (mint : Pubkey) : Result Pubkey := do
  let i ← okOr (findSlot pool mint) .rewardNotFound
  return (pool.rewards i).vault

def DepositRewards.tryAccounts (env : Env) (w : World) (ctx : DepositRewards) :
    TxResult (Pool × Holding) := do
  signer env ctx.keeper
  let pool ← loaded (w.pools ctx.pool)
  loadMint w ctx.rewardMint
  let keeperTokenAccount ← loaded (w.tokens ctx.keeperTokenAccount)
  let rewardVault ← loaded (w.tokens ctx.rewardVault)
  ofLogic (require (ctx.keeper = pool.keeperAuthority) .unauthorized)
  seedsMatch env (.pool pool.stakeMint) pool.bump ctx.pool
  tokenMatches keeperTokenAccount ctx.rewardMint ctx.keeper
  let vault ← ofLogic (findRewardVault pool ctx.rewardMint)
  ensure (ctx.rewardVault = vault) (.constraint .address)
  ensure (rewardVault.mint = ctx.rewardMint) (.constraint .tokenMint)
  return (pool, rewardVault)

/-- `deposit_rewards::handler`. What is streamed is the growth of the vault. -/
def DepositRewards.handler (env : Env) (w : World) (ctx : DepositRewards) (amount : U64) :
    TxResult World := do
  let (pool, rewardVault) ← ctx.tryAccounts env w
  ofLogic (require (0 < amount.val) .zeroAmount)
  let tokens ← transferTokens env w.tokens ctx.keeperTokenAccount ctx.rewardVault ctx.keeper amount
  let reloaded ← loaded (tokens ctx.rewardVault)
  let received ← ofLogic (okOr (reloaded.amount.checkedSub rewardVault.amount) .mathOverflow)
  let pool ← ofLogic (depositRewards pool ctx.rewardMint received env.now)
  return (w.putPool ctx.pool pool).putTokens tokens

structure Claim where
  owner : Pubkey
  pool : Pubkey
  staker : Pubkey
  remaining : List Pubkey

def Claim.tryAccounts (env : Env) (w : World) (ctx : Claim) : TxResult (Pool × StakerAccount) := do
  signer env ctx.owner
  let pool ← loaded (w.pools ctx.pool)
  let staker ← loaded (w.stakers ctx.staker)
  seedsMatch env (.pool pool.stakeMint) pool.bump ctx.pool
  seedsMatch env (.staker ctx.pool ctx.owner) staker.bump ctx.staker
  ofLogic (require (staker.owner = ctx.owner) .unauthorized)
  return (pool, staker)

/-- `remaining.chunks(2)` for an even number of keys. -/
def keyPairs : List Pubkey → List (Pubkey × Pubkey)
  | vaultAi :: userAi :: rest => (vaultAi, userAi) :: keyPairs rest
  | _ => []

/-- One turn of the loop of `claim::handler`, on the accounts as the earlier turns leave them. -/
def Claim.turn (env : Env) (ctx : Claim) (stakeMint : Pubkey) (poolBump : U8) (pool : Pool)
    (state : StakerAccount × Tokens) (pair : Pubkey × Pubkey) :
    TxResult (StakerAccount × Tokens) := do
  let (staker, tokens) := state
  let (vaultAi, userAi) := pair
  let (staker, idx, amount) ← ofLogic (claimTakeSlot pool staker vaultAi)
  if amount.val = 0 then return (staker, tokens)
  else
    ofLogic (require (vaultAi = (pool.rewards idx).vault) .vaultMismatch)
    let vaultAcc ← loaded (tokens vaultAi)
    let userAcc ← loaded (tokens userAi)
    ofLogic (require (userAcc.owner = ctx.owner) .unauthorized)
    ofLogic (require (userAcc.mint = vaultAcc.mint) .mintMismatch)
    let tokens ← transferSigned env tokens vaultAi userAi ctx.pool stakeMint poolBump amount
    return (staker, tokens)

/-- `claim::handler`. -/
def Claim.handler (env : Env) (w : World) (ctx : Claim) : TxResult World := do
  let (pool, staker) ← ctx.tryAccounts env w
  let stakeMint := pool.stakeMint
  let poolBump := pool.bump
  let (pool, staker) ← ofLogic (claimSettleAll pool staker env.now)
  ofLogic (require (ctx.remaining.length % 2 = 0) .vaultMismatch)
  let (staker, tokens) ← (keyPairs ctx.remaining).foldlM
    (ctx.turn env stakeMint poolBump pool) (staker, w.tokens)
  return ((w.putPool ctx.pool pool).putStaker ctx.staker staker).putTokens tokens

end Rewards
end MmStaking
