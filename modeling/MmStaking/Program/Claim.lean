import MmStaking.Program.System

/-! The claim handler over the accounts its caller passes: `claim.rs` after the account
constraints. The token program appears by what the handler reads of token accounts and by
the one transfer, which is a parameter. -/
namespace MmStaking
open Words

/-- What `Account<TokenAccount>` gives the handler. -/
structure TokenAccount where
  owner : Pubkey
  mint : Pubkey
  deriving DecidableEq

/-- A remaining account: its key, and its token account, if it holds one. -/
structure AccountInfo where
  key : Pubkey
  token : Option TokenAccount
  deriving DecidableEq

/-- A claim fails as the program does, at an account that holds no token account, or in
the transfer. -/
inductive ClaimError
  | program (f : Fault)
  | notTokenAccount
  | insufficientFunds
  deriving DecidableEq

abbrev ClaimResult := Except ClaimError

def ofProgram {α : Type} : Result α → ClaimResult α
  | .ok a => .ok a
  | .error f => .error (.program f)

/-- `Account::try_from`. -/
def AccountInfo.tryFrom (account : AccountInfo) : ClaimResult TokenAccount :=
  match account.token with
  | some token => .ok token
  | none => .error .notTokenAccount

/-- The pairs of `remaining.chunks(2)`, for an even number of accounts. -/
def chunks2 : List AccountInfo → List (AccountInfo × AccountInfo)
  | vaultAi :: userAi :: rest => (vaultAi, userAi) :: chunks2 rest
  | _ => []

variable {ι : Type} [DecidableEq ι]

/-- `token::transfer` out of the vault of slot `idx`. What the vault covers is moved. -/
structure VaultTransfer (ι : Type) [DecidableEq ι] where
  transfer : Ledger ι → ι → Slot → U64 → ClaimResult (Ledger ι)
  transfer_covered : ∀ {ledger v idx} {amount : U64}, (amount.val : ℤ) ≤ ledger.rewardVault idx →
    transfer ledger v idx amount = .ok (ledger.recordClaim v (idx, amount))

/-- One turn of the loop. The slot is taken before anything is checked, and nothing is
checked when there is nothing to pay. -/
def claimPair (token : VaultTransfer ι) (pool : Pool) (owner : Pubkey) (v : ι)
    (state : StakerAccount × Ledger ι) (pair : AccountInfo × AccountInfo) :
    ClaimResult (StakerAccount × Ledger ι) := do
  let (staker, ledger) := state
  let (vaultAi, userAi) := pair
  let (staker, idx, amount) ← ofProgram (claimTakeSlot pool staker vaultAi.key)
  if amount.val = 0 then return (staker, ledger)
  else
    ofProgram (require (vaultAi.key = (pool.rewards idx).vault) .vaultMismatch)
    let vaultAcc ← vaultAi.tryFrom
    let userAcc ← userAi.tryFrom
    ofProgram (require (userAcc.owner = owner) .unauthorized)
    ofProgram (require (userAcc.mint = vaultAcc.mint) .mintMismatch)
    let ledger ← token.transfer ledger v idx amount
    return (staker, ledger)

def claimPairs (token : VaultTransfer ι) (pool : Pool) (owner : Pubkey) (v : ι)
    (state : StakerAccount × Ledger ι) (pairs : List (AccountInfo × AccountInfo)) :
    ClaimResult (StakerAccount × Ledger ι) :=
  pairs.foldlM (claimPair token pool owner v) state

/-- `claim::handler`, called by the signer `owner` of the account of `v`. -/
def claimHandler (token : VaultTransfer ι) (s : Sys ι) (now : I64) (v : ι) (owner : Pubkey)
    (remaining : List AccountInfo) : ClaimResult (Sys ι) := do
  let (pool, staker) ← ofProgram (claimSettleAll s.pool (s.staker v) now)
  ofProgram (require (remaining.length % 2 = 0) .vaultMismatch)
  let (staker, ledger) ← claimPairs token pool owner v (staker, s.ledger) (chunks2 remaining)
  return { s.put pool v staker with ledger := ledger }

/-- What the vault does not cover is refused. -/
def trialVaultTransfer : VaultTransfer ι where
  transfer ledger v idx amount :=
    if (amount.val : ℤ) ≤ ledger.rewardVault idx then .ok (ledger.recordClaim v (idx, amount))
    else .error .insufficientFunds
  transfer_covered h := if_pos h

end MmStaking
