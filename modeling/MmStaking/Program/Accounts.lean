import MmStaking.Program.Claim

/-! The accounts of the deployed program. Every account has a key: pools and staker
accounts belong to the program, token accounts and mints to the token program. A handler
loads accounts by the keys its caller passes, so what it checks of them is what ties a
caller to the accounts it may move. -/
namespace MmStaking
open Words

/-- The seeds the program derives addresses from. -/
inductive Seeds
  | pool (stakeMint : Pubkey)
  | stakeVault (pool : Pubkey)
  | rewardVault (pool mint : Pubkey)
  | staker (pool owner : Pubkey)
  deriving DecidableEq

/-- The runtime's address derivation, and the keys a signature can be made for. `create`
is `create_program_address`; it is taken at the seeds in use, no two of which are hashed
to one address, and it fails where the hash is a point of the curve. So nobody signs for
a derived address, and none is the all-zero key of the system program, which is a point of
the curve nobody signs for either. -/
structure Pda where
  create : Seeds → U8 → Option Pubkey
  signable : Pubkey → Bool
  injective : ∀ {seeds seeds' bump bump' key}, create seeds bump = some key →
    create seeds' bump' = some key → seeds = seeds'
  unsignable : ∀ {seeds bump key}, create seeds bump = some key → signable key = false
  create_ne_zero : ∀ {seeds bump}, create seeds bump ≠ some 0
  zero_unsignable : signable 0 = false

/-- `find_program_address`: the first bump, from 255 down to 1, that gives an address. -/
def Pda.find (pda : Pda) (seeds : Seeds) : Option (Pubkey × U8) :=
  (List.finRange 255).findSome? fun n =>
    let bump : U8 := ⟨255 - n.val, by omega⟩
    (pda.create seeds bump).map fun key => (key, bump)

structure Holding extends TokenAccount where
  amount : U64
  frozen : Bool
  delegate : Option Pubkey
  delegatedAmount : U64
  deriving DecidableEq

abbrev Tokens := Pubkey → Option Holding

inductive TokenError
  | uninitializedState
  | accountFrozen
  | insufficientFunds
  | mintMismatch
  | ownerMismatch
  | missingSignature
  | overflow
  deriving DecidableEq

/-- An account lets its delegate move what it was approved for, and anyone else everything as
the owner. -/
def Holding.Lets (holding : Holding) (authority : Pubkey) (amount : U64) : Prop :=
  if holding.delegate = some authority then amount.val ≤ holding.delegatedAmount.val
  else holding.owner = authority

instance (holding : Holding) (authority : Pubkey) (amount : U64) :
    Decidable (holding.Lets authority amount) :=
  inferInstanceAs (Decidable (if holding.delegate = some authority then
    amount.val ≤ holding.delegatedAmount.val else holding.owner = authority))

/-- What is left of an account that sent the amount. Only a delegate's own transfer changes
what it may move. -/
structure Holding.Sends (holding : Holding) (authority : Pubkey) (amount : U64)
    (left : Holding) : Prop where
  owner_eq : left.owner = holding.owner
  mint_eq : left.mint = holding.mint
  amount_eq : left.amount.val = holding.amount.val - amount.val
  frozen_eq : left.frozen = holding.frozen
  delegate_eq : holding.delegate ≠ some authority →
    left.delegate = holding.delegate ∧ left.delegatedAmount = holding.delegatedAmount

/-- The token program: its transfer by an authority that has signed. `transfer_ok` says what
a transfer that went through has checked and done, `transfer_goes` when one goes through. A
key under which it keeps a `multisig` account needs signatures that no handler passes on. -/
structure TokenProgram where
  transfer : Tokens → Pubkey → Pubkey → Pubkey → U64 → Except TokenError Tokens
  multisig : Pubkey → Bool
  transfer_ok : ∀ {tokens source dest authority amount tokens'},
    transfer tokens source dest authority amount = .ok tokens' →
    ∃ x y, tokens source = some x ∧ tokens dest = some y ∧
      (x.frozen = false ∧ y.frozen = false) ∧ amount.val ≤ x.amount.val ∧ x.mint = y.mint ∧
      (x.Lets authority amount ∧ multisig authority = false) ∧
      -- a transfer to itself is checked but moves nothing
      if source = dest then tokens' = tokens
      else ∃ left, ∃ grown : U64, x.Sends authority amount left ∧
        grown.val = y.amount.val + amount.val ∧
        tokens' = Function.update (Function.update tokens source (some left)) dest
          (some { y with amount := grown })
  transfer_goes : ∀ {tokens source dest authority amount x y},
    tokens source = some x → tokens dest = some y → x.frozen = false ∧ y.frozen = false →
    amount.val ≤ x.amount.val → x.mint = y.mint → x.Lets authority amount →
    multisig authority = false → source = dest ∨ y.amount.val + amount.val < 2 ^ 64 →
    ∃ tokens', transfer tokens source dest authority amount = .ok tokens'

abbrev Lamports := Pubkey → U64

/-- What the program runs on. `payRent` gives the lamports after a payer has made the account
at a key, of the kind its seeds tell, exempt from rent, if the payer can. -/
structure Runtime extends Pda, TokenProgram where
  payRent : Lamports → Pubkey → Seeds → Pubkey → Option Lamports
  create_single : ∀ {seeds bump key}, create seeds bump = some key → multisig key = false

/-- All the accounts, and the time of the last transaction. -/
structure World where
  pools : Pubkey → Option Pool
  stakers : Pubkey → Option StakerAccount
  tokens : Tokens
  mints : Pubkey → Bool
  lamports : Lamports
  clock : I64

/-- The checks the framework makes on the accounts passed to a handler. -/
inductive Constraint
  | signer
  | account
  | inUse
  | seeds
  | rent
  | address
  | tokenOwner
  | tokenMint
  deriving DecidableEq

/-- A transaction is refused by the runtime, or fails in the program, in a constraint or in
the token program. -/
inductive TxError
  | refused
  | program (f : Fault)
  | constraint (c : Constraint)
  | token (e : TokenError)
  deriving DecidableEq

abbrev TxResult := Except TxError

def ofLogic {α : Type} : Result α → TxResult α
  | .ok a => .ok a
  | .error f => .error (.program f)

def ensure (c : Prop) [Decidable c] (e : TxError) : TxResult Unit :=
  if c then .ok () else .error e

/-- Load an account: its key has to hold one of the type asked for. -/
def loaded {α : Type} : Option α → TxResult α
  | some a => .ok a
  | none => .error (.constraint .account)

namespace World

def vacant (w : World) (key : Pubkey) : Bool :=
  (w.pools key).isNone && (w.stakers key).isNone && (w.tokens key).isNone && !w.mints key

def putPool (w : World) (key : Pubkey) (pool : Pool) : World :=
  { w with pools := Function.update w.pools key (some pool) }

def putStaker (w : World) (key : Pubkey) (staker : StakerAccount) : World :=
  { w with stakers := Function.update w.stakers key (some staker) }

def putToken (w : World) (key : Pubkey) (holding : Holding) : World :=
  { w with tokens := Function.update w.tokens key (some holding) }

def putTokens (w : World) (tokens : Tokens) : World := { w with tokens := tokens }

def putLamports (w : World) (lamports : Lamports) : World := { w with lamports := lamports }

end World

/-- What a handler runs on besides its arguments and the accounts: the runtime, the
signatures of the transaction and the clock. -/
structure Env where
  rt : Runtime
  signers : List Pubkey
  now : I64

section Constraints
variable (env : Env)

/-- `Signer`. -/
def signer (key : Pubkey) : TxResult Unit :=
  ensure (env.signers.contains key = true) (.constraint .signer)

/-- `Account<Mint>`. -/
def loadMint (w : World) (key : Pubkey) : TxResult Unit :=
  ensure (w.mints key = true) (.constraint .account)

/-- `seeds = .., bump = ..` with the bump stored in the account. -/
def seedsMatch (seeds : Seeds) (bump : U8) (key : Pubkey) : TxResult Unit :=
  ensure (env.rt.create seeds bump = some key) (.constraint .seeds)

/-- `seeds = .., bump` with the bump searched for; the bump found is returned. -/
def seedsFound (seeds : Seeds) (key : Pubkey) : TxResult U8 :=
  match env.rt.find seeds with
  | some (found, bump) => if found = key then .ok bump else .error (.constraint .seeds)
  | none => .error (.constraint .seeds)

/-- An account the program creates: none may be there yet, and the payer pays its rent. -/
def createAccount (w : World) (payer : Pubkey) (seeds : Seeds) (key : Pubkey) :
    TxResult World := do
  ensure (w.vacant key = true) (.constraint .inUse)
  match env.rt.payRent w.lamports payer seeds key with
  | some lamports => .ok (w.putLamports lamports)
  | none => .error (.constraint .rent)

/-- `init, payer = payer` at a derived address. -/
def initAt (w : World) (payer : Pubkey) (seeds : Seeds) (key : Pubkey) :
    TxResult (U8 × World) := do
  let bump ← seedsFound env seeds key
  let w ← createAccount env w payer seeds key
  return (bump, w)

/-- `token::mint = mint, token::authority = authority` on a loaded token account. -/
def tokenMatches (holding : Holding) (mint authority : Pubkey) : TxResult Unit := do
  ensure (holding.owner = authority) (.constraint .tokenOwner)
  ensure (holding.mint = mint) (.constraint .tokenMint)

end Constraints

/-- An empty token account, as `init` with `token::mint` and `token::authority` makes it. -/
def Holding.opened (mint authority : Pubkey) : Holding :=
  { owner := authority, mint := mint, amount := 0, frozen := false
    delegate := none, delegatedAmount := 0 }

/-- `token::transfer`, its authority having signed. -/
def transferTokens (env : Env) (tokens : Tokens) (source dest authority : Pubkey)
    (amount : U64) : TxResult Tokens :=
  (env.rt.transfer tokens source dest authority amount).mapError .token

/-- A transfer the program signs for with the seeds of a pool. -/
def transferSigned (env : Env) (tokens : Tokens) (source dest authority : Pubkey)
    (stakeMint : Pubkey) (bump : U8) (amount : U64) : TxResult Tokens := do
  ensure (env.rt.create (.pool stakeMint) bump = some authority) (.token .missingSignature)
  transferTokens env tokens source dest authority amount

end MmStaking
