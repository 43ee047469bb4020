import MmStaking.Refine.Flows
import MmStaking.Refine.Packed

/-! The vaults of a pool: one for the stakes and one for every occupied slot, each under a
key of its own. -/
namespace MmStaking
open Words Loops Runs Custody

inductive Vault
  | stake
  | reward (i : Slot)
  deriving DecidableEq

/-- Where a vault is kept, if the pool has it. -/
def Pool.vaultKey (pool : Pool) : Vault → Option Pubkey
  | .stake => some pool.stakeVault
  | .reward i => if pool.Registered i then some (pool.rewards i).vault else none

def Pool.vaultMint (pool : Pool) : Vault → Pubkey
  | .stake => pool.stakeMint
  | .reward i => (pool.rewards i).mint

def Pool.vaultSeeds (pool : Pool) (p : Pubkey) : Vault → Seeds
  | .stake => .stakeVault p
  | .reward i => .rewardVault p (pool.rewards i).mint

def Ledger.vault {ι : Type} (ledger : Ledger ι) : Vault → ℤ
  | .stake => ledger.stakeVault
  | .reward i => ledger.rewardVault i

section Vaults
variable {rt : Runtime} {tokens tokens' : Tokens} {p q key : Pubkey} {P Q : Pool} {x y : Vault}

theorem Pool.Placed.vault_account (h : P.Placed rt tokens p) (hx : P.vaultKey x = some key) :
    ∃ z, tokens key = some z ∧ z.owner = p ∧ z.mint = P.vaultMint x := by
  cases x with
  | stake =>
      cases hx
      exact h.vault_held
  | reward i =>
      rw [Pool.vaultKey, Option.ite_none_right_eq_some, Option.some.injEq] at hx
      obtain ⟨hi, rfl⟩ := hx
      exact h.reward_held i hi

theorem Pool.Placed.vault_derived (h : P.Placed rt tokens p) (hx : P.vaultKey x = some key) :
    ∃ bump, rt.find (P.vaultSeeds p x) = some (key, bump) := by
  cases x with
  | stake =>
      cases hx
      exact h.vault_found
  | reward i =>
      rw [Pool.vaultKey, Option.ite_none_right_eq_some, Option.some.injEq] at hx
      obtain ⟨hi, rfl⟩ := hx
      exact h.reward_found i hi

theorem Pool.Packed.vault_eq (hp : P.Packed) (hx : P.vaultKey x = some key)
    (hseeds : P.vaultSeeds p x = P.vaultSeeds p y) : x = y := by
  cases x with
  | stake =>
      cases y with
      | stake => rfl
      | reward j => cases hseeds
  | reward i =>
      cases y with
      | stake => cases hseeds
      | reward j =>
          rw [Pool.vaultKey, Option.ite_none_right_eq_some] at hx
          simp only [Pool.vaultSeeds, Seeds.rewardVault.injEq, true_and] at hseeds
          rw [hp.mint_inj i j hx.1 hseeds]

theorem Pool.Placed.vault_unique (h : P.Placed rt tokens p) (hp : P.Packed)
    (hx : P.vaultKey x = some key) (hy : P.vaultKey y = some key) : x = y := by
  obtain ⟨bump, hfound⟩ := h.vault_derived hx
  obtain ⟨bump', hfound'⟩ := h.vault_derived hy
  exact hp.vault_eq hx
    (rt.injective (Pda.create_of_find hfound) (Pda.create_of_find hfound'))

theorem Pool.Placed.vault_key_iff (h : P.Placed rt tokens p) (hp : P.Packed) {k : Pubkey}
    (hx : P.vaultKey x = some k) (hy : P.vaultKey y = some key) : k = key ↔ x = y := by
  constructor
  · rintro rfl
    exact h.vault_unique hp hx hy
  · rintro rfl
    exact Option.some.inj (hx.symm.trans hy)

theorem Pool.Placed.vault_apart (h : P.Placed rt tokens p) (h' : Q.Placed rt tokens q)
    (hx : P.vaultKey x = some key) (hy : Q.vaultKey y = some key) : p = q := by
  obtain ⟨z, hz, howner, -⟩ := h.vault_account hx
  obtain ⟨z', hz', howner', -⟩ := h'.vault_account hy
  rw [hz, Option.some.injEq] at hz'
  rw [← howner, hz', howner']

theorem Pool.vaultKey_of_anchor (h : Q.anchor = P.anchor) (x : Vault) :
    Q.vaultKey x = P.vaultKey x := by
  cases x with
  | stake => exact congrArg some (congrArg (fun a => a.2.1) h)
  | reward i =>
      have hvault : (Q.rewards i).vault = (P.rewards i).vault :=
        congrArg Prod.snd (congrFun (congrArg (fun a => a.2.2.2) h) i)
      simp only [Pool.vaultKey, Pool.registered_of_anchor h, hvault]

theorem Pool.vaultKey_of_slot {i : Slot} (h : Q.rewards i = P.rewards i) :
    Q.vaultKey (.reward i) = P.vaultKey (.reward i) := by
  have hreg : Q.Registered i ↔ P.Registered i := by rw [Pool.Registered, Pool.Registered, h]
  simp only [Pool.vaultKey, hreg, h]

theorem Pool.Placed.unsignable (h : P.Placed rt tokens p) {u : Pubkey}
    (hu : rt.signable u = true) : u ≠ p := by
  rintro rfl
  rw [rt.unsignable (Pda.create_of_find h.found)] at hu
  cases hu

theorem Pool.Placed.not_held (h : P.Placed rt tokens p) {t vault u : Pubkey} {x z : Holding}
    (ht : tokens t = some x) (hxo : x.owner = u) (hu : rt.signable u = true)
    (hz : tokens vault = some z) (hzo : z.owner = p) : t ≠ vault := by
  intro hsame
  rw [hsame, hz, Option.some.injEq] at ht
  refine h.unsignable hu ?_
  rw [← hxo, ← ht, hzo]

section Transfer
variable {token : TokenProgram} {user authority : Pubkey} {u : Holding} {amount : U64}

theorem Pool.Placed.vault_ne_user (h : P.Placed rt tokens p) (hu : tokens user = some u)
    (hne : u.owner ≠ p) {k : Pubkey} (hx : P.vaultKey x = some k) : k ≠ user := by
  rintro rfl
  obtain ⟨w, hw, hwo, -⟩ := h.vault_account hx
  rw [hu, Option.some.injEq] at hw
  rw [hw] at hne
  exact hne hwo

theorem Pool.Placed.paid (h : P.Placed rt tokens p) (hp : P.Packed)
    (hy : P.vaultKey y = some key) (hu : tokens user = some u) (hne : u.owner ≠ p)
    (ht : token.transfer tokens user key authority amount = .ok tokens') {k : Pubkey}
    (hx : P.vaultKey x = some k) : (balance (custody tokens') k : ℤ) =
      balance (custody tokens) k + if x = y then (amount.val : ℤ) else 0 := by
  obtain ⟨v, hv, -⟩ := h.vault_account hy
  have hother := fun {z k} => h.vault_ne_user (x := z) (k := k) hu hne
  have hdist := (hother hy).symm
  obtain ⟨-, hle, hmoved⟩ := transfer_moved ht hu hv hdist
  rw [hmoved, balance_moved hdist (custody_eq_some hu) (custody_eq_some hv) hle,
    if_neg (hother hx), sub_zero]
  simp only [h.vault_key_iff hp hx hy]

theorem Pool.Placed.pays (h : P.Placed rt tokens p) (hp : P.Packed)
    (hy : P.vaultKey y = some key) (hu : tokens user = some u) (hne : u.owner ≠ p)
    (ht : token.transfer tokens key user authority amount = .ok tokens') {k : Pubkey}
    (hx : P.vaultKey x = some k) : (balance (custody tokens') k : ℤ) =
      balance (custody tokens) k - if x = y then (amount.val : ℤ) else 0 := by
  obtain ⟨v, hv, -⟩ := h.vault_account hy
  have hother := fun {z k} => h.vault_ne_user (x := z) (k := k) hu hne
  have hdist := hother hy
  obtain ⟨-, hle, hmoved⟩ := transfer_moved ht hv hu hdist
  rw [hmoved, balance_moved hdist (custody_eq_some hv) (custody_eq_some hu) hle,
    if_neg (hother hx), add_zero]
  simp only [h.vault_key_iff hp hx hy]

end Transfer
end Vaults

/-- The vault of the pool at `p`. -/
def World.vaultKey (w : World) (p : Pubkey) (x : Vault) : Option Pubkey :=
  (w.pools p).bind fun pool => pool.vaultKey x

/-- What a vault of the pool at `p` holds; one that is not there holds nothing. -/
def World.vaultBalance (w : World) (p : Pubkey) (x : Vault) : ℕ :=
  match w.vaultKey p x with
  | some key => balance (custody w.tokens) key
  | none => 0

/-- What a vault is given from outside the program. -/
def World.gift (p : Pubkey) (x : Vault) (w : World) : Event → ℤ
  | .tx _ => 0
  | .outside after =>
      match w.vaultKey p x with
      | some key => balance (custody after.tokens) key - balance (custody w.tokens) key
      | none => 0

section Balance
variable {rt : Runtime} {w w' : World} {p key : Pubkey} {x : Vault}

theorem vaultBalance_of_key (h : w.vaultKey p x = some key) :
    w.vaultBalance p x = balance (custody w.tokens) key := by
  rw [World.vaultBalance, h]

theorem vaultBalance_of_none (h : w.vaultKey p x = none) : w.vaultBalance p x = 0 := by
  rw [World.vaultBalance, h]

theorem vaultBalance_stake {P : Pool} {z : Holding} (hP : w.pools p = some P)
    (hz : w.tokens P.stakeVault = some z) : w.vaultBalance p .stake = z.amount.val := by
  have hkey : w.vaultKey p .stake = some P.stakeVault := by
    rw [World.vaultKey, hP]
    rfl
  rw [vaultBalance_of_key hkey, balance_eq hz]

theorem vaultBalance_reward {P : Pool} {i : Slot} {z : Holding} (hP : w.pools p = some P)
    (hi : P.Registered i) (hz : w.tokens (P.rewards i).vault = some z) :
    w.vaultBalance p (.reward i) = z.amount.val := by
  have hkey : w.vaultKey p (.reward i) = some (P.rewards i).vault := by
    rw [World.vaultKey, hP]
    exact if_pos hi
  rw [vaultBalance_of_key hkey, balance_eq hz]

theorem vaultBalance_outside (h : w.Outside rt w') :
    (w'.vaultBalance p x : ℤ) = w.vaultBalance p x + w.gift p x (.outside w') := by
  have hkey : w'.vaultKey p x = w.vaultKey p x := by
    rw [World.vaultKey, World.vaultKey, h.pools_eq]
  unfold World.vaultBalance World.gift
  rw [hkey]
  cases w.vaultKey p x with
  | none => rfl
  | some key =>
      dsimp only
      omega

theorem vaultBalance_congr (hkey : w'.vaultKey p x = w.vaultKey p x)
    (h : ∀ key, w.vaultKey p x = some key →
      balance (custody w'.tokens) key = balance (custody w.tokens) key) :
    w'.vaultBalance p x = w.vaultBalance p x := by
  unfold World.vaultBalance
  rw [hkey]
  cases hk : w.vaultKey p x with
  | none => rfl
  | some key => exact h key hk

end Balance
end MmStaking
