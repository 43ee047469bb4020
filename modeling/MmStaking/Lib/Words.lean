import Mathlib.Tactic

/-! Fixed-width integers with checked arithmetic. A value carries the proof that
it fits its width, so an operation that leaves the width has no result to give:
the checked operations return `none` there. -/
namespace Words

/-- An unsigned machine word of `w` bits. -/
@[ext] structure Unsigned (w : ℕ) where
  val : ℕ
  isLt : val < 2 ^ w
  deriving DecidableEq

/-- A two's complement machine word of `w` bits. -/
@[ext] structure Signed (w : ℕ) where
  val : ℤ
  lower : -(2 ^ (w - 1)) ≤ val
  upper : val < 2 ^ (w - 1)
  deriving DecidableEq

namespace Unsigned
variable {w w' : ℕ}

instance : Zero (Unsigned w) := ⟨⟨0, Nat.two_pow_pos w⟩⟩

/-- Literals, reduced modulo the range. -/
instance {n : ℕ} : OfNat (Unsigned w) (n + 1) :=
  ⟨⟨(n + 1) % 2 ^ w, Nat.mod_lt _ (Nat.two_pow_pos w)⟩⟩

@[simp] theorem val_zero : (0 : Unsigned w).val = 0 := rfl

/-- The word holding `n`, when `n` fits. -/
def ofNat? (w n : ℕ) : Option (Unsigned w) :=
  if h : n < 2 ^ w then some ⟨n, h⟩ else none

/-- The conversion written `as`: it keeps the low bits. -/
def cast (w' : ℕ) (a : Unsigned w) : Unsigned w' :=
  ⟨a.val % 2 ^ w', Nat.mod_lt _ (Nat.two_pow_pos w')⟩

def tryFrom (w' : ℕ) (a : Unsigned w) : Option (Unsigned w') := ofNat? w' a.val

def checkedAdd (a b : Unsigned w) : Option (Unsigned w) := ofNat? w (a.val + b.val)

def checkedMul (a b : Unsigned w) : Option (Unsigned w) := ofNat? w (a.val * b.val)

def checkedSub (a b : Unsigned w) : Option (Unsigned w) :=
  if b.val ≤ a.val then ofNat? w (a.val - b.val) else none

def checkedDiv (a b : Unsigned w) : Option (Unsigned w) :=
  if b.val = 0 then none else ofNat? w (a.val / b.val)

def saturatingSub (a b : Unsigned w) : Unsigned w :=
  ⟨a.val - b.val, lt_of_le_of_lt (Nat.sub_le _ _) a.isLt⟩

theorem ofNat?_eq_some_iff {n : ℕ} {c : Unsigned w} : ofNat? w n = some c ↔ c.val = n := by
  unfold ofNat?
  split
  · rename_i h
    rw [Option.some.injEq, Unsigned.ext_iff]
    exact eq_comm
  · rename_i h
    simp only [reduceCtorEq, false_iff]
    intro hc
    exact h (hc ▸ c.isLt)

@[simp] theorem checkedAdd_eq_some_iff {a b c : Unsigned w} :
    a.checkedAdd b = some c ↔ c.val = a.val + b.val := ofNat?_eq_some_iff

@[simp] theorem checkedMul_eq_some_iff {a b c : Unsigned w} :
    a.checkedMul b = some c ↔ c.val = a.val * b.val := ofNat?_eq_some_iff

@[simp] theorem checkedSub_eq_some_iff {a b c : Unsigned w} :
    a.checkedSub b = some c ↔ b.val ≤ a.val ∧ c.val = a.val - b.val := by
  unfold checkedSub
  split <;> simp_all [ofNat?_eq_some_iff]

@[simp] theorem checkedDiv_eq_some_iff {a b c : Unsigned w} :
    a.checkedDiv b = some c ↔ b.val ≠ 0 ∧ c.val = a.val / b.val := by
  unfold checkedDiv
  split <;> simp_all [ofNat?_eq_some_iff]

@[simp] theorem tryFrom_eq_some_iff {a : Unsigned w} {c : Unsigned w'} :
    a.tryFrom w' = some c ↔ c.val = a.val := ofNat?_eq_some_iff

@[simp] theorem val_saturatingSub (a b : Unsigned w) :
    (a.saturatingSub b).val = a.val - b.val := rfl

theorem val_cast (h : w ≤ w') (a : Unsigned w) : (a.cast w').val = a.val :=
  Nat.mod_eq_of_lt (a.isLt.trans_le (Nat.pow_le_pow_right (by decide) h))

theorem exists_val {n : ℕ} (h : n < 2 ^ w) : ∃ c : Unsigned w, c.val = n := ⟨⟨n, h⟩, rfl⟩

end Unsigned

namespace Signed
variable {w : ℕ}

instance : Zero (Signed w) := ⟨⟨0, by simp, by positivity⟩⟩

/-- Literals, reduced into the nonnegative half of the range. -/
instance {n : ℕ} : OfNat (Signed w) (n + 1) :=
  ⟨⟨((n + 1) % 2 ^ (w - 1) : ℕ), by
    have hp : (0 : ℤ) ≤ 2 ^ (w - 1) := by positivity
    omega, by
    exact_mod_cast Nat.mod_lt _ (Nat.two_pow_pos (w - 1))⟩⟩

@[simp] theorem val_zero : (0 : Signed w).val = 0 := rfl

/-- The word holding `z`, when `z` fits. -/
def ofInt? (w : ℕ) (z : ℤ) : Option (Signed w) :=
  if h : -(2 ^ (w - 1)) ≤ z ∧ z < 2 ^ (w - 1) then some ⟨z, h.1, h.2⟩ else none

def checkedAdd (a b : Signed w) : Option (Signed w) := ofInt? w (a.val + b.val)

def checkedSub (a b : Signed w) : Option (Signed w) := ofInt? w (a.val - b.val)

/-- The conversion written `as` into an unsigned type: residue modulo its range. -/
def toUnsigned (w' : ℕ) (a : Signed w) : Unsigned w' :=
  ⟨(a.val % 2 ^ w').toNat, by
    have hp : (0 : ℤ) < 2 ^ w' := by positivity
    have hlt := Int.emod_lt_of_pos a.val hp
    have hnn := Int.emod_nonneg a.val hp.ne'
    zify
    rwa [Int.toNat_of_nonneg hnn]⟩

protected def min (a b : Signed w) : Signed w := if a.val ≤ b.val then a else b

theorem ofInt?_eq_some_iff {z : ℤ} {c : Signed w} : ofInt? w z = some c ↔ c.val = z := by
  unfold ofInt?
  split
  · rename_i h
    rw [Option.some.injEq, Signed.ext_iff]
    exact eq_comm
  · rename_i h
    simp only [reduceCtorEq, false_iff]
    intro hc
    exact h (hc ▸ ⟨c.lower, c.upper⟩)

@[simp] theorem checkedAdd_eq_some_iff {a b c : Signed w} :
    a.checkedAdd b = some c ↔ c.val = a.val + b.val := ofInt?_eq_some_iff

@[simp] theorem checkedSub_eq_some_iff {a b c : Signed w} :
    a.checkedSub b = some c ↔ c.val = a.val - b.val := ofInt?_eq_some_iff

@[simp] theorem val_min (a b : Signed w) : (a.min b).val = min a.val b.val := by
  unfold Signed.min
  split <;> omega

theorem val_toUnsigned {w' : ℕ} (h : w ≤ w' + 1) {a : Signed w} (ha : 0 ≤ a.val) :
    (a.toUnsigned w').val = a.val.toNat := by
  have hlt : a.val < 2 ^ w' :=
    a.upper.trans_le (pow_le_pow_right₀ (by decide) (by omega))
  change (a.val % 2 ^ w').toNat = a.val.toNat
  rw [Int.emod_eq_of_lt ha hlt]

theorem exists_val {z : ℤ} (hl : -(2 ^ (w - 1)) ≤ z) (hu : z < 2 ^ (w - 1)) :
    ∃ c : Signed w, c.val = z := ⟨⟨z, hl, hu⟩, rfl⟩

end Signed
end Words
