import Mathlib.Tactic
import Mathlib.Algebra.BigOperators.Group.Finset.Basic

/-! Accounts that hold an amount of some kind for an owner, and the moves between them. A
move takes from one account and adds to another of the same kind. Moves from the owners in one
set to the owners in another take nothing from anybody else and give nothing to anybody else. -/
namespace Custody

@[ext] structure Account (ω δ : Type*) where
  owner : ω
  kind : δ
  amount : ℕ

abbrev Accounts (κ ω δ : Type*) := κ → Option (Account ω δ)

variable {κ ω δ : Type*}

/-- The amount at a key; a key without an account holds nothing. -/
def balance (m : Accounts κ ω δ) (k : κ) : ℕ := ((m k).map Account.amount).getD 0

/-- What an account counts for among those whose owner and kind satisfy `c`. -/
def weight (c : ω → δ → Prop) [∀ o d, Decidable (c o d)] : Option (Account ω δ) → ℕ
  | some x => if c x.owner x.kind then x.amount else 0
  | none => 0

def Account.take (x : Account ω δ) (n : ℕ) : Account ω δ := { x with amount := x.amount - n }

def Account.add (x : Account ω δ) (n : ℕ) : Account ω δ := { x with amount := x.amount + n }

variable [DecidableEq κ]

/-- `n` moved out of the account `x` at `a` into the account `y` at `b`. -/
def moved (m : Accounts κ ω δ) (a b : κ) (x y : Account ω δ) (n : ℕ) : Accounts κ ω δ :=
  Function.update (Function.update m a (some (x.take n))) b (some (y.add n))

/-- Moves out of accounts of the owners in `A` into accounts of the owners in `B`. -/
inductive Moves (A B : Set ω) (m : Accounts κ ω δ) : Accounts κ ω δ → Prop
  | refl : Moves A B m m
  | move {m' a b x y n} : Moves A B m m' → m' a = some x → m' b = some y → a ≠ b →
      x.owner ∈ A → y.owner ∈ B → x.kind = y.kind → n ≤ x.amount →
      Moves A B m (moved m' a b x y n)

section Moved
variable {m : Accounts κ ω δ} {a b k : κ} {x y : Account ω δ} {n : ℕ}

theorem moved_source (hab : a ≠ b) : moved m a b x y n a = some (x.take n) := by
  rw [moved, Function.update_of_ne hab, Function.update_self]

theorem moved_dest : moved m a b x y n b = some (y.add n) := Function.update_self _ _ _

theorem moved_other (ha : k ≠ a) (hb : k ≠ b) : moved m a b x y n k = m k := by
  rw [moved, Function.update_of_ne hb, Function.update_of_ne ha]

end Moved

section Frame
variable {A B : Set ω} {m m' : Accounts κ ω δ} {k : κ} {z : Account ω δ}

/-- Whoever is in neither set of owners keeps its account as it is; whoever is not in the
first keeps at least what it had. -/
theorem Moves.account (h : Moves A B m m') (hz : m k = some z) :
    ∃ z', m' k = some z' ∧ z'.owner = z.owner ∧ z'.kind = z.kind ∧
      (z.owner ∉ A → z.amount ≤ z'.amount) ∧ (z.owner ∉ A → z.owner ∉ B → z' = z) := by
  induction h with
  | refl => exact ⟨z, hz, rfl, rfl, fun _ => le_rfl, fun _ _ => rfl⟩
  | @move m' a b x y n _ hx hy hab hxA hyB _ _ ih =>
      obtain ⟨z₁, hz₁, howner, hkind, hle, heq⟩ := ih
      by_cases hb : k = b
      · subst hb
        obtain rfl : y = z₁ := Option.some.inj (hy.symm.trans hz₁)
        refine ⟨_, moved_dest, howner, hkind, fun hA => (hle hA).trans (Nat.le_add_right _ _), ?_⟩
        intro _ hB
        exact absurd (howner ▸ hyB) hB
      · by_cases ha : k = a
        · subst ha
          obtain rfl : x = z₁ := Option.some.inj (hx.symm.trans hz₁)
          have hmem : z.owner ∈ A := howner ▸ hxA
          exact ⟨_, moved_source hb, howner, hkind, fun hA => absurd hmem hA,
            fun hA => absurd hmem hA⟩
        · exact ⟨z₁, (moved_other ha hb).trans hz₁, howner, hkind, hle, heq⟩

theorem Moves.account_le (h : Moves A B m m') (hz : m k = some z) (hB : z.owner ∉ B) :
    ∃ z', m' k = some z' ∧ z'.owner = z.owner ∧ z'.amount ≤ z.amount := by
  induction h with
  | refl => exact ⟨z, hz, rfl, le_rfl⟩
  | @move m' a b x y n _ hx hy hab hxA hyB _ _ ih =>
      obtain ⟨z₁, hz₁, howner, hle⟩ := ih
      have hb : k ≠ b := by
        rintro rfl
        obtain rfl : y = z₁ := Option.some.inj (hy.symm.trans hz₁)
        exact hB (howner ▸ hyB)
      by_cases ha : k = a
      · subst ha
        obtain rfl : x = z₁ := Option.some.inj (hx.symm.trans hz₁)
        exact ⟨_, moved_source hb, howner, (Nat.sub_le _ _).trans hle⟩
      · exact ⟨z₁, (moved_other ha hb).trans hz₁, howner, hle⟩

theorem Moves.trans {m'' : Accounts κ ω δ} (h : Moves A B m m') (h' : Moves A B m' m'') :
    Moves A B m m'' := by
  induction h' with
  | refl => exact h
  | move _ hx hy hab hxA hyB hkind hn ih => exact ih.move hx hy hab hxA hyB hkind hn

theorem Moves.mono {A' B' : Set ω} (h : Moves A B m m') (hA : A ⊆ A') (hB : B ⊆ B') :
    Moves A' B' m m' := by
  induction h with
  | refl => exact .refl
  | move _ hx hy hab hxA hyB hkind hn ih => exact ih.move hx hy hab (hA hxA) (hB hyB) hkind hn

theorem Moves.none (h : Moves A B m m') (hk : m k = none) : m' k = none := by
  induction h with
  | refl => exact hk
  | move _ hx hy _ _ _ _ _ ih =>
      rw [moved_other _ _]
      · exact ih
      · rintro rfl
        rw [hx] at ih
        cases ih
      · rintro rfl
        rw [hy] at ih
        cases ih

end Frame

section Held
variable [Fintype κ] (c : ω → δ → Prop) [∀ o d, Decidable (c o d)]

/-- All that is held by owners and of kinds that satisfy `c`. -/
def held (m : Accounts κ ω δ) : ℕ := ∑ k, weight c (m k)

theorem held_update (m : Accounts κ ω δ) (k : κ) (x : Option (Account ω δ)) :
    held c (Function.update m k x) + weight c (m k) = held c m + weight c x := by
  have hrest : ∑ j ∈ Finset.univ.erase k, weight c (Function.update m k x j) =
      ∑ j ∈ Finset.univ.erase k, weight c (m j) := by
    refine Finset.sum_congr rfl ?_
    intro j hj
    rw [Function.update_of_ne (Finset.ne_of_mem_erase hj)]
  have hnew := Finset.add_sum_erase Finset.univ (fun j => weight c (Function.update m k x j))
    (Finset.mem_univ k)
  have hold := Finset.add_sum_erase Finset.univ (fun j => weight c (m j)) (Finset.mem_univ k)
  simp only [Function.update_self] at hnew
  rw [held, held, ← hnew, ← hold, hrest]
  omega

variable {c}

omit [DecidableEq κ] [Fintype κ] in
theorem weight_take {x : Account ω δ} {n : ℕ} (hn : n ≤ x.amount) :
    weight c (some (x.take n)) + (if c x.owner x.kind then n else 0) = weight c (some x) := by
  by_cases h : c x.owner x.kind
  · simp [weight, Account.take, h, Nat.sub_add_cancel hn]
  · simp [weight, Account.take, h]

omit [DecidableEq κ] [Fintype κ] in
theorem weight_add (x : Account ω δ) (n : ℕ) :
    weight c (some (x.add n)) = weight c (some x) + if c x.owner x.kind then n else 0 := by
  by_cases h : c x.owner x.kind <;> simp [weight, Account.add, h]

/-- A move takes `n` from what `c` counts if it counts the source, and adds it if it counts
the destination. -/
theorem held_moved {m : Accounts κ ω δ} {a b : κ} {x y : Account ω δ} {n : ℕ} (hab : a ≠ b)
    (hx : m a = some x) (hy : m b = some y) (hn : n ≤ x.amount) :
    held c (moved m a b x y n) + (if c x.owner x.kind then n else 0) =
      held c m + if c y.owner y.kind then n else 0 := by
  have hsource := held_update c m a (some (x.take n))
  have hdest := held_update c (Function.update m a (some (x.take n))) b (some (y.add n))
  rw [hx] at hsource
  rw [Function.update_of_ne hab.symm, hy, weight_add] at hdest
  have htake := weight_take (c := c) hn
  rw [moved]
  omega

section Moves
variable {A B : Set ω} {m m' : Accounts κ ω δ}

theorem Moves.held_le (h : Moves A B m m') (hc : ∀ o ∈ A, ∀ d, ¬ c o d) :
    held c m ≤ held c m' := by
  induction h with
  | refl => exact le_rfl
  | move _ hx hy hab hxA _ _ hn ih =>
      have hmoved := held_moved (c := c) hab hx hy hn
      rw [if_neg (hc _ hxA _)] at hmoved
      omega

theorem Moves.held_ge (h : Moves A B m m') (hc : ∀ o ∈ B, ∀ d, ¬ c o d) :
    held c m' ≤ held c m := by
  induction h with
  | refl => exact le_rfl
  | move _ hx hy hab _ hyB _ hn ih =>
      have hmoved := held_moved (c := c) hab hx hy hn
      rw [if_neg (hc _ hyB _)] at hmoved
      omega

end Moves

end Held
end Custody
