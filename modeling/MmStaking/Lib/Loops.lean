import Mathlib.Tactic
import Mathlib.Data.List.FinRange

/-! Early-exit loops over a fixed array. The body may fail at one index, and the
first failure ends the loop; a body that touches only its own index makes the
loop succeed exactly when every index succeeds, whatever the visiting order. -/
namespace Loops
universe u

section Except
variable {ε : Type*} {α β : Type u}

@[simp] theorem bind_eq_ok_iff {x : Except ε α} {f : α → Except ε β} {b : β} :
    (x >>= f) = .ok b ↔ ∃ a, x = .ok a ∧ f a = .ok b := by
  cases x with
  | error e => simp [bind, Except.bind]
  | ok a => simp [bind, Except.bind]

theorem bind_eq_error_iff {x : Except ε α} {f : α → Except ε β} {e : ε} :
    (x >>= f) = .error e ↔ x = .error e ∨ ∃ a, x = .ok a ∧ f a = .error e := by
  cases x with
  | error e => simp [bind, Except.bind]
  | ok a => simp [bind, Except.bind]

@[simp] theorem pure_eq_ok_iff {a b : α} : (pure a : Except ε α) = .ok b ↔ a = b := by
  simp [pure, Except.pure]

@[simp] theorem pure_ne_error {a : α} {e : ε} : (pure a : Except ε α) ≠ .error e := by
  simp [pure, Except.pure]

end Except

/-- What every turn of a loop over a list keeps, the loop keeps. -/
theorem foldlM_invariant {ε σ β : Type*} {f : σ → β → Except ε σ} {I : σ → Prop} {l : List β}
    {s s' : σ} (h0 : I s) (hstep : ∀ s b s', I s → f s b = .ok s' → I s')
    (h : l.foldlM f s = .ok s') : I s' := by
  induction l generalizing s with
  | nil =>
      rw [List.foldlM_nil, pure_eq_ok_iff] at h
      exact h ▸ h0
  | cons b l ih =>
      rw [List.foldlM_cons, bind_eq_ok_iff] at h
      obtain ⟨s₁, hs₁, h⟩ := h
      exact ih (hstep s b s₁ h0 hs₁) h

theorem foldlM_error {ε σ β : Type*} {f : σ → β → Except ε σ} {l : List β} {s : σ} {e : ε}
    (h : l.foldlM f s = .error e) : ∃ s b, f s b = .error e := by
  induction l generalizing s with
  | nil => exact absurd h pure_ne_error
  | cons b l ih =>
      rw [List.foldlM_cons, bind_eq_error_iff] at h
      rcases h with h | ⟨s₁, -, h⟩
      · exact ⟨s, b, h⟩
      · exact ih h

variable {ε α : Type*} {n : ℕ}

/-- Run `f` at the indices of `l` in turn, each in place on its own element. -/
def updateAlong (f : Fin n → α → Except ε α) (l : List (Fin n)) (xs : Fin n → α) :
    Except ε (Fin n → α) :=
  l.foldlM (fun xs i => do
    let x ← f i (xs i)
    return Function.update xs i x) xs

/-- The loop `for i in 0..n`. -/
def updateEach (f : Fin n → α → Except ε α) (xs : Fin n → α) : Except ε (Fin n → α) :=
  updateAlong f (List.finRange n) xs

theorem updateAlong_cons (f : Fin n → α → Except ε α) (i : Fin n) (l : List (Fin n))
    (xs : Fin n → α) : updateAlong f (i :: l) xs =
      f i (xs i) >>= fun x => updateAlong f l (Function.update xs i x) := by
  simp only [updateAlong, List.foldlM_cons, bind_assoc, pure_bind]

theorem updateAlong_eq_ok_iff {f : Fin n → α → Except ε α} {l : List (Fin n)} (hl : l.Nodup)
    {xs ys : Fin n → α} : updateAlong f l xs = .ok ys ↔
      (∀ i ∈ l, f i (xs i) = .ok (ys i)) ∧ ∀ i ∉ l, ys i = xs i := by
  induction l generalizing xs with
  | nil =>
      rw [updateAlong, List.foldlM_nil, pure_eq_ok_iff, funext_iff]
      simp [eq_comm]
  | cons j l ih =>
      obtain ⟨hj, hl⟩ := List.nodup_cons.mp hl
      rw [updateAlong_cons, bind_eq_ok_iff]
      constructor
      · rintro ⟨x, hx, hrest⟩
        obtain ⟨hin, hout⟩ := (ih hl).mp hrest
        have hyj : ys j = x := by simpa using hout j hj
        refine ⟨?_, ?_⟩
        · intro i hi
          rcases List.mem_cons.mp hi with rfl | hi
          · rw [hyj, hx]
          · have hne : i ≠ j := fun h => hj (h ▸ hi)
            simpa [hne] using hin i hi
        · intro i hi
          obtain ⟨hne, hi⟩ := not_or.mp (mt List.mem_cons.mpr hi)
          simpa [hne] using hout i hi
      · rintro ⟨hin, hout⟩
        refine ⟨ys j, hin j List.mem_cons_self, (ih hl).mpr ⟨?_, ?_⟩⟩
        · intro i hi
          have hne : i ≠ j := fun h => hj (h ▸ hi)
          simpa [hne] using hin i (List.mem_cons_of_mem j hi)
        · intro i hi
          by_cases hne : i = j
          · subst hne
            simp
          · simpa [hne] using hout i (by simp [hne, hi])

/-- The loop succeeds exactly when every index does, and acts index by index. -/
theorem updateEach_eq_ok_iff {f : Fin n → α → Except ε α} {xs ys : Fin n → α} :
    updateEach f xs = .ok ys ↔ ∀ i, f i (xs i) = .ok (ys i) := by
  simp [updateEach, updateAlong_eq_ok_iff (List.nodup_finRange n)]

theorem updateAlong_error {f : Fin n → α → Except ε α} {l : List (Fin n)} (hl : l.Nodup)
    {xs : Fin n → α} {e : ε} (h : updateAlong f l xs = .error e) :
    ∃ i ∈ l, f i (xs i) = .error e := by
  induction l generalizing xs with
  | nil => simp [updateAlong] at h
  | cons j l ih =>
      obtain ⟨hj, hl⟩ := List.nodup_cons.mp hl
      rw [updateAlong_cons, bind_eq_error_iff] at h
      rcases h with h | ⟨x, -, h⟩
      · exact ⟨j, List.mem_cons_self, h⟩
      · obtain ⟨i, hi, he⟩ := ih hl h
        have hne : i ≠ j := fun h => hj (h ▸ hi)
        exact ⟨i, List.mem_cons_of_mem j hi, by simpa [hne] using he⟩

theorem updateEach_error {f : Fin n → α → Except ε α} {xs : Fin n → α} {e : ε}
    (h : updateEach f xs = .error e) : ∃ i, f i (xs i) = .error e := by
  obtain ⟨i, -, hi⟩ := updateAlong_error (List.nodup_finRange n) h
  exact ⟨i, hi⟩

end Loops
