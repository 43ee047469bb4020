import Mathlib.Tactic
import Mathlib.Algebra.BigOperators.Group.List.Basic
import Mathlib.Algebra.Order.BigOperators.Group.List

/-! Runs of a labelled transition relation, with the history of the states the
labels were taken in. Invariants are carried along a run, and a quantity that
grows at a step by at most the cost of the step grows along the run by at most
the cost of the history. -/
namespace Runs

variable {σ α : Type*}

/-- A run from `start`: its history in order, and the state it ends in. -/
inductive Run (Step : σ → α → σ → Prop) (start : σ) : List (σ × α) → σ → Prop
  | refl : Run Step start [] start
  | tail {h s a s'} : Run Step start h s → Step s a s' → Run Step start (h ++ [(s, a)]) s'

variable {Step : σ → α → σ → Prop} {start s s' : σ} {h h' : List (σ × α)}

theorem Run.trans (r : Run Step start h s) (r' : Run Step s h' s') :
    Run Step start (h ++ h') s' := by
  induction r' with
  | refl => simpa using r
  | tail _ hstep ih => simpa only [List.append_assoc] using ih.tail hstep

theorem Run.head {a : α} (hstep : Step start a s) (r : Run Step s h s') :
    Run Step start ((start, a) :: h) s' :=
  (Run.refl.tail hstep).trans r

theorem Run.relabel {β : Type*} {Step' : σ → β → σ → Prop} {f : α → β} (r : Run Step start h s)
    (hf : ∀ s a s', Step s a s' → Step' s (f a) s') :
    Run Step' start (h.map fun e => (e.1, f e.2)) s := by
  induction r with
  | refl => exact .refl
  | tail _ hstep ih =>
      rw [List.map_append]
      exact ih.tail (hf _ _ _ hstep)

/-- What one step preserves, a run preserves. -/
theorem Run.invariant {I : σ → Prop} (r : Run Step start h s) (h0 : I start)
    (hstep : ∀ s a s', I s → Step s a s' → I s') : I s := by
  induction r with
  | refl => exact h0
  | tail _ hs ih => exact hstep _ _ _ ih hs

/-- What the steps with admitted labels preserve, a run of such labels preserves. -/
theorem Run.guarded_invariant {I : σ → Prop} {G : σ → α → Prop} (r : Run Step start h s)
    (h0 : I start) (hG : ∀ e ∈ h, G e.1 e.2)
    (hstep : ∀ s a s', I s → G s a → Step s a s' → I s') : I s := by
  induction r with
  | refl => exact h0
  | @tail h s a s' r hs ih =>
      have hprev := ih fun e he => hG e (List.mem_append_left _ he)
      exact hstep _ _ _ hprev (hG (s, a) (by simp)) hs

theorem Run.history_invariant {I : σ → Prop} (r : Run Step start h s) (h0 : I start)
    (hstep : ∀ s a s', I s → Step s a s' → I s') : ∀ e ∈ h, I e.1 := by
  induction r with
  | refl => simp
  | tail r hs ih =>
      intro e he
      rcases List.mem_append.mp he with he | he
      · exact ih e he
      · rw [List.mem_singleton.mp he]
        exact r.invariant h0 hstep

/-- Each entry of the history is a step, after the run that led to it. -/
theorem Run.before (r : Run Step start h s) {e : σ × α} (he : e ∈ h) :
    ∃ h₁ h₂ t, h = h₁ ++ e :: h₂ ∧ Run Step start h₁ e.1 ∧ Step e.1 e.2 t := by
  induction r with
  | refl => cases he
  | @tail h s a s' r hs ih =>
      rcases List.mem_append.mp he with he | he
      · obtain ⟨h₁, h₂, t, rfl, r₁, ht⟩ := ih he
        exact ⟨h₁, h₂ ++ [(s, a)], t, by rw [List.append_assoc, List.cons_append], r₁, ht⟩
      · obtain rfl := List.mem_singleton.mp he
        exact ⟨h, [], s', rfl, r, hs⟩

/-- Steps that are ready, and stay ready or done whichever other is made, can be made one after
another in any order. -/
theorem exists_run {ι : Type*} {I : σ → Prop} {Ready Done : σ → ι → Prop} {label : ι → α}
    (hstep : ∀ s i, I s → Ready s i → ∃ s', Step s (label i) s' ∧ I s' ∧ Done s' i ∧
      ∀ j, j ≠ i → (Ready s j → Ready s' j) ∧ (Done s j → Done s' j))
    {l : List ι} (hnodup : l.Nodup) (hI : I s) (hready : ∀ i ∈ l, Ready s i) :
    ∃ h s', Run Step s h s' ∧ h.map Prod.snd = l.map label ∧ I s' ∧ (∀ i ∈ l, Done s' i) ∧
      ∀ j, j ∉ l → Done s j → Done s' j := by
  induction l generalizing s with
  | nil => exact ⟨[], s, .refl, rfl, hI, by simp, fun _ _ hdone => hdone⟩
  | cons i l ih =>
      obtain ⟨hi, hnodup⟩ := List.nodup_cons.mp hnodup
      obtain ⟨t, hs, ht, hdone, hothers⟩ := hstep s i hI (hready i List.mem_cons_self)
      have hne : ∀ j ∈ l, j ≠ i := by
        rintro j hj rfl
        exact hi hj
      obtain ⟨h, s', r, hlabels, hI', hall, hkept⟩ := ih hnodup ht fun j hj =>
        (hothers j (hne j hj)).1 (hready j (List.mem_cons_of_mem i hj))
      refine ⟨(s, label i) :: h, s', r.head hs, ?_, hI', ?_, ?_⟩
      · rw [List.map_cons, List.map_cons, hlabels]
      · intro j hj
        rcases List.mem_cons.mp hj with rfl | hj
        · exact hkept j hi hdone
        · exact hall j hj
      · intro j hj hbefore
        have hji : j ≠ i := fun hji => hj (hji ▸ List.mem_cons_self)
        have hjl : j ∉ l := fun hjl => hj (List.mem_cons_of_mem i hjl)
        exact hkept j hjl ((hothers j hji).2 hbefore)

def cost {M : Type*} [AddMonoid M] (c : σ → α → M) (h : List (σ × α)) : M :=
  (h.map fun e => c e.1 e.2).sum

section Cost
variable {M : Type*} [AddMonoid M] (c : σ → α → M)

@[simp] theorem cost_nil : cost c [] = 0 := rfl

@[simp] theorem cost_snoc (h : List (σ × α)) (s : σ) (a : α) :
    cost c (h ++ [(s, a)]) = cost c h + c s a := by
  simp [cost]

theorem cost_append (h h' : List (σ × α)) : cost c (h ++ h') = cost c h + cost c h' := by
  simp [cost]

theorem cost_congr {c c' : σ → α → M} {h : List (σ × α)}
    (hc : ∀ e ∈ h, c e.1 e.2 = c' e.1 e.2) : cost c h = cost c' h :=
  congrArg List.sum (List.map_congr_left hc)

theorem cost_sub {G : Type*} [AddCommGroup G] (c c' : σ → α → G) (h : List (σ × α)) :
    cost (fun s a => c s a - c' s a) h = cost c h - cost c' h := by
  induction h with
  | nil => simp
  | cons e h ih =>
      simp only [cost, List.map_cons, List.sum_cons] at ih ⊢
      rw [ih]
      abel

end Cost

/-- The potential argument: with an invariant in force and every label of the
history admitted, the potential grows by at most the cost of the history. -/
theorem Run.potential_le {M : Type*} [AddCommMonoid M] [PartialOrder M] [IsOrderedAddMonoid M]
    {I : σ → Prop} {G : σ → α → Prop} {φ : σ → M} {c : σ → α → M}
    (r : Run Step start h s) (h0 : I start)
    (hstep : ∀ s a s', I s → Step s a s' → I s') (hG : ∀ e ∈ h, G e.1 e.2)
    (hφ : ∀ s a s', I s → G s a → Step s a s' → φ s' ≤ φ s + c s a) :
    φ s ≤ φ start + cost c h := by
  induction r with
  | refl => simp
  | @tail h s a s' r hs ih =>
      have hprev := ih fun e he => hG e (List.mem_append_left _ he)
      have hga : G s a := hG (s, a) (by simp)
      calc φ s' ≤ φ s + c s a := hφ s a s' (r.invariant h0 hstep) hga hs
        _ ≤ (φ start + cost c h) + c s a := add_le_add_left hprev _
        _ = φ start + cost c (h ++ [(s, a)]) := by rw [cost_snoc, add_assoc]

/-- Replay a list of labels through an executable step, keeping the history. -/
def replay {ε : Type*} (step : σ → α → Except ε σ) :
    σ → List α → Except ε (List (σ × α) × σ)
  | s, [] => .ok ([], s)
  | s, a :: l =>
      match step s a with
      | .error e => .error e
      | .ok s' => (replay step s' l).map fun r => ((s, a) :: r.1, r.2)

/-- A successful replay is a run of any relation the step function implements. -/
theorem replay_run {ε : Type*} {step : σ → α → Except ε σ}
    (himp : ∀ s a s', step s a = .ok s' → Step s a s') {l : List α}
    (hr : replay step start l = .ok (h, s)) : Run Step start h s := by
  induction l generalizing start h with
  | nil =>
      simp only [replay, Except.ok.injEq, Prod.mk.injEq] at hr
      obtain ⟨rfl, rfl⟩ := hr
      exact .refl
  | cons a l ih =>
      simp only [replay] at hr
      cases hs : step start a with
      | error e => simp [hs] at hr
      | ok s' =>
          cases hl : replay step s' l with
          | error e => simp [hs, hl, Except.map] at hr
          | ok r =>
              simp only [hs, hl, Except.map, Except.ok.injEq, Prod.mk.injEq] at hr
              obtain ⟨rfl, rfl⟩ := hr
              exact Run.head (himp _ _ _ hs) (ih hl)

theorem replay_labels {ε : Type*} {step : σ → α → Except ε σ} {l : List α}
    (hr : replay step start l = .ok (h, s)) : h.map Prod.snd = l := by
  induction l generalizing start h with
  | nil =>
      simp only [replay, Except.ok.injEq, Prod.mk.injEq] at hr
      rw [← hr.1]
      rfl
  | cons a l ih =>
      simp only [replay] at hr
      cases hs : step start a with
      | error e => simp [hs] at hr
      | ok s' =>
          cases hl : replay step s' l with
          | error e => simp [hs, hl, Except.map] at hr
          | ok r =>
              simp only [hs, hl, Except.map, Except.ok.injEq, Prod.mk.injEq] at hr
              obtain ⟨rfl, rfl⟩ := hr
              rw [List.map_cons, ih hl]

/-- `l'` is `l` with each label replaced by a block of labels. -/
inductive Expands {β : Type*} (B : α → List β → Prop) : List α → List β → Prop
  | nil : Expands B [] []
  | snoc {l l' a block} : Expands B l l' → B a block → Expands B (l ++ [a]) (l' ++ block)

theorem Expands.of_nil {β : Type*} {B : α → List β → Prop} {l' : List β}
    (h : Expands B [] l') : l' = [] := by
  generalize hl : ([] : List α) = l at h
  cases h with
  | nil => rfl
  | snoc _ _ => simp at hl

theorem Expands.of_snoc {β : Type*} {B : α → List β → Prop} {l : List α} {a : α} {l' : List β}
    (h : Expands B (l ++ [a]) l') : ∃ l₁ block, l' = l₁ ++ block ∧ Expands B l l₁ ∧ B a block := by
  generalize hl : l ++ [a] = l₂ at h
  cases h with
  | nil => simp at hl
  | snoc h hb =>
      obtain ⟨rfl, hone⟩ := List.append_inj' hl rfl
      cases hone
      exact ⟨_, _, rfl, h, hb⟩

theorem Run.nil_labels (r : Run Step start h s) (hl : h.map Prod.snd = []) : s = start := by
  cases r with
  | refl => rfl
  | tail _ _ => simp at hl

theorem Run.append_labels {l l' : List α} (r : Run Step start h s)
    (hl : h.map Prod.snd = l ++ l') : ∃ h₁ m h₂, Run Step start h₁ m ∧ Run Step m h₂ s ∧
      h₁.map Prod.snd = l ∧ h₂.map Prod.snd = l' := by
  induction r generalizing l' with
  | refl =>
      obtain ⟨rfl, rfl⟩ := List.append_eq_nil_iff.mp hl.symm
      exact ⟨[], start, [], .refl, .refl, rfl, rfl⟩
  | @tail h s a s' r hs ih =>
      rcases List.eq_nil_or_concat l' with rfl | ⟨l₂, b, rfl⟩
      · rw [List.append_nil] at hl
        exact ⟨_, s', [], r.tail hs, .refl, hl, rfl⟩
      · rw [List.map_append, List.concat_eq_append, ← List.append_assoc] at hl
        obtain ⟨hl₂, hb⟩ := List.append_inj' hl rfl
        obtain ⟨h₁, m, h₂, r₁, r₂, rfl, rfl⟩ := ih hl₂
        refine ⟨h₁, m, _, r₁, r₂.tail hs, rfl, ?_⟩
        rw [List.map_append, List.concat_eq_append, hb]

theorem Run.cons_labels {a : α} {l : List α} (r : Run Step start h s)
    (hl : h.map Prod.snd = a :: l) : ∃ m h', Step start a m ∧ Run Step m h' s ∧
      h'.map Prod.snd = l := by
  obtain ⟨h₁, m, h₂, r₁, r₂, hl₁, hl₂⟩ := r.append_labels (l := [a]) hl
  cases r₁ with
  | refl => cases hl₁
  | @tail h₀ t b _ r₀ hb =>
      have hlast : h₀.map Prod.snd ++ [b] = [] ++ [a] := by simpa using hl₁
      obtain ⟨hnil, hone⟩ := List.append_inj' hlast rfl
      cases hone
      rw [r₀.nil_labels hnil] at hb
      exact ⟨m, h₂, hb, r₂, hl₂⟩

theorem Run.one_label {a : α} (r : Run Step start h s) (hl : h.map Prod.snd = [a]) :
    Step start a s := by
  obtain ⟨m, h', hs, r, hl⟩ := r.cons_labels hl
  rwa [r.nil_labels hl]

theorem Run.two_labels {a b : α} (r : Run Step start h s) (hl : h.map Prod.snd = [a, b]) :
    ∃ m, Step start a m ∧ Step m b s := by
  obtain ⟨m, h', hs, r, hl⟩ := r.cons_labels hl
  exact ⟨m, hs, r.one_label hl⟩

/-- Two runs in step: what a step and its block keep together, the runs keep. -/
theorem Run.expand {τ β : Type*} {Step' : τ → β → τ → Prop} {start' t : τ} {k : List (τ × β)}
    {B : α → List β → Prop} {R : List (σ × α) → σ → τ → Prop} (h0 : R [] start start')
    (hstep : ∀ h s a s₁ t k t₁, Run Step start h s → R h s t → Step s a s₁ →
      Run Step' t k t₁ → B a (k.map Prod.snd) → R (h ++ [(s, a)]) s₁ t₁)
    (r : Run Step start h s) (r' : Run Step' start' k t)
    (hB : Expands B (h.map Prod.snd) (k.map Prod.snd)) : R h s t := by
  induction r generalizing k t with
  | refl =>
      rw [r'.nil_labels hB.of_nil]
      exact h0
  | @tail h s a s' r hs ih =>
      rw [List.map_append] at hB
      obtain ⟨l, block, hk, hB, hb⟩ := hB.of_snoc
      obtain ⟨k₁, m, k₂, r₁, r₂, rfl, rfl⟩ := r'.append_labels hk
      exact hstep h s a s' m k₂ t r (ih r₁ hB) hs r₂ hb

end Runs
