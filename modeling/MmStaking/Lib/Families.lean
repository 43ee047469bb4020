import MmStaking.Lib.Runs

/-! A member of a family of systems, inside a run of the whole. The member comes into
being at some step; from then on a step of the whole is a step of the member under a label
of its own, or leaves it alone. So every run of the whole contains a run of the member. -/
namespace Runs
variable {σ α τ β : Type*}

/-- A member seen in the whole: whether it is there, the label a step of the whole has for
it, and what relates the whole to it, with the history so far. -/
structure Member (σ α τ β : Type*) where
  Live : σ → Prop
  label : σ → α → Option β
  Shows : List (σ × α) → σ → τ → Prop

def Member.labels (M : Member σ α τ β) (h : List (σ × α)) : List β :=
  h.filterMap fun e => M.label e.1 e.2

theorem Member.labels_snoc (M : Member σ α τ β) (h : List (σ × α)) (s : σ) (a : α) :
    M.labels (h ++ [(s, a)]) = M.labels h ++ (M.label s a).toList := by
  rw [Member.labels, List.filterMap_append]
  cases hl : M.label s a <;> simp [Member.labels, hl]

/-- The member's steps in the whole, from states that satisfy `I`. -/
structure Member.Simulated (M : Member σ α τ β) (Step : σ → α → σ → Prop) (I : σ → Prop)
    (Init : τ → Prop) (Step' : τ → β → τ → Prop) : Prop where
  silent : ∀ {s a s'}, I s → Step s a s' → ¬ M.Live s → M.label s a = none
  born : ∀ {h s a s'}, I s → Step s a s' → ¬ M.Live s → M.Live s' →
    (∀ e ∈ h, ¬ M.Live e.1) → ∃ t, Init t ∧ M.Shows (h ++ [(s, a)]) s' t
  moves : ∀ {h s a s' t₀ l t}, I s → Step s a s' → M.Live s → Init t₀ → Run Step' t₀ l t →
    M.Shows h s t → M.Live s' ∧
      ((M.label s a = none ∧ M.Shows (h ++ [(s, a)]) s' t) ∨
        ∃ b t', M.label s a = some b ∧ Step' t b t' ∧ M.Shows (h ++ [(s, a)]) s' t')

variable {M : Member σ α τ β} {Step : σ → α → σ → Prop} {I : σ → Prop} {Init : τ → Prop}
  {Step' : τ → β → τ → Prop} {start s : σ} {h : List (σ × α)}

/-- A run of the whole from where the member is not there yet has no label of the member
while it is not, and afterwards contains a run of the member under exactly its labels. -/
theorem Run.member (hM : M.Simulated Step I Init Step') (r : Run Step start h s)
    (hI : I start) (hstep : ∀ s a s', I s → Step s a s' → I s') (h0 : ¬ M.Live start) :
    (¬ M.Live s → M.labels h = [] ∧ ∀ e ∈ h, ¬ M.Live e.1) ∧
      (M.Live s → ∃ t₀ l t, Init t₀ ∧ Run Step' t₀ l t ∧ l.map Prod.snd = M.labels h ∧
        M.Shows h s t) := by
  induction r with
  | refl => exact ⟨fun _ => ⟨rfl, by simp⟩, fun hlive => absurd hlive h0⟩
  | @tail h s a s' r hs ih =>
      obtain ⟨hdead, hlive⟩ := ih
      have hi : I s := r.invariant hI hstep
      by_cases hl : M.Live s
      · obtain ⟨t₀, l, t, hinit, r', hlabels, hshows⟩ := hlive hl
        obtain ⟨hl', hcase⟩ := hM.moves hi hs hl hinit r' hshows
        refine ⟨fun hn => absurd hl' hn, fun _ => ?_⟩
        rw [M.labels_snoc]
        rcases hcase with ⟨hnone, hshows'⟩ | ⟨b, t', hsome, hstep', hshows'⟩
        · refine ⟨t₀, l, t, hinit, r', ?_, hshows'⟩
          rw [hnone, hlabels]
          simp
        · refine ⟨t₀, l ++ [(t, b)], t', hinit, r'.tail hstep', ?_, hshows'⟩
          rw [hsome, List.map_append, hlabels]
          rfl
      · obtain ⟨hnil, hbefore⟩ := hdead hl
        have hlabels : M.labels (h ++ [(s, a)]) = [] := by
          rw [M.labels_snoc, hnil, hM.silent hi hs hl]
          rfl
        refine ⟨fun _ => ⟨hlabels, ?_⟩, fun hl' => ?_⟩
        · intro e he
          rcases List.mem_append.mp he with he | he
          · exact hbefore e he
          · rw [List.mem_singleton.mp he]
            exact hl
        · obtain ⟨t, hinit, hshows⟩ := hM.born hi hs hl hl' hbefore
          exact ⟨t, [], t, hinit, .refl, hlabels.symm, hshows⟩

theorem Run.member_live (hM : M.Simulated Step I Init Step') (r : Run Step start h s)
    (hI : I start) (hstep : ∀ s a s', I s → Step s a s' → I s') (hlive : M.Live start)
    {h₀ : List (σ × α)} {t₀ t : τ} {l : List (τ × β)} (hinit : Init t₀) (r₀ : Run Step' t₀ l t)
    (hshows : M.Shows h₀ start t) : M.Live s ∧ ∃ l' t', Run Step' t l' t' ∧
      l'.map Prod.snd = M.labels h ∧ M.Shows (h₀ ++ h) s t' := by
  induction r with
  | refl => exact ⟨hlive, [], t, .refl, rfl, by rwa [List.append_nil]⟩
  | @tail h s a s' r hs ih =>
      obtain ⟨hl, l', t', r', hlabels, hshows'⟩ := ih
      have hi : I s := r.invariant hI hstep
      obtain ⟨hl', hcase⟩ := hM.moves hi hs hl hinit (r₀.trans r') hshows'
      refine ⟨hl', ?_⟩
      rw [M.labels_snoc, ← List.append_assoc]
      rcases hcase with ⟨hnone, hshows''⟩ | ⟨b, t'', hsome, hstep', hshows''⟩
      · refine ⟨l', t', r', ?_, hshows''⟩
        rw [hnone, hlabels]
        simp
      · refine ⟨l' ++ [(t', b)], t'', r'.tail hstep', ?_, hshows''⟩
        rw [hsome, List.map_append, hlabels]
        rfl

end Runs
