import MmStaking.Refine.Solo

/-! The pool of eight slots refines eight pools of one. Slot by slot every run of it is a
run of the reference, and its settlements fail where one of theirs does. -/
namespace MmStaking
open Words Loops Runs

variable {ι : Type} [DecidableEq ι]

/-- The settlement of a call by `actor` on the pool of one slot. -/
def Solo.settles (r : Solo ι) (actor : Option ι) (now : I64) : Result (Solo ι) :=
  match actor with
  | none => r.settle now
  | some v => r.settleFor v now

section Failure
variable {s : Sys ι} {now : I64}

omit [DecidableEq ι] in
theorem settleSlots_total_iff : (∃ p₁, settleSlots s.pool now = .ok p₁) ↔
    ∀ i, ∃ r, (s.solo i).settle now = .ok r := by
  constructor
  · intro ⟨p₁, hs⟩ i
    exact ⟨_, solo_settle hs i⟩
  · intro h
    have hslot : ∀ i, ∃ slot, settleOne (s.pool.rewards i) s.pool.totalStaked now = .ok slot := by
      intro i
      obtain ⟨r, hr⟩ := h i
      simp only [Solo.settle, bind_eq_ok_iff] at hr
      obtain ⟨slot, hslot, -⟩ := hr
      exact ⟨slot, hslot⟩
    choose rewards hrewards using hslot
    exact ⟨{ s.pool with rewards := rewards }, settleSlots_each.mpr ⟨rfl, hrewards⟩⟩

theorem settleEntries_total_iff {v : ι} {account : StakerAccount}
    (hstaked : account.stakedAmount = (s.staker v).stakedAmount)
    (hentries : account.entries = (s.staker v).entries) :
    (∃ p₁ a₁, settleSlots s.pool now = .ok p₁ ∧ settleEntries p₁ account = .ok a₁) ↔
      ∀ i, ∃ r, (s.solo i).settleFor v now = .ok r := by
  constructor
  · intro ⟨p₁, a₁, hs, he⟩ i
    exact ⟨_, solo_settleFor hstaked hentries hs he i⟩
  · intro h
    have hsettle : ∀ i, ∃ r, (s.solo i).settle now = .ok r := by
      intro i
      obtain ⟨r, hr⟩ := h i
      simp only [Solo.settleFor, bind_eq_ok_iff] at hr
      obtain ⟨r, hr, -⟩ := hr
      exact ⟨r, hr⟩
    obtain ⟨p₁, hs⟩ := settleSlots_total_iff.mpr hsettle
    have hentry : ∀ i, ∃ entry,
        settleEntry (p₁.rewards i) account.stakedAmount (account.entries i) = .ok entry := by
      intro i
      obtain ⟨r, hr⟩ := h i
      simp only [Solo.settleFor, bind_eq_ok_iff, solo_settle hs i, Except.ok.injEq,
        exists_eq_left'] at hr
      obtain ⟨entry, hentry, -⟩ := hr
      rw [hstaked, hentries]
      exact ⟨entry, hentry⟩
    choose entries hentries' using hentry
    exact ⟨p₁, { account with entries := entries }, hs, settleEntries_each.mpr ⟨rfl, hentries'⟩⟩

omit [DecidableEq ι] in
theorem settle_error (ht : s.Tidy) {i : Slot} {f : Fault}
    (h : (s.solo i).settle now = .error f) : f = .err .mathOverflow ∧ s.pool.Registered i := by
  simp only [Solo.settle, bind_eq_error_iff, pure_ne_error, and_false, exists_false, or_false] at h
  unfold settleOne at h
  split at h
  · cases h
  · rename_i hreg
    exact ⟨settleSlot_error (ht.last_nonneg i) h, hreg⟩

theorem settleFor_error (ht : s.Tidy) {i : Slot} {v : ι} {f : Fault}
    (h : (s.solo i).settleFor v now = .error f) :
    f = .err .mathOverflow ∧ s.pool.Registered i := by
  simp only [Solo.settleFor, bind_eq_error_iff, pure_ne_error, and_false, exists_false,
    or_false] at h
  obtain h | ⟨r, hr, h⟩ := h
  · exact settle_error ht h
  · unfold settleEntry at h
    split at h
    · cases h
    · rename_i hmint
      simp only [bind_eq_error_iff, pure_ne_error, and_false, exists_false, or_false] at h
      refine ⟨earned_error h, ?_⟩
      -- the settled slot has the mint of the slot
      intro hempty
      change (s.solo i).slot.mint = 0 at hempty
      simp only [Solo.settle, bind_eq_ok_iff, pure_eq_ok_iff, settleOne] at hr
      obtain ⟨slot, hslot, rfl⟩ := hr
      rw [if_pos hempty] at hslot
      cases hslot
      exact hmint hempty

theorem settles_error (ht : s.Tidy) {i : Slot} {actor : Option ι} {f : Fault}
    (h : (s.solo i).settles actor now = .error f) :
    f = .err .mathOverflow ∧ s.pool.Registered i := by
  cases actor with
  | none => exact settle_error ht h
  | some v => exact settleFor_error ht h

theorem settlement_total_iff {op : Op ι} {x : Result (Pool × Option StakerAccount)}
    (h : op.settlement s now = some x) :
    (∃ y, x = .ok y) ↔ ∀ i, ∃ r, (s.solo i).settles op.actor now = .ok r := by
  obtain ⟨lent, rfl, hlent⟩ := settlement_lent h
  rw [Prod.exists]
  cases hactor : op.actor with
  | none =>
      rw [hactor] at hlent
      obtain rfl : lent = none := by simpa using hlent
      refine Iff.trans ?_ settleSlots_total_iff
      simp only [updateReward_none_eq_ok_iff, exists_and_left, exists_eq, and_true]
  | some v =>
      rw [hactor] at hlent
      obtain ⟨account, rfl, hsame⟩ := Option.map_eq_some_iff.mp hlent
      obtain ⟨hstaked, hentries⟩ := Prod.mk.inj hsame
      refine Iff.trans ?_ (settleEntries_total_iff hstaked hentries)
      simp only [updateReward_some_eq_ok_iff]
      constructor
      · intro ⟨p₁, _, hs, a₁, he, _⟩
        exact ⟨p₁, a₁, hs, he⟩
      · intro ⟨p₁, a₁, hs, he⟩
        exact ⟨p₁, some a₁, hs, a₁, he, rfl⟩

theorem settlement_error_iff (ht : s.Tidy) {op : Op ι} {x : Result (Pool × Option StakerAccount)}
    (h : op.settlement s now = some x) :
    x = .error (.err .mathOverflow) ↔ ∃ i, s.pool.Registered i ∧
      (s.solo i).settles op.actor now = .error (.err .mathOverflow) := by
  constructor
  · intro hx
    have hno : ¬ ∃ y, x = .ok y := by
      rw [hx]
      simp
    rw [settlement_total_iff h, not_forall] at hno
    obtain ⟨i, hi⟩ := hno
    cases hr : (s.solo i).settles op.actor now with
    | ok r => exact absurd ⟨r, hr⟩ hi
    | error f =>
        obtain ⟨rfl, hreg⟩ := settles_error ht hr
        exact ⟨i, hreg, hr⟩
  · intro ⟨i, hreg, hi⟩
    have hno : ¬ ∃ y, x = .ok y := by
      rw [settlement_total_iff h]
      intro hall
      obtain ⟨r, hr⟩ := hall i
      rw [hi] at hr
      cases hr
    cases x with
    | ok y => exact absurd ⟨y, rfl⟩ hno
    | error f => rw [settlement_error ht.last_nonneg h]

end Failure

/-- Every run of the pool of eight is, slot by slot, a run of the reference. -/
theorem run_solo {s₀ s : Sys ι} {h : List (Sys ι × Call ι)} (h0 : s₀.Initial)
    (r : Run Sys.Step s₀ h s) (hv : DerivedVaults h) (i : Slot) :
    (Solo.blank s₀.pool.defaultDuration).run i (h.map Prod.snd) = .ok (s.solo i) := by
  induction r with
  | refl =>
      obtain ⟨-, hslot, hstaker, htotal, hcount, -, hledger⟩ := initial_blank h0
      have hblank : s₀.solo i = Solo.blank s₀.pool.defaultDuration := by
        simp only [Sys.solo, Solo.blank, hslot, hstaker, htotal, hcount, hledger]
        rfl
      exact congrArg Except.ok hblank.symm
  | @tail h s c s' r hs ih =>
      obtain ⟨-, ht, hp, -⟩ := registry_along h0 r
      obtain ⟨-, t, hop, rfl⟩ := Sys.step_eq_ok_iff.mp hs
      have hdistinct := distinctVaults_along h0 r hv.of_append
      have hlast : (s.solo i).perform i c.now c.op = .ok (t.solo i) :=
        perform_solo ht hp hdistinct hop
      rw [Solo.run, List.map_append, List.foldlM_append, bind_eq_ok_iff]
      refine ⟨s.solo i, ih hv.of_append, ?_⟩
      rw [List.map_cons, List.map_nil, List.foldlM_cons, bind_eq_ok_iff]
      exact ⟨t.solo i, hlast, rfl⟩

/-- The pool of eight refines eight pools of one, when the vault keys are derived from the
mints. Along every run each slot, with the entries of all stakers for it, the stakes and what
was paid out of its vault, is what the reference reads off the same calls. A settlement fails
by an overflow exactly when that of an occupied slot does, in no other way, and fails its
instruction. -/
theorem slots_independent {s₀ s : Sys ι} {h : List (Sys ι × Call ι)} (h0 : s₀.Initial)
    (r : Run Sys.Step s₀ h s) (hv : DerivedVaults h) :
    (∀ i, (Solo.blank s₀.pool.defaultDuration).run i (h.map Prod.snd) = .ok (s.solo i)) ∧
    ∀ now op x, op.settlement s now = some x →
      (x = .error (.err .mathOverflow) ↔ ∃ i, s.pool.Registered i ∧
        (s.solo i).settles op.actor now = .error (.err .mathOverflow)) ∧
      ∀ f, x = .error f → f = .err .mathOverflow ∧ s.perform now op = .error f := by
  obtain ⟨-, ht, -⟩ := registry_along h0 r
  refine ⟨run_solo h0 r hv, ?_⟩
  intro now op x hx
  refine ⟨settlement_error_iff ht hx, ?_⟩
  rintro f rfl
  exact ⟨settlement_error ht.last_nonneg hx, perform_error_of_settlement hx⟩

/-- A run over two slots pays its staker 300 of the one and 360 of the other, and so do the
references. -/
theorem slots_independent_pair :
    ((Solo.blank Sys.trialStart.pool.defaultDuration).run 0 Sys.pairCalls =
        .ok (Sys.pair.solo 0) ∧ (Sys.pair.solo 0).claimed 0 = 300) ∧
      (Solo.blank Sys.trialStart.pool.defaultDuration).run 1 Sys.pairCalls =
        .ok (Sys.pair.solo 1) ∧ (Sys.pair.solo 1).claimed 0 = 360 := by
  obtain ⟨h, r, hl, hv⟩ := Sys.pair_run
  obtain ⟨hsolo, -⟩ := slots_independent Sys.initial_trialStart r hv
  rw [hl] at hsolo
  exact ⟨⟨hsolo 0, by decide +kernel⟩, hsolo 1, by decide +kernel⟩

end MmStaking
