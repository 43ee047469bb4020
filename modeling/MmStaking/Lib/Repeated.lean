import Mathlib.Data.Nat.ModEq
import MmStaking.Lib.Book

/-! A stream settled again and again, against the same stream settled once. Without
weight the stream survives exactly when no gap between settlements reaches what was
left of the period. With weight every settlement may drop a fraction, of the index
and of the holder's reward, and nothing more. -/
namespace Accrual

namespace Stream

/-- Settle at each time in turn, under one weight. -/
def settleAll (w : ℕ) (s : Stream) (ts : List ℤ) : Stream :=
  ts.foldl (fun s t => s.settle w t) s

variable (s : Stream) {w : ℕ}

@[simp] theorem settleAll_nil : s.settleAll w [] = s := rfl

@[simp] theorem settleAll_cons (t : ℤ) (ts : List ℤ) :
    s.settleAll w (t :: ts) = (s.settle w t).settleAll w ts := rfl

@[simp] theorem settleAll_rate (ts : List ℤ) : (s.settleAll w ts).rate = s.rate := by
  induction ts generalizing s with
  | nil => rfl
  | cons t ts ih => rw [settleAll_cons, ih, settle_rate]

theorem settleAll_last (ts : List ℤ) : (s.settleAll w ts).last = ts.getLastD s.last := by
  induction ts generalizing s with
  | nil => rfl
  | cons t ts ih => rw [settleAll_cons, ih, settle_last, List.getLastD_cons]

theorem settleAll_zero_index (ts : List ℤ) : (s.settleAll 0 ts).index = s.index := by
  induction ts generalizing s with
  | nil => rfl
  | cons t ts ih => rw [settleAll_cons, ih, settle_zero_index]

/-- Consecutive times, the last settlement first, less than `gap` apart. -/
def GapsBelow (gap last : ℤ) (ts : List ℤ) : Prop :=
  List.IsChain (fun t t' => t' - t < gap) (last :: ts)

instance (gap last : ℤ) (ts : List ℤ) : Decidable (GapsBelow gap last ts) :=
  inferInstanceAs (Decidable (List.IsChain _ _))

theorem settle_zero_span {t : ℤ} (h : s.last ≤ t) :
    (t - s.last < s.finish - s.last → (s.settle 0 t).finish - t = s.finish - s.last) ∧
      (s.finish - s.last ≤ t - s.last → (s.settle 0 t).finish ≤ t) := by
  rw [settle_zero]
  dsimp only
  constructor
  · intro hlt
    split <;> omega
  · intro hge
    split <;> omega

theorem settleAll_zero_spent {ts : List ℤ} (hts : List.IsChain (· ≤ ·) (s.last :: ts))
    (h : s.finish ≤ s.last) : (s.settleAll 0 ts).finish ≤ (s.settleAll 0 ts).last := by
  induction ts generalizing s with
  | nil => exact h
  | cons t ts ih =>
      obtain ⟨ht, hrest⟩ := List.isChain_cons_cons.mp hts
      have hlast : (s.settle 0 t).last = t := settle_last s
      rw [← hlast] at hrest
      refine ih (s.settle 0 t) hrest ?_
      rw [settle_last]
      exact (settle_zero_span s ht).2 (by omega)

/-- Without weight the rest of a running period is kept whole or lost whole. -/
theorem settleAll_zero_span {ts : List ℤ} (hts : List.IsChain (· ≤ ·) (s.last :: ts))
    (h : s.last < s.finish) :
    (GapsBelow (s.finish - s.last) s.last ts →
        (s.settleAll 0 ts).finish - (s.settleAll 0 ts).last = s.finish - s.last) ∧
      (¬ GapsBelow (s.finish - s.last) s.last ts →
        (s.settleAll 0 ts).finish ≤ (s.settleAll 0 ts).last) := by
  induction ts generalizing s with
  | nil => exact ⟨fun _ => rfl, fun hg => absurd (List.isChain_singleton _) hg⟩
  | cons t ts ih =>
      obtain ⟨ht, hrest⟩ := List.isChain_cons_cons.mp hts
      obtain ⟨hkeep, hlose⟩ := settle_zero_span s ht
      have hgaps : GapsBelow (s.finish - s.last) s.last (t :: ts) ↔
          t - s.last < s.finish - s.last ∧ GapsBelow (s.finish - s.last) t ts :=
        List.isChain_cons_cons
      have hlast : (s.settle 0 t).last = t := settle_last s
      rw [← hlast] at hrest
      rw [hgaps, settleAll_cons]
      by_cases hgap : t - s.last < s.finish - s.last
      · -- the first gap is short: the rest of the period is what it was
        have hspan : (s.settle 0 t).finish - (s.settle 0 t).last = s.finish - s.last := by
          rw [hlast, hkeep hgap]
        have hih := ih (s.settle 0 t) hrest (by omega)
        rw [hspan, hlast] at hih
        exact ⟨fun hg => hih.1 hg.2, fun hg => hih.2 fun hg' => hg ⟨hgap, hg'⟩⟩
      · have hspent : (s.settle 0 t).finish ≤ (s.settle 0 t).last := by
          rw [hlast]
          exact hlose (by omega)
        exact ⟨fun hg => absurd hg.1 hgap, fun _ => settleAll_zero_spent _ hrest hspent⟩

/-- What is left to stream survives exactly when the gaps are short, unless there was
nothing to lose. -/
theorem settleAll_zero_remaining_iff {ts : List ℤ}
    (hts : List.IsChain (· ≤ ·) (s.last :: ts)) :
    (s.settleAll 0 ts).remaining = s.remaining ↔
      s.rate = 0 ∨ s.finish ≤ s.last ∨ GapsBelow (s.finish - s.last) s.last ts := by
  unfold remaining
  rw [settleAll_rate]
  rcases Nat.eq_zero_or_pos s.rate with hr | hr
  · simp [hr]
  · rw [Nat.mul_left_inj hr.ne']
    by_cases hf : s.finish ≤ s.last
    · have hspent := settleAll_zero_spent s hts hf
      simp only [hr.ne', hf, true_or, or_true, iff_true]
      omega
    · obtain ⟨hkeep, hlose⟩ := settleAll_zero_span s hts (not_le.mp hf)
      simp only [hr.ne', hf, false_or]
      constructor
      · intro heq
        by_contra hg
        have hle := hlose hg
        omega
      · intro hg
        rw [hkeep hg]

theorem settleAll_zero_remaining_lost {ts : List ℤ} (hts : List.IsChain (· ≤ ·) (s.last :: ts))
    (h : ¬ (s.rate = 0 ∨ s.finish ≤ s.last ∨ GapsBelow (s.finish - s.last) s.last ts)) :
    (s.settleAll 0 ts).remaining = 0 := by
  simp only [not_or] at h
  obtain ⟨-, hrun, hgaps⟩ := h
  have hspent := (settleAll_zero_span s hts (not_le.mp hrun)).2 hgaps
  have hrest : ((s.settleAll 0 ts).finish - (s.settleAll 0 ts).last).toNat = 0 := by omega
  rw [remaining, hrest, Nat.zero_mul]

theorem elapsed_add {t t' : ℤ} (hw : 0 < w) (h : s.last ≤ t) (h' : t ≤ t') :
    s.elapsed t + (s.settle w t).elapsed t' = s.elapsed t' := by
  rw [settle_pos s hw]
  unfold elapsed
  dsimp only
  omega

theorem settle_settle_index {t t' : ℤ} (hw : 0 < w) (h : s.last ≤ t) (h' : t ≤ t') :
    ((s.settle w t).settle w t').index ≤ (s.settle w t').index ∧
      (s.settle w t').index ≤ ((s.settle w t).settle w t').index + 1 := by
  have hadd := elapsed_add s hw h h'
  have hdiv := Nat.add_div (a := s.elapsed t * s.rate) (b := (s.settle w t).elapsed t' * s.rate) hw
  rw [← Nat.add_mul, hadd] at hdiv
  simp only [settle_index, settle_rate, hdiv]
  split <;> omega

end Stream

/-- A holder settled together with its stream at each time in turn. -/
def settleBoth (P w : ℕ) : Stream × Holder → List ℤ → Stream × Holder
  | sh, [] => sh
  | (s, h), t :: ts => settleBoth P w (s.settle w t, h.settle P (s.settle w t).index) ts

section Both
variable {P w : ℕ}

theorem index_le_settleAll (s : Stream) (ts : List ℤ) : s.index ≤ (s.settleAll w ts).index := by
  induction ts generalizing s with
  | nil => exact le_rfl
  | cons t ts ih => exact (Stream.index_le_settle s).trans (ih _)

/-- The index after repeated settlements is at most the index after the last of them
alone, and behind it by less than one for each settlement. -/
theorem settleAll_index (hw : 0 < w) (s : Stream) {t : ℤ} {ts : List ℤ}
    (hts : List.IsChain (· ≤ ·) (s.last :: t :: ts)) :
    (s.settleAll w (t :: ts)).index ≤ (s.settle w (ts.getLastD t)).index ∧
      (s.settle w (ts.getLastD t)).index ≤ (s.settleAll w (t :: ts)).index + ts.length := by
  induction ts generalizing s t with
  | nil => exact ⟨le_rfl, le_rfl⟩
  | cons t' ts ih =>
      obtain ⟨ht, hrest⟩ := List.isChain_cons_cons.mp hts
      have hle : t ≤ ts.getLastD t' := by
        have hmem : ts.getLastD t' ∈ t' :: ts := List.getLastD_mem_cons
        exact hrest.rel_cons hmem
      have hlast : (s.settle w t).last = t := Stream.settle_last s
      rw [← hlast] at hrest
      obtain ⟨hlo, hhi⟩ := ih (s.settle w t) hrest
      obtain ⟨hlo', hhi'⟩ := Stream.settle_settle_index s hw ht hle
      rw [Stream.settleAll_cons, List.getLastD_cons, List.length_cons]
      exact ⟨hlo.trans hlo', by omega⟩

theorem settleBoth_accrued_le {s : Stream} {h : Holder} (hp : h.paid ≤ s.index) (ts : List ℤ) :
    (settleBoth P w (s, h) ts).2.accrued ≤
      h.accrued + h.weight * ((s.settleAll w ts).index - h.paid) / P := by
  induction ts generalizing s h with
  | nil => exact Nat.le_add_right _ _
  | cons t ts ih =>
      have hmono : s.index ≤ (s.settle w t).index := Stream.index_le_settle s
      have hih := ih (s := s.settle w t) (h := h.settle P (s.settle w t).index) le_rfl
      have hidx := index_le_settleAll (w := w) (s.settle w t) ts
      refine hih.trans ?_
      simp only [Holder.settle, Stream.settleAll_cons]
      rw [Nat.add_assoc]
      apply Nat.add_le_add_left
      refine Nat.div_add_div_le_add_div.trans (Nat.div_le_div_right ?_)
      rw [← Nat.mul_add]
      apply Nat.mul_le_mul_left
      omega

theorem settleBoth_paid (s : Stream) (h : Holder) (t : ℤ) (ts : List ℤ) :
    (settleBoth P w (s, h) (t :: ts)).2.paid = (s.settleAll w (t :: ts)).index := by
  induction ts generalizing s h t with
  | nil => rfl
  | cons t' ts ih => exact ih _ _ _

theorem owed_le_settleBoth (hP : 0 < P) {s : Stream} {h : Holder} (hp : h.paid ≤ s.index)
    (ts : List ℤ) : h.owed P (s.settleAll w ts).index ≤
      (settleBoth P w (s, h) ts).2.owed P (s.settleAll w ts).index + ts.length * (P - 1) := by
  induction ts generalizing s h with
  | nil => exact Nat.le_add_right _ _
  | cons t ts ih =>
      have hmono : s.index ≤ (s.settle w t).index := Stream.index_le_settle s
      obtain ⟨d, hd⟩ := Nat.exists_eq_add_of_le (index_le_settleAll (w := w) (s.settle w t) ts)
      have hih := ih (s := s.settle w t) (h := h.settle P (s.settle w t).index) le_rfl
      have hlt := Holder.owed_lt_settle P (s.settle w t).index h hP
      rw [Stream.settleAll_cons, List.length_cons, Nat.succ_mul]
      rw [hd] at hih ⊢
      rw [Holder.owed_index_add P (hp.trans hmono)]
      rw [Holder.owed_index_add P (h.settle_paid P _).le, Holder.settle_weight] at hih
      change _ ≤ (settleBoth P w (s.settle w t, h.settle P (s.settle w t).index) ts).2.owed P _ + _
      omega

/-- Settling often against settling once at the last of the times: the reward is no
larger, and short of it by at most a weight for each further settlement and less
than one unit for each. -/
theorem settleBoth_rounding (hP : 0 < P) (hw : 0 < w) {s : Stream} {h : Holder}
    (hp : h.paid ≤ s.index) {t : ℤ} {ts : List ℤ}
    (hts : List.IsChain (· ≤ ·) (s.last :: t :: ts)) :
    (settleBoth P w (s, h) (t :: ts)).2.accrued ≤
        (h.settle P (s.settle w (ts.getLastD t)).index).accrued ∧
      P * (h.settle P (s.settle w (ts.getLastD t)).index).accrued ≤
        P * (settleBoth P w (s, h) (t :: ts)).2.accrued + ts.length * h.weight +
          (ts.length + 1) * (P - 1) := by
  obtain ⟨hlo, hhi⟩ := settleAll_index hw s hts
  constructor
  · refine (settleBoth_accrued_le hp (t :: ts)).trans (Nat.add_le_add_left ?_ _)
    exact Nat.div_le_div_right (Nat.mul_le_mul_left _ (Nat.sub_le_sub_right hlo _))
  · have hmulti := owed_le_settleBoth hP hp (t :: ts) (w := w)
    rw [Holder.owed_of_paid P (settleBoth_paid s h t ts), List.length_cons] at hmulti
    obtain ⟨d, hd⟩ := Nat.exists_eq_add_of_le hlo
    have hpaid : h.paid ≤ (s.settleAll w (t :: ts)).index :=
      hp.trans (index_le_settleAll s (t :: ts))
    have hsingle := Holder.owed_settle_le P (s.settle w (ts.getLastD t)).index h
    rw [Holder.owed_of_paid P (Holder.settle_paid P _ h)] at hsingle
    have hgap : h.weight * d ≤ ts.length * h.weight := by
      rw [Nat.mul_comm]
      exact Nat.mul_le_mul_right _ (by omega)
    calc P * (h.settle P (s.settle w (ts.getLastD t)).index).accrued
        ≤ h.owed P (s.settle w (ts.getLastD t)).index := hsingle
      _ = h.owed P (s.settleAll w (t :: ts)).index + h.weight * d := by
          rw [hd, Holder.owed_index_add P hpaid]
      _ ≤ P * (settleBoth P w (s, h) (t :: ts)).2.accrued + ts.length * h.weight +
          (ts.length + 1) * (P - 1) := by omega

end Both
end Accrual
