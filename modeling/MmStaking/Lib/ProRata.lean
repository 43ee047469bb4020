import Mathlib.Data.Rat.Floor
import MmStaking.Lib.Book

/-! The pro-rata reference. Second by second a stream pays every holder in proportion
to its weight; the book, settled only now and then and in whole units, follows the
reference from below, and never further behind than the rounding of its settlements. -/
namespace Accrual

/-- What the seconds up to `now` pay a holder of weight `w` out of `total`, exactly. -/
def Stream.perSecond (s : Stream) (w total : ℕ) (now : ℤ) : ℚ :=
  ∑ k ∈ Finset.range (now - s.last).toNat,
    if s.last + k < s.finish ∧ 0 < total then (s.rate * w / total : ℚ) else 0

theorem Stream.perSecond_eq (s : Stream) (w total : ℕ) (now : ℤ) :
    s.perSecond w total now = s.elapsed now * s.rate * w / total := by
  unfold Stream.perSecond
  rcases Nat.eq_zero_or_pos total with rfl | hpos
  · simp
  · have hfilter : (Finset.range (now - s.last).toNat).filter
        (fun k : ℕ => s.last + k < s.finish ∧ 0 < total) = Finset.range (s.elapsed now) := by
      ext k
      simp only [Finset.mem_filter, Finset.mem_range, hpos, and_true, Stream.elapsed]
      omega
    rw [← Finset.sum_filter, hfilter, Finset.sum_const, Finset.card_range, nsmul_eq_mul]
    ring

namespace Book
variable {ι : Type*} [DecidableEq ι] (P : ℕ)

/-- What holder `v` was paid and is owed, in scaled units. -/
def entitlement (v : ι) (b : Book ι) : ℕ :=
  P * b.claimed v + (b.holder v).owed P b.stream.index

/-- The exact share of holder `v` in an act: only settling pays. -/
def share (v : ι) (b : Book ι) : Act ι → ℚ
  | .settle now => b.stream.perSecond (b.holder v).weight b.total.toNat now
  | .checkpoint _ | .grow _ _ | .shrink _ _ | .refill _ _ _ | .take _ | .exit _ | .enroll _ => 0

/-- How far an act may drop holder `v` behind its exact share. -/
def lag (v : ι) (b : Book ι) : Act ι → ℚ
  | .settle _ => (b.holder v).weight
  | .checkpoint u => if u = v then P else 0
  | .grow _ _ | .shrink _ _ | .refill _ _ _ | .take _ | .exit _ | .enroll _ => 0

variable {P} {v : ι} {b : Book ι}

theorem entitlement_settle [Fintype ι] (hb : b.Sound) (now : ℤ) :
    ((b.apply P (.settle now)).entitlement P v : ℚ) ≤
        b.entitlement P v + b.share v (.settle now) ∧
      b.entitlement P v + b.share v (.settle now) ≤
        (b.apply P (.settle now)).entitlement P v + (b.holder v).weight := by
  have hnow : (b.apply P (.settle now)).entitlement P v = b.entitlement P v +
      (b.holder v).weight * (b.stream.elapsed now * b.stream.rate / b.total.toNat) := by
    simp only [entitlement, Book.apply]
    rw [Stream.settle_index, Holder.owed_index_add P (hb.paid_le v), Nat.add_assoc]
  have hshare : b.share v (.settle now) = (b.holder v).weight *
      ((b.stream.elapsed now * b.stream.rate : ℕ) / b.total.toNat : ℚ) := by
    simp only [share, Stream.perSecond_eq]
    push_cast
    ring
  rw [hnow, hshare]
  push_cast
  have hw : (0 : ℚ) ≤ (b.holder v).weight := Nat.cast_nonneg _
  constructor
  · have hfloor := Nat.cast_div_le (α := ℚ) (m := b.stream.elapsed now * b.stream.rate)
      (n := b.total.toNat)
    push_cast at hfloor
    exact add_le_add le_rfl (mul_le_mul_of_nonneg_left hfloor hw)
  · rcases Nat.eq_zero_or_pos b.total.toNat with h0 | hpos
    · -- nobody has any weight, so there is no share either
      have hzero : (b.holder v).weight = 0 := by
        have := hb.weight_le v
        omega
      simp [hzero]
    · have hlt := Nat.lt_mul_div_succ (b.stream.elapsed now * b.stream.rate) hpos
      have hceil : ((b.stream.elapsed now : ℚ) * b.stream.rate) / b.total.toNat ≤
          ((b.stream.elapsed now * b.stream.rate / b.total.toNat : ℕ) : ℚ) + 1 := by
        rw [div_le_iff₀ (by exact_mod_cast hpos), mul_comm (_ + 1)]
        exact_mod_cast hlt.le
      have hmul := mul_le_mul_of_nonneg_left hceil hw
      rw [mul_add, mul_one] at hmul
      linarith

theorem entitlement_setHolder_of_ne {u : ι} (hu : v ≠ u) (h : Holder) :
    (b.setHolder u h).entitlement P v = b.entitlement P v := by
  simp [entitlement, hu]

theorem entitlement_setHolder_self (h : Holder) :
    (b.setHolder v h).entitlement P v = P * b.claimed v + h.owed P b.stream.index := by
  simp [entitlement]

theorem entitlement_weight {u : ι} (hu : (b.holder u).paid = b.stream.index) (w : ℕ) :
    (b.setHolder u { b.holder u with weight := w }).entitlement P v = b.entitlement P v := by
  by_cases huv : v = u
  · subst huv
    rw [entitlement_setHolder_self, entitlement, Holder.owed_of_paid P hu]
    rw [Holder.owed_of_paid P (h := { b.holder v with weight := w }) hu]
  · exact entitlement_setHolder_of_ne huv _

/-- Except by its own exit, a holder follows its exact share from below, behind by no
more than the lag. -/
theorem entitlement_apply [Fintype ι] (hP : 0 < P) (hb : b.Sound) {a : Act ι}
    (ha : b.Allowed a) (hexit : a ≠ .exit v) :
    ((b.apply P a).entitlement P v : ℚ) ≤ b.entitlement P v + b.share v a ∧
      b.entitlement P v + b.share v a ≤ (b.apply P a).entitlement P v + b.lag P v a := by
  have hsame : (b.apply P a).entitlement P v = b.entitlement P v → b.share v a = 0 →
      0 ≤ b.lag P v a → ((b.apply P a).entitlement P v : ℚ) ≤ b.entitlement P v + b.share v a ∧
        b.entitlement P v + b.share v a ≤ (b.apply P a).entitlement P v + b.lag P v a := by
    intro h hshare hlag
    rw [h, hshare, add_zero]
    exact ⟨le_rfl, le_add_of_nonneg_right hlag⟩
  cases a with
  | settle now => exact entitlement_settle hb now
  | checkpoint u =>
      by_cases hu : v = u
      · subst hu
        have hle := Holder.owed_settle_le P b.stream.index (b.holder v)
        have hlt := Holder.owed_lt_settle P b.stream.index (b.holder v) hP
        simp only [Book.apply, entitlement_setHolder_self, share, lag, if_true, add_zero]
        unfold entitlement
        exact ⟨by exact_mod_cast Nat.add_le_add_left hle _,
          by exact_mod_cast (by omega : P * b.claimed v + (b.holder v).owed P b.stream.index ≤
            P * b.claimed v + ((b.holder v).settle P b.stream.index).owed P b.stream.index + P)⟩
      · refine hsame (entitlement_setHolder_of_ne hu _) rfl ?_
        simp [lag, Ne.symm hu]
  | grow u n => exact hsame (entitlement_weight ha _) rfl le_rfl
  | shrink u n => exact hsame (entitlement_weight ha.1 _) rfl le_rfl
  | refill n d now => exact hsame rfl rfl le_rfl
  | take u =>
      refine hsame ?_ rfl le_rfl
      by_cases hu : v = u
      · subst hu
        simp only [entitlement, Book.apply, setHolder_stream, setHolder_holder,
          Function.update_self, Holder.owed]
        ring
      · simp [entitlement, Book.apply, hu]
  | exit u =>
      have hu : v ≠ u := fun h => hexit (by rw [h])
      refine hsame ?_ rfl le_rfl
      simp [entitlement, Book.apply, hu]
  | enroll now =>
      refine hsame ?_ rfl le_rfl
      simp only [entitlement, Book.apply, ha.2]

end Book
end Accrual
