import Mathlib.Tactic
import Mathlib.Data.Nat.Cast.Order.Ring

/-! A reward stream distributed lazily by an index of accumulated reward per unit
of weight. All quantities are exact and unbounded; rewards and the index carry a
scale `P`. Settling moves the index forward by the time that passed; with no
weight to distribute to, the end of the stream is pushed back instead. -/
namespace Accrual

@[ext] structure Stream where
  rate : ℕ
  index : ℕ
  finish : ℤ
  last : ℤ

namespace Stream

/-- Seconds between the last settlement and `now` that lie before the end. -/
def elapsed (s : Stream) (now : ℤ) : ℕ := (min now s.finish - s.last).toNat

/-- Scaled reward not yet streamed at the last settlement. -/
def remaining (s : Stream) : ℕ := (s.finish - s.last).toNat * s.rate

def settle (s : Stream) (weight : ℕ) (now : ℤ) : Stream :=
  if 0 < weight then
    { s with index := s.index + s.elapsed now * s.rate / weight, last := now }
  else
    { s with
      finish := if now < s.finish ∧ s.last < now then s.finish + (now - s.last) else s.finish
      last := now }

/-- Fold what remains and a new amount into a stream over a fresh period. -/
def refill (P amount duration : ℕ) (now : ℤ) (s : Stream) : Stream :=
  { s with
    rate := (amount * P + (s.finish - now).toNat * s.rate) / duration
    finish := now + duration
    last := now }

/-- The one settlement that loses stream value: nobody to pay, at or past the end. -/
def Forfeits (s : Stream) (weight : ℕ) (now : ℤ) : Prop :=
  weight = 0 ∧ s.finish ≤ now ∧ s.last < s.finish

variable (s : Stream) {w w' : ℕ} {now t : ℤ}

@[simp] theorem settle_last : (s.settle w now).last = now := by
  unfold settle
  split <;> rfl

@[simp] theorem settle_rate : (s.settle w now).rate = s.rate := by
  unfold settle
  split <;> rfl

theorem settle_pos (hw : 0 < w) : s.settle w now =
    { s with index := s.index + s.elapsed now * s.rate / w, last := now } := if_pos hw

theorem settle_zero : s.settle 0 now =
    { s with
      finish := if now < s.finish ∧ s.last < now then s.finish + (now - s.last) else s.finish
      last := now } := if_neg (lt_irrefl 0)

theorem settle_index : (s.settle w now).index = s.index + s.elapsed now * s.rate / w := by
  rcases Nat.eq_zero_or_pos w with rfl | hw
  · simp [settle_zero]
  · rw [settle_pos s hw]

theorem settle_finish_of_pos (hw : 0 < w) : (s.settle w now).finish = s.finish := by
  rw [settle_pos s hw]

theorem settle_zero_index : (s.settle 0 now).index = s.index := by
  rw [settle_zero]

theorem index_le_settle : s.index ≤ (s.settle w now).index := by
  rw [settle_index]
  exact Nat.le_add_right _ _

theorem elapsed_of_le (h : now ≤ s.last) : s.elapsed now = 0 := by
  unfold elapsed
  omega

theorem elapsed_mono (h : t ≤ now) : s.elapsed t ≤ s.elapsed now := by
  unfold elapsed
  omega

theorem settle_index_mono (h : t ≤ now) : (s.settle w t).index ≤ (s.settle w now).index := by
  rw [settle_index, settle_index]
  exact Nat.add_le_add_left (Nat.div_le_div_right (Nat.mul_le_mul_right _ (elapsed_mono s h))) _

theorem settle_of_last (h : s.last = now) : s.settle w now = s := by
  rcases Nat.eq_zero_or_pos w with rfl | hw
  · subst h
    simp [settle_zero]
  · rw [settle_pos s hw, elapsed_of_le s h.ge]
    subst h
    simp

theorem settle_settle : (s.settle w now).settle w' now = s.settle w now :=
  settle_of_last _ (settle_last s)

theorem settle_remaining (hw : 0 < w) (h : s.last ≤ now) :
    (s.settle w now).remaining + s.elapsed now * s.rate = s.remaining := by
  rw [settle_pos s hw]
  unfold remaining elapsed
  rw [← Nat.add_mul]
  congr 1
  dsimp only
  omega

theorem settle_zero_remaining_le (h : s.last ≤ now) :
    (s.settle 0 now).remaining ≤ s.remaining := by
  rw [settle_zero]
  unfold remaining
  apply Nat.mul_le_mul_right
  dsimp only
  split <;> omega

theorem settle_remaining_le (h : s.last ≤ now) : (s.settle w now).remaining ≤ s.remaining := by
  rcases Nat.eq_zero_or_pos w with rfl | hw
  · exact settle_zero_remaining_le s h
  · have hmoved := settle_remaining s hw h
    omega

theorem settle_zero_remaining (h : s.last ≤ now) (hf : ¬ s.Forfeits 0 now) :
    (s.settle 0 now).remaining = s.remaining := by
  have hne : now < s.finish ∨ s.finish ≤ s.last := by
    by_contra hc
    exact hf ⟨rfl, by omega, by omega⟩
  rw [settle_zero]
  unfold remaining
  congr 1
  dsimp only
  split <;> omega

theorem settle_index_add_remaining_le (h : s.last ≤ now) :
    (s.settle w now).index + (s.settle w now).remaining ≤ s.index + s.remaining := by
  rcases Nat.eq_zero_or_pos w with rfl | hw
  · have := settle_zero_remaining_le s h
    simp only [settle_index, Nat.div_zero]
    omega
  · have hr := settle_remaining s hw h
    have hd := Nat.div_le_self (s.elapsed now * s.rate) w
    rw [settle_index]
    omega

theorem settle_span_le (h : s.last ≤ now) :
    (s.settle w now).finish - (s.settle w now).last ≤ s.finish - s.last := by
  rcases Nat.eq_zero_or_pos w with rfl | hw
  · rw [settle_zero]
    dsimp only
    split <;> omega
  · rw [settle_pos s hw]
    dsimp only
    omega

section Refill
variable (P amount : ℕ) {d : ℕ}

@[simp] theorem refill_last : (s.refill P amount d now).last = now := rfl

@[simp] theorem refill_index : (s.refill P amount d now).index = s.index := rfl

theorem refill_remaining :
    (s.refill P amount d now).remaining =
      d * ((amount * P + (s.finish - now).toNat * s.rate) / d) := by
  unfold refill remaining
  dsimp only
  congr 1
  omega

theorem refill_remaining_le (h : s.last = now) :
    (s.refill P amount d now).remaining ≤ amount * P + s.remaining := by
  subst h
  rw [refill_remaining]
  exact Nat.mul_div_le _ _

/-- A refill drops less than one scaled unit a second. -/
theorem le_refill_remaining (h : s.last = now) (hd : 0 < d) :
    amount * P + s.remaining ≤ (s.refill P amount d now).remaining + d := by
  subst h
  rw [refill_remaining]
  have hlt := Nat.lt_mul_div_succ (amount * P + (s.finish - s.last).toNat * s.rate) hd
  rw [Nat.mul_succ] at hlt
  exact hlt.le

/-- Refills of one instant, one after another. -/
def refillEach (d : ℕ) (now : ℤ) (s : Stream) (amounts : List ℕ) : Stream :=
  amounts.foldl (fun s amount => s.refill P amount d now) s

theorem refill_of_finish (hd : 0 < d) (h : s.finish = now + d) :
    s.refill P amount d now = { s with rate := s.rate + amount * P / d, last := now } := by
  have hspan : (s.finish - now).toNat = d := by omega
  have hrate : (amount * P + d * s.rate) / d = s.rate + amount * P / d := by
    rw [Nat.add_mul_div_left _ _ hd, add_comm]
  rw [refill, hspan, hrate, h]

theorem refillEach_eq (hd : 0 < d) (rest : List ℕ) :
    s.refillEach P d now (amount :: rest) =
      { s.refill P amount d now with
        rate := (s.refill P amount d now).rate + (rest.map fun b => b * P / d).sum } := by
  rw [refillEach, List.foldl_cons]
  induction rest using List.reverseRecOn with
  | nil => rfl
  | append_singleton rest b ih =>
      rw [List.foldl_append, ih, List.foldl_cons, List.foldl_nil, refill_of_finish _ P b hd rfl,
        List.map_append, List.sum_append, List.map_singleton, List.sum_singleton, ← add_assoc]
      rfl

end Refill

/-- Floors of the parts against the floor of the sum: each part may lose one unit. -/
theorem div_add_sum_div (P d x : ℕ) (l : List ℕ) :
    x / d + (l.map fun b => b * P / d).sum ≤ (x + l.sum * P) / d ∧
      (x + l.sum * P) / d ≤ x / d + (l.map fun b => b * P / d).sum + l.length := by
  induction l generalizing x with
  | nil => simp
  | cons b l ih =>
      obtain ⟨hle, hge⟩ := ih (x + b * P)
      have hlow : x / d + b * P / d ≤ (x + b * P) / d := Nat.div_add_div_le_add_div
      have hhigh := Nat.add_div_le_div_add_div_add_one x (b * P) d
      have hsum : x + (b :: l).sum * P = x + b * P + l.sum * P := by
        rw [List.sum_cons, Nat.add_mul, Nat.add_assoc]
      rw [hsum, List.map_cons, List.sum_cons, List.length_cons]
      omega

/-- Refilling amount by amount against refilling the sum at once: the same stream, but for
a rate lower by at most one unit for each amount after the first. -/
theorem refillEach_sum (P : ℕ) (now : ℤ) {d : ℕ} (hd : 0 < d) (amount : ℕ) (rest : List ℕ) :
    (s.refillEach P d now (amount :: rest)).finish =
        (s.refill P (amount :: rest).sum d now).finish ∧
      (s.refillEach P d now (amount :: rest)).last =
        (s.refill P (amount :: rest).sum d now).last ∧
      (s.refillEach P d now (amount :: rest)).index =
        (s.refill P (amount :: rest).sum d now).index ∧
      (s.refillEach P d now (amount :: rest)).rate ≤
        (s.refill P (amount :: rest).sum d now).rate ∧
      (s.refill P (amount :: rest).sum d now).rate ≤
        (s.refillEach P d now (amount :: rest)).rate + rest.length := by
  rw [refillEach_eq s P amount hd]
  refine ⟨rfl, rfl, rfl, ?_⟩
  obtain ⟨hle, hge⟩ :=
    div_add_sum_div P d (amount * P + (s.finish - now).toNat * s.rate) rest
  have hsum : (amount :: rest).sum * P + (s.finish - now).toNat * s.rate =
      amount * P + (s.finish - now).toNat * s.rate + rest.sum * P := by
    rw [List.sum_cons]
    ring
  simp only [refill, hsum]
  exact ⟨hle, hge⟩

end Stream
end Accrual
