import Mathlib.Algebra.BigOperators.Group.Finset.Piecewise
import Mathlib.Algebra.BigOperators.Ring.Finset
import Mathlib.Algebra.Order.BigOperators.Group.Finset
import MmStaking.Lib.Stream

/-! One stream shared by a family of weighted holders. A holder keeps the index at
which it was last settled, so that what it is owed is its accrued reward plus its
weight times the index gap. The book moves by small acts, from which any operation
that settles before it changes a weight is composed. -/
namespace Accrual

structure Holder where
  weight : ℕ
  paid : ℕ
  accrued : ℕ

namespace Holder
variable (P index : ℕ) (h : Holder)

/-- What the holder is owed at `index`, in scaled units. -/
def owed : ℕ := P * h.accrued + h.weight * (index - h.paid)

def settle : Holder :=
  { h with accrued := h.accrued + h.weight * (index - h.paid) / P, paid := index }

@[simp] theorem settle_weight : (h.settle P index).weight = h.weight := rfl
@[simp] theorem settle_paid : (h.settle P index).paid = index := rfl

theorem owed_settle : (h.settle P index).owed P index =
    P * h.accrued + P * (h.weight * (index - h.paid) / P) := by
  simp [owed, settle, Nat.mul_add]

/-- Settling rounds down, for the benefit of the vault. -/
theorem owed_settle_le : (h.settle P index).owed P index ≤ h.owed P index := by
  rw [owed_settle]
  exact Nat.add_le_add_left (Nat.mul_div_le _ _) _

theorem owed_lt_settle (hP : 0 < P) :
    h.owed P index < (h.settle P index).owed P index + P := by
  rw [owed_settle]
  have hlt := Nat.lt_mul_div_succ (h.weight * (index - h.paid)) hP
  rw [Nat.mul_succ] at hlt
  unfold owed
  omega

theorem settle_settle : (h.settle P index).settle P index = h.settle P index := by
  simp [settle]

variable {index}

theorem owed_of_paid {h : Holder} (hp : h.paid = index) : h.owed P index = P * h.accrued := by
  simp [owed, hp]

theorem owed_index_add {h : Holder} (hp : h.paid ≤ index) (d : ℕ) :
    h.owed P (index + d) = h.owed P index + h.weight * d := by
  unfold owed
  rw [Nat.sub_add_comm hp, Nat.mul_add, Nat.add_assoc]

end Holder

/-- The book also counts what came in and what was paid out. -/
@[ext] structure Book (ι : Type*) where
  stream : Stream
  holder : ι → Holder
  total : ℤ
  vault : ℤ
  deposited : ℕ
  claimed : ι → ℕ

/-- The acts. `enroll` opens the stream of a book whose index never moved. -/
inductive Act (ι : Type*)
  | settle (now : ℤ)
  | checkpoint (v : ι)
  | grow (v : ι) (amount : ℕ)
  | shrink (v : ι) (amount : ℕ)
  | refill (amount duration : ℕ) (now : ℤ)
  | take (v : ι)
  | exit (v : ι)
  | enroll (now : ℤ)

/-- The act carries the time `now`, when it carries one. -/
def Act.At {ι : Type*} (now : ℤ) : Act ι → Prop
  | .settle t | .refill _ _ t | .enroll t => t = now
  | .checkpoint _ | .grow _ _ | .shrink _ _ | .take _ | .exit _ => True

/-- A stream opened or refilled by the act ends no later than `B` after its start. -/
def Act.Within {ι : Type*} (B : ℤ) : Act ι → Prop
  | .refill _ d _ => d ≤ B
  | .enroll now => 0 ≤ now
  | .settle _ | .checkpoint _ | .grow _ _ | .shrink _ _ | .take _ | .exit _ => True

namespace Book

section Sound
variable {ι : Type*} [Fintype ι]

/-- The total is the sum of the weights and no holder is ahead of the index. -/
structure Sound (b : Book ι) : Prop where
  total_eq : b.total = ∑ v, ((b.holder v).weight : ℤ)
  paid_le : ∀ v, (b.holder v).paid ≤ b.stream.index

theorem Sound.total_toNat {b : Book ι} (hb : b.Sound) :
    b.total.toNat = ∑ v, (b.holder v).weight := by
  rw [hb.total_eq, ← Nat.cast_sum, Int.toNat_natCast]

theorem Sound.total_nonneg {b : Book ι} (hb : b.Sound) : 0 ≤ b.total := by
  rw [hb.total_eq]
  positivity

theorem Sound.weight_le {b : Book ι} (hb : b.Sound) (v : ι) :
    (b.holder v).weight ≤ b.total.toNat := by
  rw [hb.total_toNat]
  exact Finset.single_le_sum (f := fun v => (b.holder v).weight)
    (fun _ _ => Nat.zero_le _) (Finset.mem_univ v)

theorem sum_update [DecidableEq ι] {M : Type*} [AddCommGroup M] (f : Holder → M)
    (hs : ι → Holder) (v : ι) (h : Holder) :
    ∑ u, f (Function.update hs v h u) = ∑ u, f (hs u) - f (hs v) + f h := by
  have hcomp : (fun u => f (Function.update hs v h u)) =
      Function.update (fun u => f (hs u)) v (f h) := by
    funext u
    exact Function.apply_update (fun _ => f) hs v h u
  rw [hcomp, Finset.sum_update_of_mem (Finset.mem_univ v),
    Finset.sum_eq_add_sum_sdiff_singleton_of_mem (Finset.mem_univ v) (fun u => f (hs u))]
  abel

end Sound

variable {ι : Type*} [DecidableEq ι] (P : ℕ)

def setHolder (b : Book ι) (v : ι) (h : Holder) : Book ι :=
  { b with holder := Function.update b.holder v h }

@[simp] theorem setHolder_stream (b : Book ι) (v : ι) (h : Holder) :
    (b.setHolder v h).stream = b.stream := rfl
@[simp] theorem setHolder_holder (b : Book ι) (v : ι) (h : Holder) :
    (b.setHolder v h).holder = Function.update b.holder v h := rfl
@[simp] theorem setHolder_total (b : Book ι) (v : ι) (h : Holder) :
    (b.setHolder v h).total = b.total := rfl
@[simp] theorem setHolder_vault (b : Book ι) (v : ι) (h : Holder) :
    (b.setHolder v h).vault = b.vault := rfl
@[simp] theorem setHolder_deposited (b : Book ι) (v : ι) (h : Holder) :
    (b.setHolder v h).deposited = b.deposited := rfl
@[simp] theorem setHolder_claimed (b : Book ι) (v : ι) (h : Holder) :
    (b.setHolder v h).claimed = b.claimed := rfl

def apply (b : Book ι) : Act ι → Book ι
  | .settle now => { b with stream := b.stream.settle b.total.toNat now }
  | .checkpoint v => b.setHolder v ((b.holder v).settle P b.stream.index)
  | .grow v a =>
      { b.setHolder v { b.holder v with weight := (b.holder v).weight + a } with
        total := b.total + a }
  | .shrink v a =>
      { b.setHolder v { b.holder v with weight := (b.holder v).weight - a } with
        total := b.total - a }
  | .refill a d now =>
      { b with
        stream := b.stream.refill P a d now
        vault := b.vault + a
        deposited := b.deposited + a }
  | .take v =>
      { b.setHolder v { b.holder v with accrued := 0 } with
        vault := b.vault - (b.holder v).accrued
        claimed := Function.update b.claimed v (b.claimed v + (b.holder v).accrued) }
  | .exit v =>
      { b.setHolder v { weight := 0, paid := b.stream.index, accrued := 0 } with
        total := b.total - (b.holder v).weight }
  | .enroll now => { b with stream := { rate := 0, index := 0, finish := 0, last := now } }

/-- When an act may be taken: time runs forward, and a weight only changes for a
holder whose index gap is closed. -/
def Allowed (b : Book ι) : Act ι → Prop
  | .settle now => b.stream.last ≤ now
  | .grow v _ => (b.holder v).paid = b.stream.index
  | .shrink v a => (b.holder v).paid = b.stream.index ∧ a ≤ (b.holder v).weight
  | .refill _ d now => b.stream.last = now ∧ 0 < d
  | .enroll _ => b.stream.rate = 0 ∧ b.stream.index = 0
  | .checkpoint _ | .take _ | .exit _ => True

/-- The dust an act may leave behind, in scaled units; an exit leaves all it forfeits. -/
def dust (b : Book ι) : Act ι → ℤ
  | .settle _ => b.total
  | .checkpoint _ => P
  | .refill _ d _ => d
  | .exit v => (b.holder v).owed P b.stream.index
  | .grow _ _ | .shrink _ _ | .take _ | .enroll _ => 0

/-- No stream value is lost by the act. -/
def Spares (b : Book ι) : Act ι → Prop
  | .settle now => ¬ b.stream.Forfeits b.total.toNat now
  | _ => True

def run (b : Book ι) (l : List (Act ι)) : Book ι := l.foldl (apply P) b

/-- A condition on the acts of a list, each in the book it is taken in. -/
def Along (Q : Book ι → Act ι → Prop) : Book ι → List (Act ι) → Prop
  | _, [] => True
  | b, a :: l => Q b a ∧ Along Q (b.apply P a) l

/-- The sum of a quantity over the acts of a list, each in the book it is taken in. -/
def tally {M : Type*} [AddMonoid M] (c : Book ι → Act ι → M) : Book ι → List (Act ι) → M
  | _, [] => 0
  | b, a :: l => c b a + tally c (b.apply P a) l

@[simp] theorem run_nil (b : Book ι) : b.run P [] = b := rfl

@[simp] theorem run_cons (b : Book ι) (a : Act ι) (l : List (Act ι)) :
    b.run P (a :: l) = (b.apply P a).run P l := rfl

theorem run_append (b : Book ι) (l l' : List (Act ι)) :
    b.run P (l ++ l') = (b.run P l).run P l' := List.foldl_append

theorem along_append {Q : Book ι → Act ι → Prop} {b : Book ι} {l l' : List (Act ι)} :
    Along P Q b (l ++ l') ↔ Along P Q b l ∧ Along P Q (b.run P l) l' := by
  induction l generalizing b with
  | nil => simp [Along]
  | cons a l ih => simp only [List.cons_append, Along, run_cons, ih, and_assoc]

theorem tally_append {M : Type*} [AddMonoid M] (c : Book ι → Act ι → M) (b : Book ι)
    (l l' : List (Act ι)) :
    tally P c b (l ++ l') = tally P c b l + tally P c (b.run P l) l' := by
  induction l generalizing b with
  | nil => simp [tally]
  | cons a l ih => simp only [List.cons_append, tally, run_cons, ih, add_assoc]

variable {P}

theorem Along.and {Q Q' : Book ι → Act ι → Prop} {b : Book ι} {l : List (Act ι)}
    (h : Along P Q b l) (h' : Along P Q' b l) : Along P (fun b a => Q b a ∧ Q' b a) b l := by
  induction l generalizing b with
  | nil => trivial
  | cons a l ih => exact ⟨⟨h.1, h'.1⟩, ih h.2 h'.2⟩

theorem Along.mono {Q Q' : Book ι → Act ι → Prop} (hQ : ∀ b a, Q b a → Q' b a) {b : Book ι}
    {l : List (Act ι)} (h : Along P Q b l) : Along P Q' b l := by
  induction l generalizing b with
  | nil => trivial
  | cons a l ih => exact ⟨hQ b a h.1, ih h.2⟩

theorem along_of_forall {Q : Act ι → Prop} {l : List (Act ι)} (h : ∀ a ∈ l, Q a) (b : Book ι) :
    Along P (fun _ a => Q a) b l := by
  induction l generalizing b with
  | nil => trivial
  | cons a l ih =>
      exact ⟨h a List.mem_cons_self, ih (fun x hx => h x (List.mem_cons_of_mem a hx)) _⟩

theorem tally_eq_zero {M : Type*} [AddMonoid M] {c : Book ι → Act ι → M} {l : List (Act ι)}
    (h : ∀ b, ∀ a ∈ l, c b a = 0) (b : Book ι) : tally P c b l = 0 := by
  induction l generalizing b with
  | nil => rfl
  | cons a l ih =>
      rw [tally, h b a List.mem_cons_self, zero_add]
      exact ih (fun b x hx => h b x (List.mem_cons_of_mem a hx)) _

theorem run_last {now : ℤ} {b : Book ι} {l : List (Act ι)} (h : ∀ a ∈ l, a.At now) :
    (b.run P l).stream.last = b.stream.last ∨ (b.run P l).stream.last = now := by
  induction l generalizing b with
  | nil => exact .inl rfl
  | cons a l ih =>
      have hone : (b.apply P a).stream.last = b.stream.last ∨ (b.apply P a).stream.last = now := by
        have ha := h a List.mem_cons_self
        cases a with
        | settle t => exact .inr ((Stream.settle_last _).trans ha)
        | refill n d t => exact .inr ha
        | enroll t => exact .inr ha
        | checkpoint v => exact .inl rfl
        | grow v n => exact .inl rfl
        | shrink v n => exact .inl rfl
        | take v => exact .inl rfl
        | exit v => exact .inl rfl
      rcases ih (b := b.apply P a) fun a ha => h a (List.mem_cons_of_mem _ ha) with hl | hl
      · rw [run_cons, hl]
        exact hone
      · exact .inr hl

theorem run_invariant {I : Book ι → Prop} {Q : Book ι → Act ι → Prop}
    (hstep : ∀ b a, I b → Q b a → I (b.apply P a)) {b : Book ι} {l : List (Act ι)}
    (hb : I b) (hl : Along P Q b l) : I (b.run P l) := by
  induction l generalizing b with
  | nil => exact hb
  | cons a l ih => exact ih (hstep b a hb hl.1) hl.2

theorem idle_run {v : ι} {b : Book ι} {l : List (Act ι)} (hw : (b.holder v).weight = 0)
    (ha : (b.holder v).accrued = 0) (hl : ∀ n, .grow v n ∉ l) :
    ((b.run P l).holder v).weight = 0 ∧ ((b.run P l).holder v).accrued = 0 ∧
      (b.run P l).claimed v = b.claimed v := by
  have halong : Along P (fun _ a => ∀ n, a ≠ .grow v n) b l := by
    refine along_of_forall ?_ b
    intro a hmem n hgrow
    exact hl n (hgrow ▸ hmem)
  refine run_invariant (I := fun b' => (b'.holder v).weight = 0 ∧ (b'.holder v).accrued = 0 ∧
    b'.claimed v = b.claimed v) ?_ ⟨hw, ha, rfl⟩ halong
  intro b' a ⟨hw, ha, hc⟩ hgrow
  cases a with
  | settle now => exact ⟨hw, ha, hc⟩
  | refill n d now => exact ⟨hw, ha, hc⟩
  | enroll now => exact ⟨hw, ha, hc⟩
  | checkpoint u =>
      by_cases hu : v = u
      · subst hu
        simp [apply, Holder.settle, hw, ha, hc]
      · simp [apply, hu, hw, ha, hc]
  | grow u n =>
      have hu : v ≠ u := fun e => hgrow n (by rw [e])
      simp [apply, hu, hw, ha, hc]
  | shrink u n =>
      by_cases hu : v = u
      · subst hu
        simp [apply, hw, ha, hc]
      · simp [apply, hu, hw, ha, hc]
  | take u =>
      by_cases hu : v = u
      · subst hu
        simp [apply, hw, ha, hc]
      · simp [apply, hu, hw, ha, hc]
  | exit u =>
      by_cases hu : v = u
      · subst hu
        simp [apply, hc]
      · simp [apply, hu, hw, ha, hc]

/-- A quantity that grows at each act by at most its cost grows by at most the tally. -/
theorem run_potential_le {M : Type*} [AddCommMonoid M] [PartialOrder M] [IsOrderedAddMonoid M]
    {I : Book ι → Prop} {Q : Book ι → Act ι → Prop} {φ : Book ι → M}
    {c : Book ι → Act ι → M}
    (hstep : ∀ b a, I b → Q b a → I (b.apply P a))
    (hφ : ∀ b a, I b → Q b a → φ (b.apply P a) ≤ φ b + c b a) {b : Book ι}
    {l : List (Act ι)} (hb : I b) (hl : Along P Q b l) :
    φ (b.run P l) ≤ φ b + tally P c b l := by
  induction l generalizing b with
  | nil => simp [tally]
  | cons a l ih =>
      calc φ (b.run P (a :: l)) ≤ φ (b.apply P a) + tally P c (b.apply P a) l :=
            ih (hstep b a hb hl.1) hl.2
        _ ≤ (φ b + c b a) + tally P c (b.apply P a) l := add_le_add_left (hφ b a hb hl.1) _
        _ = φ b + tally P c b (a :: l) := by rw [tally, add_assoc]

end Book
end Accrual
