import MmStaking.Lib.Book

/-! Acts at one time commute. An act on a holder and an act on another holder, or on the
terms of the stream, touch different parts of the book and meet only in the index, which
neither moves; and of the settlements before them only the first counts. -/
namespace Accrual

/-- The act moves the holder `v` alone or, at `none`, the terms of the stream alone. -/
def Act.Moves {ι : Type*} : Option ι → Act ι → Prop
  | some v, .checkpoint u | some v, .grow u _ | some v, .shrink u _ | some v, .take u => u = v
  | none, .refill _ _ _ => True
  | _, _ => False

namespace Book
variable {ι : Type*} [DecidableEq ι] (P : ℕ)

/-- Replace one holder, with what it adds to the total and what it is paid. -/
def post (b : Book ι) (v : ι) (h : Holder) (growth : ℤ) (payout : ℕ) : Book ι :=
  { b.setHolder v h with
    total := b.total + growth
    vault := b.vault - payout
    claimed := Function.update b.claimed v (b.claimed v + payout) }

theorem post_comm {u v : ι} (huv : u ≠ v) (b : Book ι) (h h' : Holder) (g g' : ℤ) (p p' : ℕ) :
    (b.post u h g p).post v h' g' p' = (b.post v h' g' p').post u h g p := by
  apply Book.ext
  · rfl
  · exact Function.update_comm huv _ _ _
  · exact add_right_comm _ _ _
  · exact sub_right_comm _ _ _
  · rfl
  · simp only [post, Function.update_of_ne huv, Function.update_of_ne huv.symm]
    exact Function.update_comm huv _ _ _

theorem apply_eq_post {v : ι} {a : Act ι} (ha : a.Moves (some v)) :
    ∃ (f : ℕ → Holder → Holder) (g : ℤ) (p : Holder → ℕ), ∀ b : Book ι,
      b.apply P a = b.post v (f b.stream.index (b.holder v)) g (p (b.holder v)) := by
  cases a with
  | checkpoint u =>
      obtain rfl : u = v := ha
      refine ⟨fun index h => h.settle P index, 0, fun _ => 0, ?_⟩
      intro b
      simp [apply, post, setHolder]
  | grow u n =>
      obtain rfl : u = v := ha
      refine ⟨fun _ h => { h with weight := h.weight + n }, n, fun _ => 0, ?_⟩
      intro b
      simp [apply, post, setHolder]
  | shrink u n =>
      obtain rfl : u = v := ha
      refine ⟨fun _ h => { h with weight := h.weight - n }, -n, fun _ => 0, ?_⟩
      intro b
      simp [apply, post, setHolder, sub_eq_add_neg]
  | take u =>
      obtain rfl : u = v := ha
      refine ⟨fun _ h => { h with accrued := 0 }, 0, Holder.accrued, ?_⟩
      intro b
      simp [apply, post, setHolder]
  | settle t => cases ha
  | refill n d t => cases ha
  | exit u => cases ha
  | enroll t => cases ha

/-- Acts that move different things commute. -/
theorem apply_comm {x y : Option ι} (hxy : x ≠ y) {a a' : Act ι} (ha : a.Moves x)
    (ha' : a'.Moves y) (b : Book ι) :
    (b.apply P a).apply P a' = (b.apply P a').apply P a := by
  have hstream : ∀ {v : ι} {a : Act ι} {n d : ℕ} {t : ℤ}, a.Moves (some v) →
      (b.apply P a).apply P (.refill n d t) = (b.apply P (.refill n d t)).apply P a := by
    intro v a n d t hv
    obtain ⟨f, g, p, hpost⟩ := apply_eq_post P hv
    rw [hpost, hpost]
    apply Book.ext <;> try rfl
    exact sub_add_eq_add_sub _ _ _
  cases x with
  | none =>
      cases y with
      | none => exact absurd rfl hxy
      | some v =>
          cases a with
          | refill n d t => exact (hstream ha').symm
          | _ => cases ha
  | some u =>
      cases y with
      | none =>
          cases a' with
          | refill n d t => exact hstream ha
          | _ => cases ha'
      | some v =>
          have huv : u ≠ v := fun h => hxy (congrArg some h)
          obtain ⟨f, g, p, hpost⟩ := apply_eq_post P ha
          obtain ⟨f', g', p', hpost'⟩ := apply_eq_post P ha'
          rw [hpost, hpost', hpost', hpost, post_comm huv]
          simp [post, huv, huv.symm]

variable {P}

theorem run_comm {l l' : List (Act ι)}
    (h : ∀ a ∈ l, ∀ a' ∈ l', ∀ b : Book ι, (b.apply P a).apply P a' = (b.apply P a').apply P a)
    (b : Book ι) : (b.run P l).run P l' = (b.run P l').run P l := by
  have hone : ∀ a ∈ l, ∀ b : Book ι, (b.apply P a).run P l' = (b.run P l').apply P a := by
    intro a ha b
    have hcomm := h a ha
    clear h
    induction l' generalizing b with
    | nil => rfl
    | cons a' l' ih =>
        rw [run_cons, hcomm a' List.mem_cons_self, run_cons]
        exact ih (b.apply P a') fun x hx => hcomm x (List.mem_cons_of_mem a' hx)
  induction l generalizing b with
  | nil => rfl
  | cons a l ih =>
      rw [run_cons, run_cons, ← hone a List.mem_cons_self]
      exact ih (fun x hx => h x (List.mem_cons_of_mem a hx)) _
        fun x hx => hone x (List.mem_cons_of_mem a hx)

theorem apply_settle_of_last {now : ℤ} {b : Book ι} (h : b.stream.last = now) :
    b.apply P (.settle now) = b := by
  simp only [apply, Stream.settle_of_last b.stream h]

/-- Two lists of acts of one time, each after a settlement, commute if they do without. -/
theorem run_settled_comm {now : ℤ} {l l' : List (Act ι)} (hl : ∀ a ∈ l, a.At now)
    (hl' : ∀ a ∈ l', a.At now)
    (h : ∀ b : Book ι, (b.run P l).run P l' = (b.run P l').run P l) (b : Book ι) :
    (b.run P (.settle now :: l)).run P (.settle now :: l') =
      (b.run P (.settle now :: l')).run P (.settle now :: l) := by
  have hlast : ∀ m : List (Act ι), (∀ a ∈ m, a.At now) →
      ((b.apply P (.settle now)).run P m).stream.last = now := by
    intro m hm
    rcases run_last (P := P) (b := b.apply P (.settle now)) hm with hr | hr
    · rw [hr]
      exact Stream.settle_last _
    · exact hr
  rw [run_cons, run_cons, run_cons, run_cons, apply_settle_of_last (hlast l hl),
    apply_settle_of_last (hlast l' hl'), h]

end Book
end Accrual
