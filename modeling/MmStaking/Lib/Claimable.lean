import MmStaking.Lib.Accounting

/-! What a holder could claim at a time: its accrued reward once stream and holder are
settled then. No act of others lowers it, and only an exit of another holder raises it. -/
namespace Accrual.Book
variable {ι : Type*} [DecidableEq ι] (P : ℕ)

/-- The accrued reward of `v` after settling everything at `now`. -/
def claimable (v : ι) (now : ℤ) (b : Book ι) : ℕ :=
  ((b.holder v).settle P (b.stream.settle b.total.toNat now).index).accrued

/-- What `v` was paid and could claim at `now`. -/
def worth (v : ι) (now : ℤ) (b : Book ι) : ℕ := b.claimed v + b.claimable P v now

/-- Acts of an instruction at `now` on an open stream: what comes after a settlement
finds the stream settled. -/
def Timely (now : ℤ) (b : Book ι) : Act ι → Prop
  | .settle t | .refill _ _ t => t = now
  | .checkpoint _ | .grow _ _ | .shrink _ _ => b.stream.last = now
  | .take _ | .exit _ => True
  | .enroll _ => False

variable {P} {v : ι} {now t : ℤ} {b : Book ι}

omit [DecidableEq ι] in
theorem claimable_mono (h : t ≤ now) : b.claimable P v t ≤ b.claimable P v now :=
  Nat.add_le_add_left (Nat.div_le_div_right (Nat.mul_le_mul_left _
    (Nat.sub_le_sub_right (Stream.settle_index_mono b.stream h) _))) _

omit [DecidableEq ι] in
theorem claimable_of_last (h : b.stream.last = now) :
    b.claimable P v now = ((b.holder v).settle P b.stream.index).accrued := by
  rw [claimable, Stream.settle_of_last b.stream h]

omit [DecidableEq ι] in
theorem settle_accrued_of_paid {h : Holder} {index : ℕ} (hp : h.paid = index) :
    (h.settle P index).accrued = h.accrued := by
  simp [Holder.settle, hp]

theorem claimable_weight {u : ι} (hl : b.stream.last = now)
    (hu : (b.holder u).paid = b.stream.index) (w : ℕ) (total : ℤ) :
    ({ b.setHolder u { b.holder u with weight := w } with total := total } : Book ι).claimable
      P v now = b.claimable P v now := by
  rw [claimable_of_last hl, claimable_of_last (b := { b.setHolder u _ with total := total }) hl]
  by_cases huv : v = u
  · subst huv
    rw [settle_accrued_of_paid hu]
    simp only [setHolder_holder, Function.update_self]
    exact settle_accrued_of_paid hu
  · simp [huv]

theorem settle_index_weight {s : Stream} {w w' : ℕ} (hw : 0 < w') (h : w' ≤ w) :
    (s.settle w now).index ≤ (s.settle w' now).index := by
  rw [Stream.settle_index, Stream.settle_index]
  exact Nat.add_le_add_left (Nat.div_le_div_left h hw) _

variable [Fintype ι]

theorem claimable_exit (hb : b.Sound) {u : ι} (hu : v ≠ u) :
    b.claimable P v now ≤ (b.apply P (.exit u)).claimable P v now := by
  have hsound : (b.apply P (.exit u)).Sound := hb.apply trivial
  have hholder : (b.apply P (.exit u)).holder v = b.holder v := by simp [Book.apply, hu]
  unfold claimable
  rw [hholder]
  rcases Nat.eq_zero_or_pos (b.holder v).weight with h0 | hpos
  · simp [Holder.settle, h0]
  · have hle := hsound.weight_le v
    rw [hholder] at hle
    have htotal : (b.apply P (.exit u)).total.toNat ≤ b.total.toNat :=
      Int.toNat_le_toNat (by simp only [Book.apply]; omega)
    have hidx : (b.stream.settle b.total.toNat now).index ≤
        ((b.apply P (.exit u)).stream.settle (b.apply P (.exit u)).total.toNat now).index :=
      settle_index_weight (s := b.stream) (hpos.trans_le hle) htotal
    exact Nat.add_le_add_left (Nat.div_le_div_right (Nat.mul_le_mul_left _
      (Nat.sub_le_sub_right hidx _))) _

/-- Except by its own exit nothing is taken from a holder, and only the exit of another
holder changes what it was paid and could claim. -/
theorem worth_apply (hb : b.Sound) {a : Act ι} (ha : b.Allowed a) (ht : b.Timely now a)
    (hexit : a ≠ .exit v) : b.worth P v now ≤ (b.apply P a).worth P v now ∧
      ((∀ u, a ≠ .exit u) → (b.apply P a).worth P v now = b.worth P v now) := by
  have hsame : (b.apply P a).worth P v now = b.worth P v now →
      b.worth P v now ≤ (b.apply P a).worth P v now ∧
        ((∀ u, a ≠ .exit u) → (b.apply P a).worth P v now = b.worth P v now) :=
    fun h => ⟨h.ge, fun _ => h⟩
  cases a with
  | settle t =>
      have hnow : t = now := ht
      subst hnow
      refine hsame (congrArg (b.claimed v + ·) ?_)
      simp only [claimable, Book.apply, Stream.settle_settle]
  | checkpoint u =>
      have hl : b.stream.last = now := ht
      refine hsame (congrArg (b.claimed v + ·) ?_)
      rw [claimable_of_last hl, claimable_of_last (b := b.apply P (.checkpoint u)) hl]
      by_cases hu : v = u
      · subst hu
        simp [Book.apply, Holder.settle_settle]
      · simp [Book.apply, hu]
  | grow u n => exact hsame (congrArg (b.claimed v + ·) (claimable_weight ht ha _ _))
  | shrink u n => exact hsame (congrArg (b.claimed v + ·) (claimable_weight ht ha.1 _ _))
  | refill n d t =>
      have hnow : t = now := ht
      have hl : b.stream.last = now := ha.1.trans hnow
      refine hsame (congrArg (b.claimed v + ·) ?_)
      rw [claimable_of_last hl, claimable_of_last (b := b.apply P (.refill n d t)) hnow]
      rfl
  | take u =>
      refine hsame ?_
      by_cases hu : v = u
      · subst hu
        simp only [worth, claimable, Book.apply, setHolder_holder, setHolder_stream,
          setHolder_total, Function.update_self, Holder.settle]
        omega
      · simp [worth, claimable, Book.apply, hu]
  | exit u =>
      have hu : v ≠ u := fun h => hexit (by rw [h])
      exact ⟨Nat.add_le_add_left (claimable_exit hb hu) _, fun h => absurd rfl (h u)⟩
  | enroll t => exact absurd ht id

/-- The acts of one time, of others or of `v` itself short of its exit. -/
theorem worth_run {l : List (Act ι)} (hb : b.Sound)
    (hl : Along P (fun b a => b.Allowed a ∧ b.Timely now a) b l) (hexit : .exit v ∉ l) :
    b.worth P v now ≤ (b.run P l).worth P v now ∧
      ((∀ u, .exit u ∉ l) → (b.run P l).worth P v now = b.worth P v now) := by
  induction l generalizing b with
  | nil => exact ⟨le_rfl, fun _ => rfl⟩
  | cons a l ih =>
      obtain ⟨⟨ha, ht⟩, hrest⟩ := hl
      obtain ⟨hle, heq⟩ := worth_apply (P := P) (v := v) hb ha ht
        fun h => hexit (h ▸ List.mem_cons_self)
      obtain ⟨hle', heq'⟩ := ih (hb.apply ha) hrest fun h => hexit (List.mem_cons_of_mem a h)
      refine ⟨hle.trans hle', ?_⟩
      intro hno
      rw [run_cons, heq' fun u h => hno u (List.mem_cons_of_mem a h)]
      exact heq fun u h => hno u (h ▸ List.mem_cons_self)

omit [Fintype ι] in
theorem run_claimed {l : List (Act ι)} (h : .take v ∉ l) :
    (b.run P l).claimed v = b.claimed v := by
  induction l generalizing b with
  | nil => rfl
  | cons a l ih =>
      rw [run_cons, ih fun hm => h (List.mem_cons_of_mem a hm)]
      cases a with
      | take u =>
          have hu : v ≠ u := fun e => h (e ▸ List.mem_cons_self)
          simp [Book.apply, hu]
      | _ => rfl

end Accrual.Book
