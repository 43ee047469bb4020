import MmStaking.Lib.Book

/-! What every act keeps. The slack of a book is its vault less all it owes and all
it has still to stream: no act lowers it, and unless stream value is forfeited an
act raises it by no more than its dust. The index never outgrows what came in. -/
namespace Accrual.Book
variable {ι : Type*} [DecidableEq ι] {P : ℕ}

section Sound
variable [Fintype ι]

/-- Putting a holder no further ahead than the index keeps a book sound, once the
total follows the weight. -/
theorem Sound.setHolder {b : Book ι} (hb : b.Sound) (v : ι) {h : Holder} {t : ℤ}
    (hp : h.paid ≤ b.stream.index) (ht : t = b.total - (b.holder v).weight + h.weight) :
    ({ b.setHolder v h with total := t } : Book ι).Sound := by
  constructor
  · have hsum := sum_update (fun h => (h.weight : ℤ)) b.holder v h
    rw [← hb.total_eq, ← ht] at hsum
    exact hsum.symm
  · exact (Function.forall_update_iff b.holder fun _ (h : Holder) => h.paid ≤ b.stream.index).mpr
      ⟨hp, fun u _ => hb.paid_le u⟩

theorem Sound.apply {b : Book ι} (hb : b.Sound) {a : Act ι} (ha : b.Allowed a) :
    (b.apply P a).Sound := by
  cases a with
  | settle now =>
      exact ⟨hb.total_eq, fun v => (hb.paid_le v).trans (Stream.index_le_settle _)⟩
  | checkpoint v => exact hb.setHolder v le_rfl (by simp)
  | grow v n => exact hb.setHolder v (hb.paid_le v) (by push_cast; ring)
  | shrink v n => exact hb.setHolder v (hb.paid_le v) (by rw [Nat.cast_sub ha.2]; ring)
  | refill n d now => exact ⟨hb.total_eq, hb.paid_le⟩
  | take v =>
      have h := hb.setHolder v (h := { b.holder v with accrued := 0 }) (t := b.total)
        (hb.paid_le v) (by simp)
      exact ⟨h.total_eq, h.paid_le⟩
  | exit v => exact hb.setHolder v le_rfl (by simp)
  | enroll now =>
      refine ⟨hb.total_eq, ?_⟩
      intro v
      have hp := hb.paid_le v
      rwa [ha.2] at hp

theorem Sound.run {b : Book ι} (hb : b.Sound) {l : List (Act ι)}
    (hl : Along P Allowed b l) : (b.run P l).Sound :=
  run_invariant (fun _ _ h ha => h.apply ha) hb hl

variable (P) in
/-- All that is owed to the holders, in scaled units. -/
def owing (b : Book ι) : ℤ := ∑ v, ((b.holder v).owed P b.stream.index : ℤ)

omit [DecidableEq ι] in
theorem owed_le_owing (b : Book ι) (v : ι) :
    ((b.holder v).owed P b.stream.index : ℤ) ≤ b.owing P :=
  Finset.single_le_sum (f := fun v => ((b.holder v).owed P b.stream.index : ℤ))
    (fun _ _ => Nat.cast_nonneg _) (Finset.mem_univ v)

theorem owing_setHolder (b : Book ι) (v : ι) (h : Holder) :
    (b.setHolder v h).owing P =
      b.owing P - (b.holder v).owed P b.stream.index + h.owed P b.stream.index :=
  sum_update (fun h => ((h.owed P b.stream.index : ℕ) : ℤ)) b.holder v h

/-- Settling hands every holder its weight times the index gain. -/
theorem owing_settle {b : Book ι} (hb : b.Sound) (now : ℤ) :
    (b.apply P (.settle now)).owing P = b.owing P +
      (b.total.toNat * (b.stream.elapsed now * b.stream.rate / b.total.toNat) : ℕ) := by
  have hpoint : ∀ v, ((b.holder v).owed P (b.stream.settle b.total.toNat now).index : ℤ) =
      (b.holder v).owed P b.stream.index +
        (b.holder v).weight * ((b.stream.elapsed now * b.stream.rate / b.total.toNat : ℕ) : ℤ) := by
    intro v
    rw [Stream.settle_index, Holder.owed_index_add P (hb.paid_le v)]
    push_cast
    rfl
  have hweight : ∑ v, ((b.holder v).weight : ℤ) = b.total.toNat := by
    rw [hb.total_toNat, Nat.cast_sum]
  unfold owing
  simp only [Book.apply, hpoint]
  rw [Finset.sum_add_distrib, ← Finset.sum_mul, hweight, Nat.cast_mul]

variable (P) in
/-- What the vault holds beyond everything owed and everything still to stream. -/
def slack (b : Book ι) : ℤ := P * b.vault - b.owing P - b.stream.remaining

theorem slack_setHolder (b : Book ι) (v : ι) (h : Holder) :
    (b.setHolder v h).slack P =
      b.slack P + (b.holder v).owed P b.stream.index - h.owed P b.stream.index := by
  simp only [slack, owing_setHolder, setHolder_vault, setHolder_stream]
  ring

omit [DecidableEq ι] in
theorem slack_total (b : Book ι) (t : ℤ) : ({ b with total := t } : Book ι).slack P = b.slack P :=
  rfl

theorem slack_setHolder_paid {b : Book ι} {v : ι} {h : Holder}
    (hv : (b.holder v).paid = b.stream.index) (hp : h.paid = b.stream.index)
    (ha : h.accrued = (b.holder v).accrued) : (b.setHolder v h).slack P = b.slack P := by
  rw [slack_setHolder, Holder.owed_of_paid P hv, Holder.owed_of_paid P hp, ha]
  ring

theorem slack_settle {b : Book ι} (hb : b.Sound) {now : ℤ} (h : b.stream.last ≤ now) :
    b.slack P ≤ (b.apply P (.settle now)).slack P ∧
      (¬ b.stream.Forfeits b.total.toNat now →
        (b.apply P (.settle now)).slack P ≤ b.slack P + b.total) := by
  have howing := owing_settle (P := P) hb now
  have hslack : (b.apply P (.settle now)).slack P = P * b.vault -
      (b.apply P (.settle now)).owing P - (b.stream.settle b.total.toNat now).remaining := rfl
  rcases Nat.eq_zero_or_pos b.total.toNat with h0 | hpos
  · have htotal : b.total = 0 := by have := hb.total_nonneg; omega
    rw [h0, Nat.zero_mul] at howing
    have hle := Stream.settle_zero_remaining_le b.stream h
    rw [hslack, howing, h0, htotal]
    unfold slack
    refine ⟨by omega, ?_⟩
    intro hf
    have heq := Stream.settle_zero_remaining b.stream h hf
    omega
  · have hrem := Stream.settle_remaining b.stream hpos h
    have hdiv := Nat.mul_div_le (b.stream.elapsed now * b.stream.rate) b.total.toNat
    have hlt := Nat.lt_mul_div_succ (b.stream.elapsed now * b.stream.rate) hpos
    rw [Nat.mul_succ] at hlt
    have htotal : (b.total.toNat : ℤ) = b.total := Int.toNat_of_nonneg hb.total_nonneg
    rw [hslack, howing]
    unfold slack
    generalize b.total.toNat * (b.stream.elapsed now * b.stream.rate / b.total.toNat) = x at *
    omega

/-- No act lowers the slack, and one that spares the stream raises it by at most
its dust. -/
theorem slack_apply (hP : 0 < P) {b : Book ι} (hb : b.Sound) {a : Act ι} (ha : b.Allowed a) :
    b.slack P ≤ (b.apply P a).slack P ∧
      (b.Spares a → (b.apply P a).slack P ≤ b.slack P + b.dust P a) := by
  cases a with
  | settle now => exact slack_settle hb ha
  | checkpoint v =>
      have hle := Holder.owed_settle_le P b.stream.index (b.holder v)
      have hge := Holder.owed_lt_settle P b.stream.index (b.holder v) hP
      simp only [Book.apply, slack_setHolder, dust]
      exact ⟨by omega, fun _ => by omega⟩
  | grow v n =>
      have h : (b.apply P (.grow v n)).slack P = b.slack P :=
        (slack_total _ _).trans (slack_setHolder_paid ha ha rfl)
      exact ⟨h.ge, fun _ => by simpa only [dust, add_zero] using h.le⟩
  | shrink v n =>
      have h : (b.apply P (.shrink v n)).slack P = b.slack P :=
        (slack_total _ _).trans (slack_setHolder_paid ha.1 ha.1 rfl)
      exact ⟨h.ge, fun _ => by simpa only [dust, add_zero] using h.le⟩
  | refill n d now =>
      have hle := Stream.refill_remaining_le b.stream P n (d := d) ha.1
      have hge := Stream.le_refill_remaining b.stream P n ha.1 ha.2
      have hslack : (b.apply P (.refill n d now)).slack P =
          P * (b.vault + n) - b.owing P - (b.stream.refill P n d now).remaining := rfl
      have hmul : (P : ℤ) * (b.vault + n) = P * b.vault + (n * P : ℕ) := by
        push_cast
        ring
      rw [hslack, hmul]
      simp only [dust, slack]
      exact ⟨by omega, fun _ => by omega⟩
  | take v =>
      have h := slack_setHolder (P := P) b v { b.holder v with accrued := 0 }
      have hslack : (b.apply P (.take v)).slack P =
          (b.setHolder v { b.holder v with accrued := 0 }).slack P - P * (b.holder v).accrued := by
        simp only [slack, Book.apply, setHolder_vault, setHolder_stream]
        simp only [owing, setHolder_stream]
        ring
      have howed : (b.holder v).owed P b.stream.index = P * (b.holder v).accrued +
          ({ b.holder v with accrued := 0 } : Holder).owed P b.stream.index := by
        simp [Holder.owed]
      have heq : (b.apply P (.take v)).slack P = b.slack P := by
        rw [hslack, h, howed]
        push_cast
        ring
      exact ⟨heq.ge, fun _ => by simpa only [dust, add_zero] using heq.le⟩
  | exit v =>
      have h := slack_setHolder (P := P) b v { weight := 0, paid := b.stream.index, accrued := 0 }
      have howed : ({ weight := 0, paid := b.stream.index, accrued := 0 } : Holder).owed P
          b.stream.index = 0 := by simp [Holder.owed]
      rw [howed] at h
      have heq : (b.apply P (.exit v)).slack P =
          b.slack P + (b.holder v).owed P b.stream.index := by
        rw [Nat.cast_zero, sub_zero] at h
        exact (slack_total _ _).trans h
      exact ⟨by omega, fun _ => by simpa only [dust] using heq.le⟩
  | enroll now =>
      have hrem : b.stream.remaining = 0 := by simp [Stream.remaining, ha.1]
      have heq : (b.apply P (.enroll now)).slack P = b.slack P := by
        simp only [slack, owing, Book.apply, Stream.remaining, ha.1, ha.2, Nat.mul_zero]
      exact ⟨heq.ge, fun _ => by simpa only [dust, add_zero] using heq.le⟩

/-- No list of acts lowers the slack. -/
theorem slack_le_run (hP : 0 < P) {b : Book ι} (hb : b.Sound) {l : List (Act ι)}
    (hl : Along P Allowed b l) : b.slack P ≤ (b.run P l).slack P := by
  refine (run_invariant (I := fun b' => b'.Sound ∧ b.slack P ≤ b'.slack P) ?_
    ⟨hb, le_rfl⟩ hl).2
  intro b' a hb' ha
  exact ⟨hb'.1.apply ha, hb'.2.trans (slack_apply hP hb'.1 ha).1⟩

omit [DecidableEq ι] in
variable (P) in
theorem owed_le_vault {b : Book ι} (h : 0 ≤ b.slack P) (v : ι) :
    ((b.holder v).owed P b.stream.index : ℤ) ≤ P * b.vault := by
  have howed := owed_le_owing (P := P) b v
  have hrem : (0 : ℤ) ≤ b.stream.remaining := Nat.cast_nonneg _
  unfold slack at h
  linarith

/-- The vault is what came in less what was paid out. -/
def Balanced (b : Book ι) : Prop := b.vault = b.deposited - ∑ v, (b.claimed v : ℤ)

theorem balanced_apply {b : Book ι} (hb : b.Balanced) (a : Act ι) : (b.apply P a).Balanced := by
  unfold Balanced at hb ⊢
  cases a with
  | settle now => exact hb
  | checkpoint v => exact hb
  | grow v n => exact hb
  | shrink v n => exact hb
  | refill n d now =>
      simp only [Book.apply, hb]
      push_cast
      ring
  | take v =>
      have hsum :
          ∑ u, ((Function.update b.claimed v (b.claimed v + (b.holder v).accrued) u : ℕ) : ℤ)
          = ∑ u, (b.claimed u : ℤ) + (b.holder v).accrued := by
        have hpoint : ∀ u, ((Function.update b.claimed v (b.claimed v + (b.holder v).accrued) u : ℕ)
            : ℤ) = b.claimed u + if u = v then ((b.holder v).accrued : ℤ) else 0 := by
          intro u
          by_cases hu : u = v
          · subst hu
            simp
          · simp [hu]
        simp only [hpoint, Finset.sum_add_distrib, Finset.sum_ite_eq', Finset.mem_univ, if_true]
      simp only [Book.apply, hsum, setHolder_deposited, hb]
      ring
  | exit v => exact hb
  | enroll now => exact hb

end Sound

/-- The index and the remainder never outgrow what was deposited. -/
def Backed (P : ℕ) (b : Book ι) : Prop :=
  b.stream.index + b.stream.remaining ≤ b.deposited * P

theorem backed_apply {b : Book ι} (hb : b.Backed P) {a : Act ι} (ha : b.Allowed a) :
    (b.apply P a).Backed P := by
  unfold Backed at hb
  cases a with
  | settle now => exact (Stream.settle_index_add_remaining_le b.stream ha).trans hb
  | checkpoint v => exact hb
  | grow v n => exact hb
  | shrink v n => exact hb
  | refill n d now =>
      have h := Stream.refill_remaining_le b.stream P n (d := d) ha.1
      simp only [Backed, Book.apply, Stream.refill_index, Nat.add_mul]
      omega
  | take v => exact hb
  | exit v => exact hb
  | enroll now => simp [Backed, Book.apply, Stream.remaining]

/-- What is left of a period is never longer than the longest period started. -/
theorem span_apply {B : ℤ} (hB : 0 ≤ B) {b : Book ι} {a : Act ι} (ha : b.Allowed a)
    (hw : a.Within B) (hb : b.stream.finish - b.stream.last ≤ B) :
    (b.apply P a).stream.finish - (b.apply P a).stream.last ≤ B := by
  cases a with
  | settle now => exact (Stream.settle_span_le b.stream ha).trans hb
  | refill n d now =>
      have hd : (d : ℤ) ≤ B := hw
      simp only [Book.apply, Stream.refill]
      omega
  | enroll now =>
      have hnow : 0 ≤ now := hw
      simp only [Book.apply]
      omega
  | checkpoint v => exact hb
  | grow v n => exact hb
  | shrink v n => exact hb
  | take v => exact hb
  | exit v => exact hb

end Accrual.Book
