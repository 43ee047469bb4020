import MmStaking.Lib.Book
import MmStaking.Program.Update

/-! What the checked arithmetic computes: the exact quantity when every intermediate
value fits, and no value otherwise. -/
namespace MmStaking
open Words Loops Accrual

/-- `PRECISION` as a number. -/
abbrev P : ℕ := PRECISION.val

theorem P_pos : 0 < P := by decide

theorem val_cast_128 (a : U64) : (a.cast 128).val = a.val := Unsigned.val_cast (by decide) a

theorem accrueRpt_eq_ok_iff {rpt rate r : U128} {e : I64} {T : U64} (hT : 0 < T.val)
    (he : 0 < e.val) : accrueRpt rpt e rate T = .ok r ↔
      e.val.toNat * rate.val < 2 ^ 128 ∧ r.val = rpt.val + e.val.toNat * rate.val / T.val := by
  have hcond : ¬ (T.val = 0 ∨ e.val ≤ 0) := by omega
  have hval : (e.toUnsigned 128).val = e.val.toNat := Signed.val_toUnsigned (by decide) he.le
  unfold accrueRpt
  simp only [if_neg hcond, bind_eq_ok_iff, okOr_eq_ok_iff, Option.bind_eq_some_iff,
    Unsigned.checkedMul_eq_some_iff, Unsigned.checkedDiv_eq_some_iff,
    Unsigned.checkedAdd_eq_some_iff, val_cast_128, hval]
  constructor
  · rintro ⟨delta, ⟨x, hx, -, hd⟩, hr⟩
    rw [hx] at hd
    rw [hd] at hr
    exact ⟨hx ▸ x.isLt, hr⟩
  · rintro ⟨hlt, hr⟩
    exact ⟨⟨_, (Nat.div_le_self _ _).trans_lt hlt⟩, ⟨⟨_, hlt⟩, rfl, hT.ne', rfl⟩, hr⟩

theorem earned_eq_ok_iff {s a e : U64} {r p : U128} : earned s r p a = .ok e ↔
    p.val ≤ r.val ∧ s.val * (r.val - p.val) < 2 ^ 128 ∧
      e.val = a.val + s.val * (r.val - p.val) / P := by
  have hP : PRECISION.val ≠ 0 := P_pos.ne'
  unfold earned
  simp only [bind_eq_ok_iff, okOr_eq_ok_iff, Option.bind_eq_some_iff,
    Unsigned.checkedSub_eq_some_iff, Unsigned.checkedMul_eq_some_iff,
    Unsigned.checkedDiv_eq_some_iff, Unsigned.checkedAdd_eq_some_iff,
    Unsigned.tryFrom_eq_some_iff, val_cast_128]
  constructor
  · rintro ⟨delta, ⟨hle, hd⟩, fresh, ⟨x, hx, -, hf⟩, total, ht, he⟩
    rw [hd] at hx
    rw [hx] at hf
    exact ⟨hle, hx ▸ x.isLt, by rw [he, ht, hf]⟩
  · rintro ⟨hle, hlt, he⟩
    have hd : r.val - p.val < 2 ^ 128 := (Nat.sub_le _ _).trans_lt r.isLt
    have hf : s.val * (r.val - p.val) / P < 2 ^ 128 := (Nat.div_le_self _ _).trans_lt hlt
    have ht : a.val + s.val * (r.val - p.val) / P < 2 ^ 128 := by
      rw [← he]
      exact e.isLt.trans (by decide)
    exact ⟨⟨_, hd⟩, ⟨hle, rfl⟩, ⟨_, hf⟩, ⟨⟨_, hlt⟩, rfl, hP, rfl⟩, ⟨_, ht⟩, rfl, he⟩

theorem scaled_lt (a : U64) : a.val * P < 2 ^ 128 := by
  have ha := a.isLt
  have hb : 2 ^ 64 * P < 2 ^ 128 := by decide
  exact (Nat.mul_lt_mul_of_pos_right ha P_pos).trans hb

theorem exists_sub {a b : I64} (hb : 0 ≤ b.val) (h : b.val ≤ a.val) :
    ∃ c : I64, c.val = a.val - b.val := by
  have ha := a.upper
  exact Signed.exists_val (by have : (0 : ℤ) ≤ 2 ^ (64 - 1) := by positivity
                              omega) (by omega)

theorem notifyRate_ok_iff {amount : U64} {rate r : U128} {now finish d : I64} :
    notifyRate amount rate now finish d = .ok r ↔
      0 < d.val ∧ finish.val - now.val < 2 ^ 63 ∧
        amount.val * P + (finish.val - now.val).toNat * rate.val < 2 ^ 128 ∧
        r.val = (amount.val * P + (finish.val - now.val).toNat * rate.val) / d.val.toNat := by
  have hamount : ∀ x : U128, (amount.cast 128).checkedMul PRECISION = some x ↔
      x.val = amount.val * P := fun x => by
    rw [Unsigned.checkedMul_eq_some_iff, val_cast_128]
  -- the leftover, in both branches, is the one product
  have hleft : ∀ x : U128, (if now.val < finish.val then do
        let secs ← orPanic (finish.checkedSub now)
        okOr ((secs.toUnsigned 128).checkedMul rate) .mathOverflow
      else .ok 0) = .ok x ↔
      finish.val - now.val < 2 ^ 63 ∧ x.val = (finish.val - now.val).toNat * rate.val := by
    intro x
    split
    · rename_i hlt
      simp only [bind_eq_ok_iff, orPanic_eq_ok_iff, okOr_eq_ok_iff, Signed.checkedSub_eq_some_iff,
        Unsigned.checkedMul_eq_some_iff]
      constructor
      · rintro ⟨c, hc, hx⟩
        rw [Signed.val_toUnsigned (by decide) (by omega), hc] at hx
        exact ⟨hc ▸ c.upper, hx⟩
      · rintro ⟨hfit, hx⟩
        obtain ⟨c, hc⟩ : ∃ c : I64, c.val = finish.val - now.val :=
          Signed.exists_val (by omega) hfit
        refine ⟨c, hc, ?_⟩
        rw [Signed.val_toUnsigned (by decide) (by omega), hc, hx]
    · rename_i hge
      have hz : (finish.val - now.val).toNat = 0 := by omega
      have hfit : finish.val - now.val < 2 ^ 63 := by omega
      rw [hz, Nat.zero_mul, Except.ok.injEq, Unsigned.ext_iff, and_iff_right hfit]
      exact eq_comm
  unfold notifyRate
  simp only [bind_eq_ok_iff, require_eq_ok_iff, hleft, okOr_eq_ok_iff, hamount,
    Option.bind_eq_some_iff, Unsigned.checkedAdd_eq_some_iff, Unsigned.checkedDiv_eq_some_iff]
  constructor
  · rintro ⟨-, hd, left, ⟨hfit, hl⟩, scaled, hs, total, ht, -, hr⟩
    rw [Signed.val_toUnsigned (by decide) hd.le] at hr
    rw [hs, hl] at ht
    rw [ht] at hr
    exact ⟨hd, hfit, ht ▸ total.isLt, hr⟩
  · rintro ⟨hd, hfit, hlt, hr⟩
    have hdv : (d.toUnsigned 128).val = d.val.toNat := Signed.val_toUnsigned (by decide) hd.le
    exact ⟨(), hd, ⟨_, (Nat.le_add_left _ _).trans_lt hlt⟩, ⟨hfit, rfl⟩, ⟨_, scaled_lt amount⟩,
      rfl, ⟨_, hlt⟩, rfl, by omega, by rw [hdv]; exact hr⟩

/-- After the epoch the remaining period is always a time. -/
theorem notifyRate_eq_ok_iff {amount : U64} {rate r : U128} {now finish d : I64}
    (h0 : 0 ≤ now.val) : notifyRate amount rate now finish d = .ok r ↔
      0 < d.val ∧ amount.val * P + (finish.val - now.val).toNat * rate.val < 2 ^ 128 ∧
        r.val = (amount.val * P + (finish.val - now.val).toNat * rate.val) / d.val.toNat := by
  have hfit : finish.val - now.val < 2 ^ 63 := by
    have hupper := finish.upper
    omega
  rw [notifyRate_ok_iff, and_iff_right hfit]

end MmStaking
