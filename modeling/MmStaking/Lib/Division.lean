import MmStaking.Lib.Book

/-! One holder against two that divide its weight and settle whenever it does. A settlement
rounds down twice for them where it rounds once for the one: they never gain by it and lose
at most one unit. -/
namespace Accrual

/-- `h`, paid `c` so far, is divided over `h₁` and `h₂`, at a loss of at most `n`. -/
structure Divided (h h₁ h₂ : Holder) (c c₁ c₂ n : ℕ) : Prop where
  weight_add : h₁.weight + h₂.weight = h.weight
  paid_left : h₁.paid = h.paid
  paid_right : h₂.paid = h.paid
  accrued_le : h₁.accrued + h₂.accrued ≤ h.accrued
  claimed_le : c₁ + c₂ ≤ c
  loss_le : h.accrued + c ≤ h₁.accrued + h₂.accrued + (c₁ + c₂) + n

namespace Divided
variable {h h₁ h₂ : Holder} {c c₁ c₂ n : ℕ}

theorem symm (d : Divided h h₁ h₂ c c₁ c₂ n) : Divided h h₂ h₁ c c₂ c₁ n := by
  obtain ⟨hw, hl, hr, ha, hc, hn⟩ := d
  exact ⟨by omega, hr, hl, by omega, by omega, by omega⟩

theorem mono (d : Divided h h₁ h₂ c c₁ c₂ n) {n' : ℕ} (hn : n ≤ n') :
    Divided h h₁ h₂ c c₁ c₂ n' :=
  ⟨d.weight_add, d.paid_left, d.paid_right, d.accrued_le, d.claimed_le,
    d.loss_le.trans (Nat.add_le_add_left hn _)⟩

theorem settle (d : Divided h h₁ h₂ c c₁ c₂ n) (P index : ℕ) :
    Divided (h.settle P index) (h₁.settle P index) (h₂.settle P index) c c₁ c₂ (n + 1) := by
  obtain ⟨hw, hl, hr, ha, hc, hn⟩ := d
  have hgain : h.weight * (index - h.paid) =
      h₁.weight * (index - h₁.paid) + h₂.weight * (index - h₂.paid) := by
    rw [← hw, hl, hr, Nat.add_mul]
  have hlower : h₁.weight * (index - h₁.paid) / P + h₂.weight * (index - h₂.paid) / P ≤
      h.weight * (index - h.paid) / P := by
    rw [hgain]
    exact Nat.div_add_div_le_add_div
  have hupper : h.weight * (index - h.paid) / P ≤
      h₁.weight * (index - h₁.paid) / P + h₂.weight * (index - h₂.paid) / P + 1 := by
    rw [hgain]
    exact Nat.add_div_le_div_add_div_add_one _ _ _
  refine ⟨hw, rfl, rfl, ?_, hc, ?_⟩
  · simp only [Holder.settle]
    omega
  · simp only [Holder.settle]
    omega

theorem reweigh (d : Divided h h₁ h₂ c c₁ c₂ n) {w w₁ w₂ : ℕ} (hw : w₁ + w₂ = w) :
    Divided { h with weight := w } { h₁ with weight := w₁ } { h₂ with weight := w₂ }
      c c₁ c₂ n :=
  ⟨hw, d.paid_left, d.paid_right, d.accrued_le, d.claimed_le, d.loss_le⟩

theorem take (d : Divided h h₁ h₂ c c₁ c₂ n) :
    Divided { h with accrued := 0 } { h₁ with accrued := 0 } { h₂ with accrued := 0 }
      (c + h.accrued) (c₁ + h₁.accrued) (c₂ + h₂.accrued) n := by
  obtain ⟨hw, hl, hr, ha, hc, hn⟩ := d
  refine ⟨hw, hl, hr, le_rfl, ?_, ?_⟩
  · omega
  · simp only
    omega

theorem exit (d : Divided h h₁ h₂ c c₁ c₂ n) (index : ℕ) :
    Divided { weight := 0, paid := index, accrued := 0 }
      { weight := 0, paid := index, accrued := 0 }
      { weight := 0, paid := index, accrued := 0 } c c₁ c₂ n := by
  obtain ⟨-, -, -, ha, hc, hn⟩ := d
  refine ⟨rfl, rfl, rfl, le_rfl, hc, ?_⟩
  simp only
  omega

end Divided
end Accrual
