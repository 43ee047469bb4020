import MmStaking.Lib.ProRata
import MmStaking.Refine.Charges

/-! Pro-rata correctness: what a staker was paid and is owed follows the exact share of
every second the run has settled, from below and up to the rounding of settlements. -/
namespace MmStaking
open Words Loops Runs Accrual

variable {ι : Type}

/-- What slot `i` paid staker `v` and owes it, in units of `1 / PRECISION`. -/
def Sys.entitlement (s : Sys ι) (i : Slot) (v : ι) : ℤ :=
  PRECISION.val * (s.ledger.claimed v i + ((s.staker v).entries i).rewardsAccrued.val) +
    (s.staker v).stakedAmount.val * ((s.pool.rewards i).rewardPerTokenStored.val -
      ((s.staker v).entries i).rewardPerTokenPaid.val)

/-- The exact share of `v` in the seconds of slot `i` that a call settles. -/
def exactShare (i : Slot) (v : ι) (s : Sys ι) (c : Call ι) : ℚ :=
  c.op.charge s.pool i
    ((s.pool.rewards i).stream.perSecond (s.staker v).stakedAmount.val s.pool.totalStaked.val
      c.now.val)
    (fun _ => 0) 0 (fun _ => 0)

variable [DecidableEq ι]

/-- The rounding of a call at the expense of `v`: its stake for a settlement of slot `i`,
and `PRECISION` for a settlement of its own entry. -/
def roundingShare (i : Slot) (v : ι) (s : Sys ι) (c : Call ι) : ℚ :=
  c.op.charge s.pool i (s.staker v).stakedAmount.val
    (fun u => if u = v then (PRECISION.val : ℚ) else 0) 0 (fun _ => 0)

theorem tally_share (i : Slot) (v : ι) (s : Sys ι) (c : Call ι) :
    Book.tally P (Book.share v) (s.book i) (c.op.acts s.pool i c.now) = exactShare i v s c :=
  tally_acts (fun _ => 0) (fun _ => 0) (fun _ _ => rfl)
    (fun _ _ _ _ => rfl) (fun _ _ _ => ⟨rfl, rfl⟩) (fun _ => ⟨fun _ => rfl, fun _ => rfl⟩)
    c.op s.pool i c.now (s.book i)

theorem tally_lag (i : Slot) (v : ι) (s : Sys ι) (c : Call ι) :
    Book.tally P (fun b a => b.lag P v a - b.share v a) (s.book i)
        (c.op.acts s.pool i c.now) = roundingShare i v s c - exactShare i v s c := by
  have htally := tally_acts (c := fun b a => b.lag P v a - b.share v a)
    (fun u => (if u = v then (P : ℚ) else 0) - 0) (fun _ => (0 : ℚ) - 0)
    (fun _ _ => rfl) (fun _ _ _ _ => rfl) (fun _ _ _ => ⟨sub_zero _, sub_zero _⟩)
    (fun _ => ⟨fun _ => sub_zero _, fun _ => sub_zero _⟩) c.op s.pool i c.now (s.book i)
  rw [htally]
  exact Op.charge_sub s.pool i _ _ _ _ _ _ _ _ c.op

variable [Fintype ι]

omit [DecidableEq ι] in
theorem Sys.Inv.entitlement_eq {s : Sys ι} (hs : s.Inv) (i : Slot) (v : ι) :
    s.entitlement i v = (s.book i).entitlement P v := by
  have hle := (hs.sound i).paid_le v
  simp only [Book.entitlement, Holder.owed]
  push_cast [hle]
  unfold Sys.entitlement
  rw [mul_add, add_assoc]
  rfl

/-- Along a run without emergency exits the entitlement of a staker in a slot stays at or
below the exact sum of its shares, and behind it by no more than the rounding. -/
theorem pro_rata {s₀ s : Sys ι} {h : List (Sys ι × Call ι)} (h0 : s₀.Initial)
    (r : Run Sys.Step s₀ h s) (hexit : ∀ e ∈ h, ∀ u, e.2.op ≠ .emergencyWithdraw u) (v : ι)
    (i : Slot) :
    (s.entitlement i v : ℚ) ≤ cost (exactShare i v) h ∧
      cost (exactShare i v) h ≤ s.entitlement i v + cost (roundingShare i v) h := by
  have hkeep : ∀ e ∈ h, Book.Along P (fun _ a => a ≠ .exit v) (e.1.book i)
      (e.2.op.acts e.1.pool i e.2.now) := fun e he =>
    along_acts (fun _ _ => by simp) (fun u hu => absurd hu (hexit e he u)) fun _ _ _ hne => hne v
  have hstart : (s₀.book i).entitlement P v = 0 := by
    rw [initial_book h0]
    simp [Book.entitlement, Holder.owed]
  have hle := Sys.run_potential_le (φ := fun b => (b.entitlement P v : ℚ)) (c := Book.share v)
    (fun b a hb ha hq => (Book.entitlement_apply P_pos hb ha hq).1) (inv_initial h0) r hkeep
  have hge := Sys.run_potential_le (φ := fun b => -(b.entitlement P v : ℚ))
    (c := fun b a => b.lag P v a - b.share v a)
    (fun b a hb ha hq => by linarith [(Book.entitlement_apply P_pos hb ha hq).2])
    (inv_initial h0) r hkeep
  simp only [tally_share, hstart, Nat.cast_zero, zero_add] at hle
  simp only [tally_lag, cost_sub, hstart, Nat.cast_zero, neg_zero, zero_add] at hge
  have hs : s.Inv := Sys.Reachable.inv ⟨s₀, h, h0, r⟩
  rw [hs.entitlement_eq, Int.cast_natCast]
  exact ⟨hle, by linarith⟩

/-- The trial run has no exits: the first staker, with a claim of 200, follows its exact
share. -/
theorem pro_rata_trial : Sys.trial.entitlement 0 0 = 200 * PRECISION.val ∧
    (Sys.trial.entitlement 0 0 : ℚ) ≤ cost (exactShare 0 0) Sys.trialHistory ∧
    cost (exactShare 0 0) Sys.trialHistory ≤
      Sys.trial.entitlement 0 0 + cost (roundingShare 0 0) Sys.trialHistory := by
  obtain ⟨r, hl⟩ := Sys.trial_run
  refine ⟨by decide +kernel, pro_rata Sys.initial_trialStart r ?_ 0 0⟩
  intro e he u
  have hmem : e.2 ∈ Sys.trialCalls := hl ▸ List.mem_map_of_mem he
  simp only [Sys.trialCalls, List.mem_cons, List.not_mem_nil, or_false] at hmem
  rcases hmem with h | h | h | h | h <;> simp [h]

end MmStaking
