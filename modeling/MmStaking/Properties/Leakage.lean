import MmStaking.Properties.Solvency
import MmStaking.Refine.Charges

/-! Leakage: the converse of solvency. As long as no settlement of an idle slot lets its
stream run out, the vault of a slot exceeds what is owed and still to stream by no more
than the rounding of the run and what emergency exits forfeited. -/
namespace MmStaking
open Words Loops Runs Accrual

variable {ι : Type}

/-- The dust a call may leave in slot `i`: the total stake for a settlement of the slot,
`PRECISION` for a settlement of an entry, the duration for a deposit into the slot, and
for an emergency exit all that it forfeits. -/
def dust (i : Slot) (s : Sys ι) (c : Call ι) : ℤ :=
  c.op.charge s.pool i s.pool.totalStaked.val (fun _ => PRECISION.val)
    (s.pool.rewards i).duration.val (fun v => s.owed i v)

/-- The call settles slot `i` with nobody staked, at or past the end of a running stream. -/
def RunsOut (i : Slot) (s : Sys ι) (c : Call ι) : Prop :=
  c.op.settles = true ∧ s.pool.Registered i ∧ s.pool.totalStaked.val = 0 ∧
    (s.pool.rewards i).periodFinish.val ≤ c.now.val ∧
    (s.pool.rewards i).lastUpdateTime.val < (s.pool.rewards i).periodFinish.val

instance (i : Slot) (s : Sys ι) (c : Call ι) : Decidable (RunsOut i s c) :=
  inferInstanceAs (Decidable (_ ∧ _))

variable [Fintype ι] [DecidableEq ι]

theorem tally_dust {s : Sys ι} (hs : s.Inv) (i : Slot) (c : Call ι) :
    Book.tally P (Book.dust P) (s.book i) (c.op.acts s.pool i c.now) = dust i s c := by
  have hduration : ((s.pool.rewards i).duration.val.toNat : ℤ) =
      (s.pool.rewards i).duration.val := by
    apply Int.toNat_of_nonneg
    by_cases hi : s.pool.Registered i
    · exact (hs.tidy.duration_pos i hi).le
    · rw [hs.tidy.empty_slot i hi]
      rfl
  have htally := tally_acts (c := Book.dust P) (fun _ => (P : ℤ))
    (fun d => (d : ℤ)) (fun _ _ => rfl) (fun _ _ _ _ => rfl)
    (fun _ _ _ => ⟨rfl, rfl⟩) (fun _ => ⟨fun _ => rfl, fun _ => rfl⟩)
    c.op s.pool i c.now (s.book i)
  rw [htally, hduration]
  unfold dust
  congr 1
  funext v
  exact (hs.owed_eq i v).symm

/-- Every deposited unit of a slot was claimed, is owed, is still to stream, or is dust. -/
theorem bounded_leakage {s₀ s : Sys ι} {h : List (Sys ι × Call ι)} (h0 : s₀.Initial)
    (r : Run Sys.Step s₀ h s) {i : Slot} (hstream : ∀ e ∈ h, ¬ RunsOut i e.1 e.2) :
    PRECISION.val * ((s.ledger.deposited i : ℤ) - ∑ v, (s.ledger.claimed v i : ℤ)) ≤
      ∑ v, s.owed i v + (s.pool.rewards i).unstreamed + cost (dust i) h := by
  have hs : s.Reachable := ⟨s₀, h, h0, r⟩
  have hspares : ∀ e ∈ h, Book.Along P Book.Spares (e.1.book i)
      (e.2.op.acts e.1.pool i e.2.now) := by
    intro e he
    refine along_acts (fun hop hi hf => hstream e he ⟨hop, hi, ?_, hf.2.1, hf.2.2⟩)
      (fun _ _ => trivial) ?_
    · simpa [Sys.book, bookOf] using hf.1
    · intro b a hsettle _
      cases a with
      | settle t => exact absurd rfl (hsettle t)
      | _ => trivial
  have hslack := Sys.run_potential_le (φ := fun b => b.slack P) (c := Book.dust P)
    (fun b a hb ha hq => (Book.slack_apply P_pos hb ha).2 hq) (inv_initial h0) r hspares
  have hstart : (s₀.book i).slack P = 0 := by
    rw [initial_book h0]
    simp [Book.slack, Book.owing, Holder.owed, Stream.remaining]
  have hinv := r.history_invariant (inv_initial h0) fun _ _ _ hi hs => hi.step hs
  have hcost : cost (fun s e => Book.tally P (Book.dust P) (s.book i)
      (e.op.acts s.pool i e.now)) h = cost (dust i) h :=
    cost_congr fun e he => tally_dust (hinv e he) i e.2
  rw [hcost, hstart, zero_add, hs.inv.slack_eq, hs.balanced] at hslack
  linarith

/-- In the trial run the 800 left in the vault are all accounted for. -/
theorem bounded_leakage_trial :
    PRECISION.val * ((Sys.trial.ledger.deposited 0 : ℤ) -
        ∑ v, (Sys.trial.ledger.claimed v 0 : ℤ)) = 800 * PRECISION.val ∧
      PRECISION.val * ((Sys.trial.ledger.deposited 0 : ℤ) -
        ∑ v, (Sys.trial.ledger.claimed v 0 : ℤ)) ≤
        ∑ v, Sys.trial.owed 0 v + (Sys.trial.pool.rewards 0).unstreamed +
          cost (dust 0) Sys.trialHistory :=
  ⟨by decide +kernel, bounded_leakage Sys.initial_trialStart Sys.trial_run.1 (by decide +kernel)⟩

end MmStaking
