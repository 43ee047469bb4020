import MmStaking.Refine.Packed
import MmStaking.Refine.Twins

/-! Dividing a stake over two accounts: the pool and everyone else cannot tell, and the two
accounts are never paid more than the one. -/
namespace MmStaking
open Words Loops Runs Accrual

variable {ι : Type} [DecidableEq ι]

/-- The settlements of the entry of `u` in slot `i`, in the calls of a history. -/
def settlements (u : ι) (i : Slot) (h : List (Sys ι × Call ι)) : ℕ :=
  cost (fun s c => c.op.charge s.pool i 0 (fun v => if v = u then 1 else 0) 0 fun _ => 0) h

theorem two_calls {κ : Type} [DecidableEq κ] {s t : Sys κ} {now : I64} {op₁ op₂ : Op κ}
    {k : List (Sys κ × Call κ)} (r : Run Sys.Step s k t)
    (hk : k.map Prod.snd = [⟨now, op₁⟩, ⟨now, op₂⟩]) :
    ∃ m t', s.perform now op₁ = .ok m ∧ Sys.perform { m with clock := now } now op₂ = .ok t' ∧
      t = { t' with clock := now } := by
  obtain ⟨m, h₁, h₂⟩ := r.two_labels hk
  obtain ⟨-, m, hop₁, rfl⟩ := Sys.step_eq_ok_iff.mp h₁
  obtain ⟨-, t', hop₂, rfl⟩ := Sys.step_eq_ok_iff.mp h₂
  exact ⟨m, t', hop₁, hop₂, rfl⟩

/-- A call and the calls in its place keep the division, at one unit a settlement. -/
theorem split_step {u : ι} {n : Slot → ℕ} {s t : Sys ι} {s' t' : Sys (Option ι)} {c : Call ι}
    {k : List (Sys (Option ι) × Call (Option ι))} (ht : s.Tidy)
    (d : Divides u (some u) none n s s') (h : s.Step c t) (r : Run Sys.Step s' k t')
    (hsplit : SplitCall u c (k.map Prod.snd)) :
    Divides u (some u) none (fun i => n i +
      c.op.charge s.pool i 0 (fun v => if v = u then 1 else 0) 0 fun _ => 0) t t' := by
  obtain ⟨-, t, hop, rfl⟩ := Sys.step_eq_ok_iff.mp h
  generalize hl : k.map Prod.snd = l at hsplit
  cases hsplit with
  | other hactor =>
      obtain ⟨-, t', hop', rfl⟩ := Sys.step_eq_ok_iff.mp (r.one_label hl)
      have hcall := d.other_call (.inl ⟨rfl, rfl⟩) hactor hop hop'
      exact (hcall.set_clock _ _).mono fun i => Nat.le_add_right _ _
  | stake hxy _ _ hamount =>
      obtain ⟨m, t', hop₁, hop₂, rfl⟩ := two_calls r hl
      have hblock := (hxy.divides_iff.mpr d).stake_block ht hxy hamount hop hop₁ hop₂
      exact ((hxy.divides_iff.mp hblock).set_clock _ _).mono fun i => by simp [Op.charge]
  | unstake hxy _ _ hamount =>
      obtain ⟨m, t', hop₁, hop₂, rfl⟩ := two_calls r hl
      have hblock := (hxy.divides_iff.mpr d).unstake_block ht hxy hamount hop hop₁ hop₂
      exact ((hxy.divides_iff.mp hblock).set_clock _ _).mono fun i => by simp [Op.charge]
  | claim hxy =>
      obtain ⟨m, t', hop₁, hop₂, rfl⟩ := two_calls r hl
      have hblock := (hxy.divides_iff.mpr d).claim_block ht hxy hop hop₁ hop₂
      exact ((hxy.divides_iff.mp hblock).set_clock _ _).mono fun i => by simp [Op.charge]
  | emergencyWithdraw hxy =>
      obtain ⟨m, t', hop₁, hop₂, rfl⟩ := two_calls r hl
      have hblock := (hxy.divides_iff.mpr d).emergency_block hxy hop hop₁ hop₂
      exact ((hxy.divides_iff.mp hblock).set_clock _ _).mono fun i => Nat.le_add_right _ _

omit [DecidableEq ι] in
theorem divides_initial {s₀ : Sys ι} {s₀' : Sys (Option ι)} (h0 : s₀.Initial)
    (h0' : s₀'.Initial) (hpool : s₀'.pool = s₀.pool) (u : ι) :
    Divides u (some u) none (fun _ => 0) s₀ s₀' := by
  obtain ⟨-, -, hstaker, -, -, -, hledger⟩ := initial_blank h0
  obtain ⟨-, -, hstaker', -, -, -, hledger'⟩ := initial_blank h0'
  refine ⟨hpool, ?_, ?_⟩
  · intro w _
    simp only [Sys.row, hstaker, hstaker', hledger, hledger']
    rfl
  · intro i
    simp only [hstaker, hstaker', hledger, hledger']
    exact ⟨rfl, rfl, rfl, le_rfl, le_rfl, le_rfl⟩

/-- Two runs from one pool, the second with the calls of `u` made by `some u` and `none`
instead, their amounts divided. After both, and so after any calls that correspond, the
pools are the same and so is everyone else's account and pay. The two together are paid no
more than `u` and have accrued no more, and what they are short of is at most one unit for
each settlement of `u`. -/
theorem split_pays_no_more {s₀ s : Sys ι} {s₀' s' : Sys (Option ι)} {u : ι}
    {h : List (Sys ι × Call ι)} {h' : List (Sys (Option ι) × Call (Option ι))}
    (h0 : s₀.Initial) (h0' : s₀'.Initial) (hpool : s₀'.pool = s₀.pool)
    (r : Run Sys.Step s₀ h s) (r' : Run Sys.Step s₀' h' s')
    (hsplit : Expands (SplitCall u) (h.map Prod.snd) (h'.map Prod.snd)) :
    s'.pool = s.pool ∧
    (∀ w, w ≠ u → s'.staker (some w) = s.staker w ∧
      s'.ledger.payouts (some w) = s.ledger.payouts w) ∧
    ∀ i,
      s'.ledger.claimed (some u) i + s'.ledger.claimed none i ≤ s.ledger.claimed u i ∧
      ((s'.staker (some u)).entries i).rewardsAccrued.val +
          ((s'.staker none).entries i).rewardsAccrued.val ≤
        ((s.staker u).entries i).rewardsAccrued.val ∧
      ((s.staker u).entries i).rewardsAccrued.val + s.ledger.claimed u i ≤
        ((s'.staker (some u)).entries i).rewardsAccrued.val +
          ((s'.staker none).entries i).rewardsAccrued.val +
          (s'.ledger.claimed (some u) i + s'.ledger.claimed none i) + settlements u i h := by
  have hdivides : Divides u (some u) none (fun i => settlements u i h) s s' := by
    refine Run.expand (R := fun h s s' => Divides u (some u) none
      (fun i => settlements u i h) s s') (divides_initial h0 h0' hpool u) ?_ r r' hsplit
    intro h s c t s' k t' r d hstep r' hcall
    obtain ⟨-, ht, -⟩ := registry_along h0 r
    have hnext := split_step ht d hstep r' hcall
    simpa only [settlements, cost_snoc] using hnext
  refine ⟨hdivides.pool, ?_, ?_⟩
  · intro w hw
    exact Prod.mk.inj (hdivides.other w hw)
  · intro i
    have hi := hdivides.divided i
    exact ⟨hi.claimed_le, hi.accrued_le, hi.loss_le⟩

/-- The trial run with the first stake of 100 divided in 33 and 67. -/
theorem split_pays_no_more_trial : ∃ h' s', Run Sys.Step (Sys.fresh 3600) h' s' ∧
    h'.map Prod.snd = [⟨0, .addReward 7 11 100⟩, ⟨0, .stake (some 0) 1 9 255 33⟩,
      ⟨0, .stake none 3 9 253 67⟩, ⟨0, .depositRewards 7 1000⟩,
      ⟨10, .stake (some (1 : Fin 2)) 2 9 254 300⟩, ⟨50, .claim (some 0) [11]⟩,
      ⟨50, .claim none [11]⟩] ∧
    s'.pool = Sys.trial.pool ∧
    s'.ledger.claimed (some 0) 0 + s'.ledger.claimed none 0 ≤ Sys.trial.ledger.claimed 0 0 := by
  obtain ⟨⟨h', s'⟩, hr⟩ := exists_ok (x := replay Sys.step (Sys.fresh 3600)
    [⟨0, .addReward 7 11 100⟩, ⟨0, .stake (some 0) 1 9 255 33⟩,
      ⟨0, .stake none 3 9 253 67⟩, ⟨0, .depositRewards 7 1000⟩,
      ⟨10, .stake (some (1 : Fin 2)) 2 9 254 300⟩, ⟨50, .claim (some 0) [11]⟩,
      ⟨50, .claim none [11]⟩]) (by decide +kernel)
  have hlabels := replay_labels hr
  have r' := replay_run (fun _ _ _ h => h) hr
  have hsplit : Expands (SplitCall 0) (Sys.trialHistory.map Prod.snd) (h'.map Prod.snd) := by
    rw [Sys.trial_run.2, hlabels]
    have hxy : Twins (0 : Fin 2) (some 0) none := .inl ⟨rfl, rfl⟩
    have hadd : SplitCall (0 : Fin 2) ⟨0, .addReward 7 11 100⟩ [⟨0, .addReward 7 11 100⟩] :=
      .other (by decide)
    have hstake : SplitCall (0 : Fin 2) ⟨0, .stake 0 1 9 255 100⟩
        [⟨0, .stake (some 0) 1 9 255 33⟩, ⟨0, .stake none 3 9 253 67⟩] :=
      .stake hxy (by decide) (by decide) (by decide)
    have hdeposit : SplitCall (0 : Fin 2) ⟨0, .depositRewards 7 1000⟩
        [⟨0, .depositRewards 7 1000⟩] := .other (by decide)
    have hother : SplitCall (0 : Fin 2) ⟨10, .stake 1 2 9 254 300⟩
        [⟨10, .stake (some 1) 2 9 254 300⟩] := .other (by decide)
    have hclaim : SplitCall (0 : Fin 2) ⟨50, .claim 0 [11]⟩
        [⟨50, .claim (some 0) [11]⟩, ⟨50, .claim none [11]⟩] := .claim hxy
    exact ((((Expands.nil.snoc hadd).snoc hstake).snoc hdeposit).snoc hother).snoc hclaim
  obtain ⟨hpool, -, hpaid⟩ := split_pays_no_more Sys.initial_trialStart
    (Sys.initial_fresh (by decide)) rfl Sys.trial_run.1 r' hsplit
  exact ⟨h', s', r', hlabels, hpool, (hpaid 0).1⟩

end MmStaking
