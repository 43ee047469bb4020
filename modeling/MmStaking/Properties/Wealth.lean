import MmStaking.Properties.Registry
import MmStaking.Refine.Wealth

/-! Wealth: what a user has, in its token accounts and its staker accounts together, changes by
its own deposits and its own claims alone. -/
namespace MmStaking
open Words Loops Runs Custody

variable {rt : Runtime} {w w' : World} {h : List (World × Event)}

theorem drift_of_txs {f : World → ℕ} {txs : List Tx}
    (htxs : h.map Prod.snd = txs.map Event.tx) : cost (World.drift f) h = 0 := by
  refine List.sum_eq_zero ?_
  intro n hn
  obtain ⟨e, he, rfl⟩ := List.mem_map.mp hn
  have hmem := List.mem_map_of_mem (f := Prod.snd) he
  rw [htxs] at hmem
  obtain ⟨tx, -, htx⟩ := List.mem_map.mp hmem
  rw [← htx]
  rfl

/-- Along every run, whoever can sign has of each mint, in its token accounts and staker
accounts together, what it had, and what the claims it made paid it, without what it
deposited as a keeper: stakes and exits move it between the two, and nothing that others do
in the program touches it. -/
theorem wealth_accounted (hw : w.Reachable rt) (r : Run (World.Step rt) w h w') {u : Pubkey}
    (hu : rt.signable u = true) (m : Pubkey) :
    (w'.wallet u m + w'.staked u m : ℤ) + cost (fun _ => Event.spends u m) h =
      w.wallet u m + w.staked u m + cost (World.earns u m) h +
        cost (World.drift (World.wallet u m)) h := by
  induction r with
  | refl =>
      simp only [cost_nil, Nat.cast_zero, add_zero]
  | @tail h t e t' r hs ih =>
      simp only [cost_snoc, Nat.cast_add]
      have ht := hw.run r
      cases hs with
      | outside hs =>
          have hstaked : t'.staked u m = t.staked u m := by
            refine staked_congr ?_
            unfold World.stakes
            rw [hs.pools_eq, hs.stakers_eq]
          simp only [World.drift, World.earns, Event.spends, hstaked, Nat.cast_zero]
          linarith
      | @tx tx _ hs =>
          have hstep := ht.sound.wealth_add (m := m) hu hs
          have hstep : (t'.wallet u m + t'.staked u m : ℤ) + Event.spends u m (.tx tx) =
              t.wallet u m + t.staked u m + t.earns u m (.tx tx) := by exact_mod_cast hstep
          rw [World.drift]
          linarith

/-- The first staker of the trial has gained 200 of the reward mint, and of the other mint has
what it had. -/
theorem wealth_accounted_trial :
    World.trial.wallet 1 7 + World.trial.staked 1 7 =
      World.trialStart.wallet 1 7 + World.trialStart.staked 1 7 + 200 ∧
    World.trial.wallet 1 5 + World.trial.staked 1 5 =
      World.trialStart.wallet 1 5 + World.trialStart.staked 1 5 := by
  have hstart : World.trialStart.Reachable World.trialRuntime :=
    ⟨World.trialStart, [], World.initial_trialStart, .refl⟩
  have hearned : cost (World.earns 1 7) World.trialHistory = 200 ∧
      cost (World.earns 1 5) World.trialHistory = 0 := by decide +kernel
  have hspent : cost (fun _ => Event.spends 1 7) World.trialHistory = 0 ∧
      cost (fun _ => Event.spends 1 5) World.trialHistory = 0 := by decide +kernel
  have hdrift : ∀ m, cost (World.drift (World.wallet 1 m)) World.trialHistory = 0 :=
    fun _ => drift_of_txs World.trial_run.2
  have hu : World.trialRuntime.signable 1 = true := by decide
  have h7 := wealth_accounted hstart World.trial_run.1 hu 7
  have h5 := wealth_accounted hstart World.trial_run.1 hu 5
  rw [hearned.1, hspent.1, hdrift] at h7
  rw [hearned.2, hspent.2, hdrift] at h5
  -- the sums are over all keys, and nothing may evaluate them
  generalize World.trial.wallet 1 7 = a, World.trial.staked 1 7 = b,
    World.trialStart.wallet 1 7 = c, World.trialStart.staked 1 7 = d at h7 ⊢
  generalize World.trial.wallet 1 5 = a', World.trial.staked 1 5 = b',
    World.trialStart.wallet 1 5 = c', World.trialStart.staked 1 5 = d' at h5 ⊢
  constructor
  · omega
  · omega

end MmStaking
