import MmStaking.Refine.Chain

/-! The chain refines one system for each pool: what was proved of a system holds of every
pool, its staker accounts and its vaults, whatever else runs on the chain. -/
namespace MmStaking
open Words Loops Runs Custody

/-- A run of the chain makes no call on a pool that is not there, and contains for every
other pool a run of its system under exactly the calls made on it, with derived vault keys,
with the same pool and staker accounts in the end, and with the vaults off from the ledger by
what they were given from outside. -/
theorem pools_refine {rt : Runtime} {w₀ w : World} {h : List (World × Event)}
    (h0 : w₀.Initial rt) (r : Run (World.Step rt) w₀ h w) (p : Pubkey) :
    (w.pools p = none → callsOn rt p h = []) ∧
      ∀ P, w.pools p = some P → ∃ (s₀ : Sys Pubkey) (l : List (Sys Pubkey × Call Pubkey))
        (s : Sys Pubkey), s₀.Initial ∧ Run Sys.Step s₀ l s ∧ l.map Prod.snd = callsOn rt p h ∧
          DerivedVaults l ∧ s.pool = P ∧ (∀ k, s.staker k = w.stakerAt p k) ∧
          ∀ x, (w.vaultBalance p x : ℤ) = s.ledger.vault x + cost (World.gift p x) h ∧
            0 ≤ cost (World.gift p x) h := by
  obtain ⟨habsent, hlive⟩ := h0.run r p
  refine ⟨habsent, ?_⟩
  intro P hP
  obtain ⟨s₀, l, s, hinit, r', hlabels, hshows⟩ := hlive P hP
  have hpool : s.pool = P := Option.some.inj (hshows.pool.symm.trans hP)
  refine ⟨s₀, l, s, hinit, r', hlabels, derivedVaults_of_run r hlabels, hpool,
    congrFun hshows.staker, ?_⟩
  intro x
  exact ⟨hshows.vault_eq x, cost_gift_nonneg h0.kept r⟩

/-- The trial run makes five calls on its pool and none on another key. -/
theorem pools_refine_trial :
    callsOn World.trialRuntime 99 World.trialHistory = [] ∧
      ∃ l : List (Sys Pubkey × Call Pubkey), l.length = 5 ∧
        l.map Prod.snd = callsOn World.trialRuntime 100 World.trialHistory := by
  have hlive : (World.trial.pools 100).isSome = true := by decide +kernel
  obtain ⟨P, hP⟩ := Option.isSome_iff_exists.mp hlive
  obtain ⟨_, l, _, -, -, hlabels, -⟩ :=
    (pools_refine World.initial_trialStart World.trial_run.1 100).2 P hP
  refine ⟨(pools_refine World.initial_trialStart World.trial_run.1 99).1 (by decide +kernel), l, ?_,
    hlabels⟩
  have hlength : l.length = (l.map Prod.snd).length := (List.length_map _).symm
  rw [hlength, hlabels, callsOn_trial]
  rfl

end MmStaking
