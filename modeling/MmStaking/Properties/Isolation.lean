import MmStaking.Refine.Chain

/-! Isolation: what a pool and its stakers come to is decided by the calls on the pool. What
else the chain does, on other pools or outside the program, is not seen. -/
namespace MmStaking
open Words Loops Runs Custody

variable {rt : Runtime} {p : Pubkey}

/-- Two systems with the same pool and staker accounts: the ledger and the clock may differ. -/
def Agree (s t : Sys Pubkey) : Prop := s.pool = t.pool ∧ s.staker = t.staker

theorem Agree.perform {s t s' t' : Sys Pubkey} (h : Agree s t) {now : I64} {op : Op Pubkey}
    (hs : s.perform now op = .ok s') (ht : t.perform now op = .ok t') : Agree s' t' ∧
      ∀ x, s'.ledger.vault x - s.ledger.vault x = t'.ledger.vault x - t.ledger.vault x := by
  obtain ⟨pool, staker, clock, ledger⟩ := s
  obtain ⟨pool', staker', clock', ledger'⟩ := t
  obtain ⟨rfl, rfl⟩ := h
  have hlogic : ∀ {logic : Result Pool} {l : Ledger Pubkey} {c : I64} {u : Sys Pubkey},
      (do let pool ← logic
          return { pool := pool, staker := staker, clock := c, ledger := l } :
        Result (Sys Pubkey)) = .ok u → ∃ P', logic = .ok P' ∧
          u = { pool := P', staker := staker, clock := c, ledger := l } := by
    intro logic l c u hu
    simp only [bind_eq_ok_iff, pure_eq_ok_iff] at hu
    obtain ⟨P', hP', rfl⟩ := hu
    exact ⟨P', hP', rfl⟩
  have hadmin : ∀ {logic : Result Pool},
      (do let pool ← logic
          return { pool := pool, staker := staker, clock := clock, ledger := ledger } :
        Result (Sys Pubkey)) = .ok s' →
      (do let pool ← logic
          return { pool := pool, staker := staker, clock := clock', ledger := ledger' } :
        Result (Sys Pubkey)) = .ok t' → Agree s' t' ∧
          ∀ x, s'.ledger.vault x - ledger.vault x = t'.ledger.vault x - ledger'.vault x := by
    intro logic hs ht
    obtain ⟨P₁, h₁, rfl⟩ := hlogic hs
    obtain ⟨P₂, h₂, rfl⟩ := hlogic ht
    cases h₁.symm.trans h₂
    exact ⟨⟨rfl, rfl⟩, fun x => by simp⟩
  cases op with
  | addReward mint vault d => exact hadmin hs ht
  | setRewardActive slot active => exact hadmin hs ht
  | setPaused paused => exact hadmin hs ht
  | setKeeperAuthority keeper => exact hadmin hs ht
  | setAdmin newAdmin => exact hadmin hs ht
  | setDuration slot d => exact hadmin hs ht
  | stake v owner poolKey bump amount =>
      simp only [Sys.perform, bind_eq_ok_iff, pure_eq_ok_iff, Prod.exists] at hs ht
      obtain ⟨P₁, a₁, h₁, rfl⟩ := hs
      obtain ⟨P₂, a₂, h₂, rfl⟩ := ht
      cases h₁.symm.trans h₂
      exact ⟨⟨rfl, rfl⟩, fun x => by rw [recordStake_vault, recordStake_vault]; ring⟩
  | unstake v amount =>
      simp only [Sys.perform, bind_eq_ok_iff, pure_eq_ok_iff, Prod.exists] at hs ht
      obtain ⟨P₁, a₁, h₁, rfl⟩ := hs
      obtain ⟨P₂, a₂, h₂, rfl⟩ := ht
      cases h₁.symm.trans h₂
      exact ⟨⟨rfl, rfl⟩, fun x => by rw [recordUnstake_vault, recordUnstake_vault]; ring⟩
  | emergencyWithdraw v =>
      simp only [Sys.perform, bind_eq_ok_iff, pure_eq_ok_iff, Prod.exists] at hs ht
      obtain ⟨P₁, a₁, n₁, h₁, rfl⟩ := hs
      obtain ⟨P₂, a₂, n₂, h₂, rfl⟩ := ht
      cases h₁.symm.trans h₂
      exact ⟨⟨rfl, rfl⟩, fun x => by rw [recordWithdraw_vault, recordWithdraw_vault]; ring⟩
  | depositRewards mint received =>
      simp only [Sys.perform, bind_eq_ok_iff, pure_eq_ok_iff, okOr_eq_ok_iff] at hs ht
      obtain ⟨i, hi, P₁, h₁, rfl⟩ := hs
      obtain ⟨j, hj, P₂, h₂, rfl⟩ := ht
      cases hi.symm.trans hj
      cases h₁.symm.trans h₂
      exact ⟨⟨rfl, rfl⟩, fun x => by rw [recordDeposit_vault, recordDeposit_vault]; ring⟩
  | claim v vaultKeys =>
      simp only [Sys.perform, bind_eq_ok_iff, pure_eq_ok_iff, Prod.exists] at hs ht
      obtain ⟨P₁, a₁, h₁, b₁, paid₁, htake₁, rfl⟩ := hs
      obtain ⟨P₂, a₂, h₂, b₂, paid₂, htake₂, rfl⟩ := ht
      cases h₁.symm.trans h₂
      cases htake₁.symm.trans htake₂
      exact ⟨⟨rfl, rfl⟩, fun x => by rw [recordClaims_vault, recordClaims_vault]; ring⟩

theorem Agree.run {s t s' t' : Sys Pubkey} {h k : List (Sys Pubkey × Call Pubkey)}
    (ha : Agree s t) (r : Run Sys.Step s h s') (r' : Run Sys.Step t k t')
    (hcalls : h.map Prod.snd = k.map Prod.snd) : Agree s' t' ∧
      ∀ x, s'.ledger.vault x - s.ledger.vault x = t'.ledger.vault x - t.ledger.vault x := by
  induction r generalizing k t' with
  | refl =>
      rw [r'.nil_labels hcalls.symm]
      exact ⟨ha, fun x => by simp⟩
  | @tail h s₁ c s₂ r hs ih =>
      rw [List.map_append] at hcalls
      obtain ⟨k₁, t₁, k₂, r₁, r₂, hk₁, hk₂⟩ := r'.append_labels hcalls.symm
      have ht := r₂.one_label hk₂
      obtain ⟨ha₁, hvault₁⟩ := ih r₁ hk₁.symm
      obtain ⟨-, u, hu, rfl⟩ := Sys.step_eq_ok_iff.mp hs
      obtain ⟨-, u', hu', rfl⟩ := Sys.step_eq_ok_iff.mp ht
      obtain ⟨ha₂, hvault₂⟩ := ha₁.perform hu hu'
      refine ⟨ha₂, ?_⟩
      intro x
      have h₁ := hvault₁ x
      have h₂ := hvault₂ x
      dsimp only
      omega

/-- Two runs of the chain from worlds with one pool and its staker accounts in common: with
the same calls on the pool they end with the pool, the staker accounts and the vault changes
in common, whatever else the two runs did and wherever they started. -/
theorem pools_isolated {w₁ w₂ w₁' w₂' : World} {h₁ h₂ : List (World × Event)}
    (hw₁ : w₁.Reachable rt) (hw₂ : w₂.Reachable rt) (r₁ : Run (World.Step rt) w₁ h₁ w₁')
    (r₂ : Run (World.Step rt) w₂ h₂ w₂') {P : Pool} (hP₁ : w₁.pools p = some P)
    (hP₂ : w₂.pools p = some P) (hstakers : ∀ k, w₁.stakerAt p k = w₂.stakerAt p k)
    (hcalls : callsOn rt p h₁ = callsOn rt p h₂) :
    w₁'.pools p = w₂'.pools p ∧ (∀ k, w₁'.stakerAt p k = w₂'.stakerAt p k) ∧
      ∀ x, (w₁'.vaultBalance p x - w₁.vaultBalance p x - cost (World.gift p x) h₁ : ℤ) =
        w₂'.vaultBalance p x - w₂.vaultBalance p x - cost (World.gift p x) h₂ := by
  obtain ⟨g₁, s₁, l₁, t₁, -, hs₁, q₁, hl₁, ht₁⟩ := hw₁.segment r₁ hP₁
  obtain ⟨g₂, s₂, l₂, t₂, -, hs₂, q₂, hl₂, ht₂⟩ := hw₂.segment r₂ hP₂
  have hagree : Agree s₁ s₂ := by
    refine ⟨Option.some.inj ?_, ?_⟩
    · rw [← hs₁.pool, ← hs₂.pool, hP₁, hP₂]
    · rw [hs₁.staker, hs₂.staker]
      exact funext hstakers
  obtain ⟨⟨hpool, hstaker⟩, hvault⟩ := hagree.run q₁ q₂ (by rw [hl₁, hl₂, hcalls])
  refine ⟨?_, ?_, ?_⟩
  · rw [ht₁.pool, ht₂.pool, hpool]
  · intro k
    rw [← ht₁.staker, ← ht₂.staker, hstaker]
  · intro x
    have hx := hvault x
    rw [ht₁.vault_eq, ht₂.vault_eq, hs₁.vault_eq, hs₂.vault_eq, cost_append, cost_append]
    linarith

/-- The second staker of the trial takes out 50, with or without a gift before. -/
def trialExit : Tx := ⟨[2], 60, .unstake ⟨2, 100, 112, 5, 22, 101⟩ 50⟩

theorem pools_isolated_trial : ∃ (w₁ w₂ : World) (h₁ h₂ : List (World × Event)),
    Run (World.Step World.trialRuntime) World.trial h₁ w₁ ∧
      Run (World.Step World.trialRuntime) World.trial h₂ w₂ ∧ h₁.length = 1 ∧ h₂.length = 2 ∧
      w₁.pools 100 = w₂.pools 100 := by
  obtain ⟨w₁, hw₁⟩ := exists_ok (x := World.trial.step World.trialRuntime trialExit)
    (by decide +kernel)
  obtain ⟨w₂, hw₂⟩ := exists_ok (x := World.trialGift.step World.trialRuntime trialExit)
    (by decide +kernel)
  obtain ⟨P, hP⟩ := Option.isSome_iff_exists.mp
    (show (World.trial.pools 100).isSome = true by decide +kernel)
  have r₁ : Run (World.Step World.trialRuntime) World.trial [(World.trial, .tx trialExit)] w₁ :=
    Run.refl.tail (.tx hw₁)
  have r₂ : Run (World.Step World.trialRuntime) World.trial
      [(World.trial, .outside World.trialGift), (World.trialGift, .tx trialExit)] w₂ :=
    (Run.refl.tail (.outside World.outside_trialGift)).tail (.tx hw₂)
  exact ⟨w₁, w₂, _, _, r₁, r₂, rfl, rfl, (pools_isolated World.reachable_trial
    World.reachable_trial r₁ r₂ hP hP (fun _ => rfl) rfl).1⟩

end MmStaking
