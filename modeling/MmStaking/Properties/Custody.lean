import MmStaking.Refine.Chain
import MmStaking.Properties.Registry

/-! Custody: the keys of the program's accounts say what they are, the vaults are in the hands
of their pool alone, and accounts once opened stay what they are. -/
namespace MmStaking
open Words Loops Runs Custody

variable {rt : Runtime} {w w' : World} {h : List (World × Event)}

theorem World.Reachable.packed (hw : w.Reachable rt) {p : Pubkey} {P : Pool}
    (hP : w.pools p = some P) : P.Packed := by
  obtain ⟨s, hs, rfl, -⟩ := hw.pool hP
  exact hs.registry.2

theorem World.Sound.pool_unique (hw : w.Sound rt) {p q : Pubkey} {P Q : Pool}
    (hP : w.pools p = some P) (hQ : w.pools q = some Q) (hmint : P.stakeMint = Q.stakeMint) :
    p = q := by
  have hp := (hw.pool hP).found
  rw [hmint, (hw.pool hQ).found, Option.some.injEq, Prod.mk.injEq] at hp
  exact hp.1.symm

theorem World.Sound.staker_unique (hw : w.Sound rt) {k l : Pubkey} {a b : StakerAccount}
    (hk : w.stakers k = some a) (hl : w.stakers l = some b) (hpool : a.pool = b.pool)
    (howner : a.owner = b.owner) : k = l := by
  have hfound := (hw.staker hk).1.found
  rw [hpool, howner, (hw.staker hl).1.found, Option.some.injEq, Prod.mk.injEq] at hfound
  exact hfound.1.symm

/-- In every reachable world a pool is at the address of its mint, its vaults are at theirs,
held by the pool for the right mint, one key for each vault over all pools, and no signature
can be made for a pool; a staker account is at the address of its pool and its owner. So
there is one pool for a mint and one account for an owner in a pool. -/
theorem accounts_in_custody (hw : w.Reachable rt) :
    (∀ p P, w.pools p = some P → rt.find (.pool P.stakeMint) = some (p, P.bump) ∧
      rt.signable p = false ∧ P.DistinctVaults ∧
      ∀ x key, P.vaultKey x = some key →
        (∃ bump, rt.find (P.vaultSeeds p x) = some (key, bump)) ∧
          ∃ z, w.tokens key = some z ∧ z.owner = p ∧ z.mint = P.vaultMint x) ∧
    (∀ k a, w.stakers k = some a → rt.find (.staker a.pool a.owner) = some (k, a.bump) ∧
      rt.signable a.owner = true ∧ ∃ P, w.pools a.pool = some P) ∧
    (∀ p q x y key, w.vaultKey p x = some key → w.vaultKey q y = some key → p = q ∧ x = y) ∧
    (∀ p q P Q, w.pools p = some P → w.pools q = some Q → P.stakeMint = Q.stakeMint → p = q) ∧
    ∀ k l a b, w.stakers k = some a → w.stakers l = some b → a.pool = b.pool →
      a.owner = b.owner → k = l := by
  have hsound := hw.sound
  refine ⟨?_, ?_, ?_, ?_, ?_⟩
  · intro p P hP
    have hplaced := hsound.pool hP
    refine ⟨hplaced.found, rt.unsignable (Pda.create_of_find hplaced.found), ?_, ?_⟩
    · intro i j hi hj hij
      exact (hw.packed hP).mint_inj i j hi (hplaced.vault_inj hi hj hij)
    · intro x key hx
      exact ⟨hplaced.vault_derived hx, hplaced.vault_account hx⟩
  · intro k a hk
    obtain ⟨hplaced, hpool⟩ := hsound.staker hk
    exact ⟨hplaced.found, hplaced.signable, hpool⟩
  · intro p q x y key hx hy
    cases hP : w.pools p with
    | none => simp [World.vaultKey, hP] at hx
    | some P =>
        cases hQ : w.pools q with
        | none => simp [World.vaultKey, hQ] at hy
        | some Q =>
            have hx' : P.vaultKey x = some key := by simpa [World.vaultKey, hP] using hx
            have hy' : Q.vaultKey y = some key := by simpa [World.vaultKey, hQ] using hy
            obtain rfl := (hsound.pool hP).vault_apart (hsound.pool hQ) hx' hy'
            obtain rfl : P = Q := Option.some.inj (hP.symm.trans hQ)
            exact ⟨rfl, (hsound.pool hP).vault_unique (hw.packed hP) hx' hy'⟩
  · intro p q P Q hP hQ hmint
    exact hsound.pool_unique hP hQ hmint
  · intro k l a b hk hl hpool howner
    exact hsound.staker_unique hk hl hpool howner

theorem accounts_in_custody_trial :
    World.trial.vaultKey 100 .stake = some 101 ∧ World.trial.vaultKey 100 (.reward 0) = some 102 ∧
      World.trialRuntime.signable 100 = false ∧
      ∀ q y, World.trial.vaultKey q y = some 102 → 100 = q ∧ .reward 0 = y := by
  have hkey : World.trial.vaultKey 100 (.reward 0) = some 102 := by decide +kernel
  have h := accounts_in_custody World.reachable_trial
  obtain ⟨P, hP⟩ := Option.isSome_iff_exists.mp
    (show (World.trial.pools 100).isSome = true by decide +kernel)
  exact ⟨by decide +kernel, hkey, (h.1 100 P hP).2.1,
    fun q y => h.2.2.1 100 q (.reward 0) y 102 hkey⟩

theorem World.Sound.kept_step (hw : w.Kept rt) {e : Event} (hs : w.Step rt e w') :
    (∀ p P, w.pools p = some P → ∃ P', w'.pools p = some P') ∧
      ∀ k a, w.stakers k = some a →
        ∃ a', w'.stakers k = some a' ∧ a'.pool = a.pool ∧ a'.owner = a.owner := by
  cases hs with
  | outside hs =>
      rw [hs.pools_eq, hs.stakers_eq]
      exact ⟨fun p P hP => ⟨P, hP⟩, fun k a hk => ⟨a, hk, rfl, rfl⟩⟩
  | @tx tx _ hs =>
      have htouch := hw.1.step_touches hs
      refine ⟨?_, ?_⟩
      · intro p P hP
        obtain ⟨P', hpools⟩ := htouch.pool
        by_cases hp : p = tx.instruction.pool
        · exact ⟨P', by simp [hpools, hp]⟩
        · exact ⟨P, by simpa [hpools, hp] using hP⟩
      · intro k a hk
        by_cases hix : tx.instruction.staker = some k
        · obtain ⟨hold, a', ha', hown, hpool⟩ := htouch.staker k hix
          obtain ⟨hown₀, hpool₀⟩ := hold a hk
          exact ⟨a', ha', hpool.trans hpool₀.symm, hown.trans hown₀.symm⟩
        · exact ⟨a, (htouch.stakers k hix).trans hk, rfl, rfl⟩

theorem World.Kept.run (hw : w.Kept rt) (r : Run (World.Step rt) w h w') :
    (∀ p P, w.pools p = some P → ∃ P', w'.pools p = some P') ∧
      ∀ k a, w.stakers k = some a →
        ∃ a', w'.stakers k = some a' ∧ a'.pool = a.pool ∧ a'.owner = a.owner := by
  refine (r.invariant (I := fun t => t.Kept rt ∧
    (∀ p P, w.pools p = some P → ∃ P', t.pools p = some P') ∧ ∀ k a, w.stakers k = some a →
      ∃ a', t.stakers k = some a' ∧ a'.pool = a.pool ∧ a'.owner = a.owner)
    ⟨hw, fun p P hP => ⟨P, hP⟩, fun k a hk => ⟨a, hk, rfl, rfl⟩⟩ ?_).2
  intro t e t' ⟨ht, hpools, hstakers⟩ hs
  obtain ⟨hpools', hstakers'⟩ := World.Sound.kept_step ht hs
  refine ⟨ht.step hs, ?_, ?_⟩
  · intro p P hP
    obtain ⟨P₁, hP₁⟩ := hpools p P hP
    exact hpools' p P₁ hP₁
  · intro k a hk
    obtain ⟨a₁, hk₁, hpool₁, howner₁⟩ := hstakers k a hk
    obtain ⟨a₂, hk₂, hpool₂, howner₂⟩ := hstakers' k a₁ hk₁
    exact ⟨a₂, hk₂, hpool₂.trans hpool₁, howner₂.trans howner₁⟩

theorem World.Kept.no_reopening (hw : w.Kept rt) (r : Run (World.Step rt) w h w')
    {p : Pubkey} {P : Pool} (hP : w.pools p = some P) : ∀ e ∈ h, ∀ tx, e.2 = .tx tx →
      tx.instruction.pool = p → ∀ ctx d keeper, tx.instruction ≠ .initializePool ctx d keeper := by
  induction r with
  | refl => simp
  | @tail h t e t' r hs ih =>
      intro e' he tx htx hpool ctx d keeper hix
      rcases List.mem_append.mp he with he | he
      · exact ih e' he tx htx hpool ctx d keeper hix
      · obtain rfl := List.mem_singleton.mp he
        obtain ⟨P₁, hP₁⟩ := (hw.run r).1 p P hP
        dsimp only at htx
        subst htx
        cases hs with
        | tx hs =>
            obtain ⟨-, -, u, hu, -⟩ := World.step_eq_ok_iff.mp hs
            rw [hix] at hu hpool
            obtain ⟨-, -, _, _, _, _, -, hvacant, -⟩ := InitializePool.handler_eq_ok_iff.mp hu
            have hnone := (World.vacant_iff.mp hvacant).1
            have hpool : ctx.pool = p := hpool
            rw [hpool, hP₁] at hnone
            cases hnone

theorem World.Reachable.keeps_pool (hw : w.Reachable rt) (r : Run (World.Step rt) w h w')
    {p : Pubkey} {P : Pool} (hP : w.pools p = some P) : ∃ P', w'.pools p = some P' ∧
      P'.stakeMint = P.stakeMint ∧ P'.bump = P.bump ∧ P'.stakeVault = P.stakeVault ∧
        ∀ i, P.Registered i → (P'.rewards i).keys = (P.rewards i).keys := by
  have hsound := hw.sound
  have hsound' := (hw.run r).sound
  obtain ⟨P', hP'⟩ := (hw.kept.run r).1 p P hP
  -- one key has one derivation
  have hfound := (hsound.pool hP).found
  have hfound' := (hsound'.pool hP').found
  have hmint := hsound.stakeMint_eq hsound' hP hP'
  have hbump : P'.bump = P.bump := by
    rw [hmint, hfound, Option.some.injEq, Prod.mk.injEq] at hfound'
    exact hfound'.2.symm
  have hvault : P'.stakeVault = P.stakeVault := by
    obtain ⟨bump, hv⟩ := (hsound.pool hP).vault_found
    obtain ⟨bump', hv'⟩ := (hsound'.pool hP').vault_found
    rw [hv, Option.some.injEq, Prod.mk.injEq] at hv'
    exact hv'.1.symm
  refine ⟨P', hP', hmint, hbump, hvault, ?_⟩
  intro i hi
  obtain ⟨g, s, l, s', ⟨s₀, l₀, hinit, r₀⟩, hs, q, -, hs'⟩ := hw.segment r hP
  obtain rfl : s.pool = P := Option.some.inj (hs.pool.symm.trans hP)
  obtain rfl : s'.pool = P' := Option.some.inj (hs'.pool.symm.trans hP')
  obtain ⟨hclock, htidy, -, -⟩ := registry_along hinit r₀
  exact keys_along hclock htidy q hi

/-- Along every run a pool keeps its mint, its bump, its stake vault and the mint and vault of
every occupied slot, and is not opened again; a staker account keeps its pool, owner and
bump. -/
theorem accounts_permanent (hw : w.Reachable rt) (r : Run (World.Step rt) w h w') :
    (∀ p P, w.pools p = some P →
      (∃ P', w'.pools p = some P' ∧ P'.stakeMint = P.stakeMint ∧ P'.bump = P.bump ∧
        P'.stakeVault = P.stakeVault ∧
        ∀ i, P.Registered i → (P'.rewards i).keys = (P.rewards i).keys) ∧
      ∀ e ∈ h, ∀ tx, e.2 = .tx tx → tx.instruction.pool = p →
        ∀ ctx d keeper, tx.instruction ≠ .initializePool ctx d keeper) ∧
    ∀ k a, w.stakers k = some a → ∃ a', w'.stakers k = some a' ∧ a'.identity = a.identity := by
  refine ⟨?_, ?_⟩
  · intro p P hP
    exact ⟨hw.keeps_pool r hP, hw.kept.no_reopening r hP⟩
  · intro k a hk
    obtain ⟨a', hk', hpool, howner⟩ := (hw.kept.run r).2 k a hk
    refine ⟨a', hk', ?_⟩
    have hfound := (hw.sound.staker hk).1.found
    have hfound' := ((hw.run r).sound.staker hk').1.found
    rw [hpool, howner, hfound, Option.some.injEq, Prod.mk.injEq] at hfound'
    rw [StakerAccount.identity, StakerAccount.identity, hpool, howner, hfound'.2]

/-- After a gift and a pause the pool of the trial is still the one of mint 5. -/
theorem accounts_permanent_trial : ∃ (w : World) (h : List (World × Event)),
    Run (World.Step World.trialRuntime) World.trial h w ∧ h.length = 2 ∧
      ∃ P, w.pools 100 = some P ∧ P.stakeMint = 5 := by
  obtain ⟨w, hw⟩ := exists_ok (x := World.trialGift.step World.trialRuntime
    ⟨[4], 70, .setPaused ⟨4, 100⟩ true⟩) (by decide +kernel)
  have r : Run (World.Step World.trialRuntime) World.trial _ w :=
    (Run.refl.tail (.outside World.outside_trialGift)).tail (.tx hw)
  obtain ⟨P, hP⟩ := Option.isSome_iff_exists.mp
    (show (World.trial.pools 100).isSome = true by decide +kernel)
  have hmint : (World.trial.pools 100).map (·.stakeMint) = some 5 := by decide +kernel
  rw [hP, Option.map_some, Option.some.injEq] at hmint
  obtain ⟨⟨P', hP', hsame, -⟩, -⟩ := (accounts_permanent World.reachable_trial r).1 100 P hP
  exact ⟨w, _, r, rfl, P', hP', hsame.trans hmint⟩

end MmStaking
