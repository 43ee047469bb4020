import MmStaking.Refine.Packed

/-! The slot registry: the slots fill up from the front, each with a mint and a vault of
its own that stay, and what is not filled is blank in every account. -/
namespace MmStaking
open Words Loops Runs

variable {ι : Type}

structure Sys.Registry (s : Sys ι) : Prop where
  packed : s.pool.Packed
  vault_ne : ∀ i, s.pool.Registered i → (s.pool.rewards i).vault ≠ 0
  vault_inj : s.pool.DistinctVaults
  duration_pos : ∀ i, s.pool.Registered i → 0 < (s.pool.rewards i).duration.val
  empty_slot : ∀ i, ¬ s.pool.Registered i → s.pool.rewards i = .zeroed
  empty_entry : ∀ i, ¬ s.pool.Registered i → ∀ v, (s.staker v).entries i = .zeroed

namespace Sys.Registry
variable {s : Sys ι}

theorem takeSlot_amount (hs : s.Registry) {v : ι} {vaultKey : Pubkey}
    (hkey : ∀ i, s.pool.Registered i → (s.pool.rewards i).vault ≠ vaultKey)
    {account : StakerAccount} {i : Slot} {amt : U64}
    (h : claimTakeSlot s.pool (s.staker v) vaultKey = .ok (account, i, amt)) : amt = 0 := by
  simp only [claimTakeSlot, bind_eq_ok_iff, okOr_eq_ok_iff, pure_eq_ok_iff, Prod.mk.injEq] at h
  obtain ⟨j, hj, -, rfl, rfl⟩ := h
  have hempty : ¬ s.pool.Registered j := fun hreg => hkey j hreg (findVault_eq_some_iff.mp hj).1
  rw [hs.empty_entry j hempty v]
  rfl

theorem addReward_ne_overflow (hs : s.Registry) (mint vault : Pubkey) (durationArg now : I64) :
    addReward s.pool mint vault durationArg now ≠ .error (.err .mathOverflow) := by
  have hcount : s.pool.rewardCount.val ≤ 8 := hs.packed.count_le
  intro h
  simp only [addReward, bind_eq_error_iff, require_eq_error_iff, okOr_eq_error_iff, pure_ne_error,
    Fault.err.injEq, reduceCtorEq, and_false, exists_false, or_false, false_or] at h
  obtain ⟨_, -, _, -, hfull, -⟩ := h
  have hsome : s.pool.rewardCount.checkedAdd one8 =
      some ⟨s.pool.rewardCount.val + 1, by omega⟩ := Unsigned.checkedAdd_eq_some_iff.mpr rfl
  cases hfull.symm.trans hsome

theorem addReward_blank (hs : s.Registry) {pool' : Pool} {mint vault : Pubkey}
    {durationArg now : I64} (h : addReward s.pool mint vault durationArg now = .ok pool') :
    ∃ i, i.val = s.pool.rewardCount.val ∧ (pool'.rewards i).keys = (mint, vault) ∧
      (pool'.rewards i).rewardPerTokenStored = 0 ∧ ∀ v, (s.staker v).entries i = .zeroed := by
  obtain ⟨-, idx, count, hidx, -, rfl⟩ := addReward_eq_ok_iff.mp h
  refine ⟨idx, hs.packed.freeSlot_val hidx, ?_, ?_, hs.empty_entry idx (freeSlot_some hidx)⟩
  · simp [Pool.setReward, RewardInfo.keys]
  · simp [Pool.setReward]

theorem notifyRate_ne_invalid (hs : s.Registry) {i : Slot} (hi : s.pool.Registered i)
    (amount : U64) (rate : U128) (now finish : I64) :
    notifyRate amount rate now finish (s.pool.rewards i).duration ≠
      .error (.err .invalidDuration) := by
  have hd := hs.duration_pos i hi
  intro h
  simp only [notifyRate, bind_eq_error_iff, require_eq_error_iff, hd, not_true_eq_false, false_and,
    okOr_eq_error_iff, Fault.err.injEq, reduceCtorEq, and_false, exists_false, or_false,
    false_or] at h
  obtain ⟨-, -, hleft⟩ := h
  split at hleft
  · cases hsub : finish.checkedSub now <;>
      simp [bind_eq_error_iff, orPanic, okOr_eq_error_iff, hsub] at hleft
  · cases hleft

end Sys.Registry

variable [DecidableEq ι]

theorem registry_of_run {s₀ s : Sys ι} {h : List (Sys ι × Call ι)} (h0 : s₀.Initial)
    (r : Run Sys.Step s₀ h s) (hv : DerivedVaults h) : s.Registry := by
  obtain ⟨-, ht, hp, hkeys⟩ := registry_along h0 r
  refine ⟨hp, ?_, distinctVaults_along h0 r hv, ht.duration_pos, ht.empty_slot, ht.empty_entry⟩
  intro i hi
  exact hv.vault_ne _ (hkeys i hi)

theorem keys_along {s s' : Sys ι} {h : List (Sys ι × Call ι)} (hclock : 0 ≤ s.clock.val)
    (ht : s.Tidy) (r : Run Sys.Step s h s') {i : Slot} (hi : s.pool.Registered i) :
    (s'.pool.rewards i).keys = (s.pool.rewards i).keys := by
  refine (r.invariant (I := fun t => (0 ≤ t.clock.val ∧ t.Tidy) ∧ t.pool.Registered i ∧
    (t.pool.rewards i).keys = (s.pool.rewards i).keys) ⟨⟨hclock, ht⟩, hi, rfl⟩ ?_).2.2
  intro t c t' ⟨⟨hclock, ht⟩, hi, hkeys⟩ hstep
  obtain ⟨hle, u, hop, rfl⟩ := Sys.step_eq_ok_iff.mp hstep
  have h0 : 0 ≤ c.now.val := hclock.trans hle
  have ht' : u.Tidy := tidy_perform ht h0 hop
  obtain ⟨hsame, hi'⟩ := perform_registered ht.last_nonneg hop hi
  exact ⟨⟨h0, ht'⟩, hi', hsame.trans hkeys⟩

/-- The registry of every run, when the vault keys are derived from the mints: the occupied
slots are those below the count, each found by its mint and by its vault, which stay, and
with a duration deposits accept; the others are blank, so a foreign key is paid nothing and
registration starts everyone from zero. -/
theorem slot_registry {s₀ s : Sys ι} {h : List (Sys ι × Call ι)} (h0 : s₀.Initial)
    (r : Run Sys.Step s₀ h s) (hv : DerivedVaults h) :
    (s.pool.rewardCount.val ≤ MAX_REWARDS ∧
      (∀ i, s.pool.Registered i ↔ i.val < s.pool.rewardCount.val) ∧
      ∀ mint vault durationArg now,
        addReward s.pool mint vault durationArg now ≠ .error (.err .mathOverflow)) ∧
    (∀ i j, s.pool.Registered i → s.pool.Registered j → i ≠ j →
      (s.pool.rewards i).mint ≠ (s.pool.rewards j).mint ∧
      (s.pool.rewards i).vault ≠ (s.pool.rewards j).vault) ∧
    (∀ i, s.pool.Registered i →
      (s.pool.rewards i).vault ≠ 0 ∧
      (∀ mint, findSlot s.pool mint = some i ↔ (s.pool.rewards i).mint = mint) ∧
      (∀ vaultKey, findVault s.pool vaultKey = some i ↔ (s.pool.rewards i).vault = vaultKey) ∧
      (∀ h' s', Run Sys.Step s h' s' →
        (s'.pool.rewards i).mint = (s.pool.rewards i).mint ∧
        (s'.pool.rewards i).vault = (s.pool.rewards i).vault) ∧
      0 < (s.pool.rewards i).duration.val ∧
      ∀ amount rate now finish,
        notifyRate amount rate now finish (s.pool.rewards i).duration ≠
          .error (.err .invalidDuration)) ∧
    (∀ i, ¬ s.pool.Registered i →
      s.pool.rewards i = .zeroed ∧ ∀ v, (s.staker v).entries i = .zeroed) ∧
    (∀ v vaultKey, (∀ i, s.pool.Registered i → (s.pool.rewards i).vault ≠ vaultKey) →
      ∀ account i amt,
        claimTakeSlot s.pool (s.staker v) vaultKey = .ok (account, i, amt) → amt = 0) ∧
    ∀ mint vault durationArg now pool',
      addReward s.pool mint vault durationArg now = .ok pool' →
      ∃ i, i.val = s.pool.rewardCount.val ∧ (pool'.rewards i).keys = (mint, vault) ∧
        (pool'.rewards i).rewardPerTokenStored = 0 ∧ ∀ v, (s.staker v).entries i = .zeroed := by
  have hs := registry_of_run h0 r hv
  obtain ⟨hclock, ht, -⟩ := registry_along h0 r
  refine ⟨⟨hs.packed.count_le, hs.packed.occupied, hs.addReward_ne_overflow⟩, ?_, ?_, ?_, ?_, ?_⟩
  · intro i j hi hj hne
    exact ⟨fun hm => hne (hs.packed.mint_inj i j hi hm),
      fun hvault => hne (hs.vault_inj i j hi hj hvault)⟩
  · intro i hi
    refine ⟨hs.vault_ne i hi, fun _ => hs.packed.findSlot_iff hi,
      fun _ => hs.packed.findVault_iff hs.vault_inj hi, ?_, hs.duration_pos i hi,
      hs.notifyRate_ne_invalid hi⟩
    intro h' s' r'
    exact Prod.mk.injEq .. ▸ keys_along hclock ht r' hi
  · intro i hi
    exact ⟨hs.empty_slot i hi, hs.empty_entry i hi⟩
  · intro v vaultKey hkey account i amt htake
    exact hs.takeSlot_amount hkey htake
  · intro mint vault durationArg now pool' hadd
    exact hs.addReward_blank hadd

/-- Two slots of one run: each is found by its mint and by its vault, and an unknown vault pays
nothing. -/
theorem slot_registry_pair :
    ((Sys.pair.pool.rewards 0).mint ≠ (Sys.pair.pool.rewards 1).mint ∧
      (Sys.pair.pool.rewards 0).vault ≠ (Sys.pair.pool.rewards 1).vault) ∧
    (findSlot Sys.pair.pool 7 = some 0 ∧ findVault Sys.pair.pool 11 = some 0) ∧
    (findSlot Sys.pair.pool 8 = some 1 ∧ findVault Sys.pair.pool 12 = some 1) ∧
    ∀ account i amt,
      claimTakeSlot Sys.pair.pool (Sys.pair.staker 0) 0 = .ok (account, i, amt) → amt = 0 := by
  obtain ⟨h, r, -, hv⟩ := Sys.pair_run
  have hreg : Sys.pair.pool.Registered 0 ∧ Sys.pair.pool.Registered 1 := by decide +kernel
  obtain ⟨-, hpair, hfind, -, htake, -⟩ := slot_registry Sys.initial_trialStart r hv
  obtain ⟨-, hmint, hvault, -⟩ := hfind 0 hreg.1
  obtain ⟨-, hmint', hvault', -⟩ := hfind 1 hreg.2
  exact ⟨hpair 0 1 hreg.1 hreg.2 (by decide),
    ⟨(hmint 7).mpr (by decide +kernel), (hvault 11).mpr (by decide +kernel)⟩,
    ⟨(hmint' 8).mpr (by decide +kernel), (hvault' 12).mpr (by decide +kernel)⟩,
    htake 0 0 (by decide +kernel)⟩

end MmStaking
