import MmStaking.Refine.Invariant
import MmStaking.Refine.Terms

/-! The slots fill up from the front, each with a mint of its own. So a slot is found by its
mint and, where the vaults differ, by its vault. -/
namespace MmStaking
open Words Loops Runs

variable {ι : Type}

/-- The occupied slots are those below the count, no two of them with one mint. -/
structure Pool.Packed (pool : Pool) : Prop where
  count_le : pool.rewardCount.val ≤ MAX_REWARDS
  occupied : ∀ i, pool.Registered i ↔ i.val < pool.rewardCount.val
  mint_inj : ∀ i j, pool.Registered i → (pool.rewards i).mint = (pool.rewards j).mint → i = j

section Packed
variable {pool pool' : Pool}

theorem Pool.Packed.freeSlot_val (hp : pool.Packed) {i : Slot} (h : freeSlot pool = some i) :
    i.val = pool.rewardCount.val := by
  obtain ⟨hi, hbelow⟩ := freeSlot_eq_some_iff.mp h
  have hge : pool.rewardCount.val ≤ i.val := not_lt.mp (mt (hp.occupied i).mpr hi)
  by_contra hne
  have hlt : pool.rewardCount.val < i.val := lt_of_le_of_ne hge (Ne.symm hne)
  have hreg := hbelow ⟨pool.rewardCount.val, hlt.trans i.isLt⟩ hlt
  exact lt_irrefl _ ((hp.occupied _).mp hreg)

theorem Pool.Packed.congr (hp : pool.Packed)
    (hm : ∀ i, (pool'.rewards i).mint = (pool.rewards i).mint)
    (hc : pool'.rewardCount.val = pool.rewardCount.val) : pool'.Packed := by
  have hreg : ∀ i, pool'.Registered i ↔ pool.Registered i := by
    intro i
    rw [Pool.Registered, Pool.Registered, hm]
  refine ⟨?_, ?_, ?_⟩
  · rw [hc]
    exact hp.count_le
  · intro i
    rw [hreg, hc]
    exact hp.occupied i
  · intro i j hi hij
    rw [hm, hm] at hij
    exact hp.mint_inj i j ((hreg i).mp hi) hij

theorem Pool.Packed.findSlot_iff (hp : pool.Packed) {i : Slot} (hi : pool.Registered i)
    {mint : Pubkey} : findSlot pool mint = some i ↔ (pool.rewards i).mint = mint := by
  rw [findSlot_eq_some_iff, and_iff_left_of_imp]
  intro hm j hj hjm
  exact hj.ne' (hp.mint_inj i j hi (hm.trans hjm.symm))

/-- No two occupied slots share a vault. -/
def Pool.DistinctVaults (pool : Pool) : Prop :=
  ∀ i j, pool.Registered i → pool.Registered j →
    (pool.rewards i).vault = (pool.rewards j).vault → i = j

theorem Pool.DistinctVaults.congr (hv : pool.DistinctVaults)
    (hk : ∀ i, (pool'.rewards i).keys = (pool.rewards i).keys) : pool'.DistinctVaults := by
  have hm : ∀ i, (pool'.rewards i).mint = (pool.rewards i).mint :=
    fun i => congrArg Prod.fst (hk i)
  have hvault : ∀ i, (pool'.rewards i).vault = (pool.rewards i).vault :=
    fun i => congrArg Prod.snd (hk i)
  intro i j hi hj hij
  rw [Pool.Registered, hm] at hi hj
  rw [hvault, hvault] at hij
  exact hv i j hi hj hij

/-- Looking up its vault finds a slot, for the slots before it are occupied as well. -/
theorem Pool.Packed.findVault_iff (hp : pool.Packed) (hv : pool.DistinctVaults) {i : Slot}
    (hi : pool.Registered i) {vaultKey : Pubkey} :
    findVault pool vaultKey = some i ↔ (pool.rewards i).vault = vaultKey := by
  rw [findVault_eq_some_iff, and_iff_left_of_imp]
  intro hk j hj hjk
  have hlt := (hp.occupied i).mp hi
  have hreg := (hp.occupied j).mpr (lt_trans hj hlt)
  exact hj.ne' (hv i j hi hreg (hk.trans hjk.symm))

theorem Pool.Packed.enroll (hp : pool.Packed) {idx : Slot} (hidx : freeSlot pool = some idx)
    {mint : Pubkey} (hnew : ∀ j, (pool.rewards j).mint ≠ mint)
    (hm : ∀ i, (pool'.rewards i).mint = if idx = i then mint else (pool.rewards i).mint)
    (hc : pool'.rewardCount.val = pool.rewardCount.val + 1) : pool'.Packed := by
  have hval := hp.freeSlot_val hidx
  have hmint : mint ≠ 0 := not_not.mp (freeSlot_some hidx) ▸ (hnew idx).symm
  refine ⟨?_, ?_, ?_⟩
  · have hlt := idx.isLt
    omega
  · intro i
    rw [Pool.Registered, hm, hc]
    split
    · rename_i hi
      subst hi
      exact iff_of_true hmint (by omega)
    · rename_i hi
      have hne : idx.val ≠ i.val := fun e => hi (Fin.ext e)
      exact (hp.occupied i).trans (by omega)
  · intro i j hi hij
    rw [Pool.Registered, hm] at hi
    rw [hm, hm] at hij
    split_ifs at hi hij with hi' hj' hj'
    · exact hi'.symm.trans hj'
    · exact absurd hij.symm (hnew j)
    · exact absurd hij (hnew i)
    · exact hp.mint_inj i j hi hij

end Packed

/-- The mints and vaults registered in a history. -/
def enrollments (h : List (Sys ι × Call ι)) : List (Pubkey × Pubkey) :=
  (h.map Prod.snd).filterMap fun c => c.op.enrolled

/-- What the handler derives the vault key by gives no default key, and different keys for
different mints. -/
structure DerivedVaults (h : List (Sys ι × Call ι)) : Prop where
  vault_ne : ∀ k ∈ enrollments h, k.2 ≠ 0
  vault_inj : ∀ k ∈ enrollments h, ∀ l ∈ enrollments h, k.2 = l.2 → k.1 = l.1

theorem DerivedVaults.of_append {h h' : List (Sys ι × Call ι)} (hv : DerivedVaults (h ++ h')) :
    DerivedVaults h := by
  have hmem : ∀ k ∈ enrollments h, k ∈ enrollments (h ++ h') := by
    intro k hk
    rw [enrollments, List.map_append, List.filterMap_append]
    exact List.mem_append_left _ hk
  constructor
  · intro k hk
    exact hv.vault_ne k (hmem k hk)
  · intro k hk l hl
    exact hv.vault_inj k (hmem k hk) l (hmem l hl)

variable [DecidableEq ι]

theorem packed_perform {s s' : Sys ι} (ht : s.Tidy) (hp : s.pool.Packed) {now : I64} {op : Op ι}
    (h : s.perform now op = .ok s') : s'.pool.Packed ∧ ∀ i, s'.pool.Registered i →
      (s'.pool.rewards i).keys ∈ op.enrolled ∨
        s.pool.Registered i ∧ (s'.pool.rewards i).keys = (s.pool.rewards i).keys := by
  obtain ⟨-, hcount, hterms⟩ := perform_terms ht.last_nonneg h
  by_cases hop : op.enrolled = none
  · have hkeys := fun i => perform_keys ht.last_nonneg h (i := i) (.inl hop)
    have hm : ∀ i, (s'.pool.rewards i).mint = (s.pool.rewards i).mint :=
      fun i => congrArg Prod.fst (hkeys i)
    refine ⟨hp.congr hm (by rw [hcount, hop]; rfl), ?_⟩
    intro i hi
    rw [Pool.Registered, hm] at hi
    exact .inr ⟨hi, hkeys i⟩
  · obtain ⟨mint, vault, d, rfl⟩ : ∃ mint vault d, op = .addReward mint vault d := by
      cases op <;> simp_all [Op.enrolled]
    obtain ⟨hnew, idx, -, hidx, -, -⟩ := perform_addReward_eq_ok_iff.mp h
    have hkeys : ∀ i, (s'.pool.rewards i).keys =
        if idx = i then (mint, vault) else (s.pool.rewards i).keys := by
      intro i
      rw [RewardInfo.keys_of_terms (hterms i)]
      simp only [Op.terms, hidx, Option.some.injEq]
      split <;> rfl
    have hm : ∀ i, (s'.pool.rewards i).mint =
        if idx = i then mint else (s.pool.rewards i).mint := by
      intro i
      refine (congrArg Prod.fst (hkeys i)).trans ?_
      split <;> rfl
    refine ⟨hp.enroll hidx (findSlot_none hnew) hm hcount, ?_⟩
    intro i hi
    rw [Pool.Registered, hm] at hi
    rw [hkeys]
    split
    · exact .inl rfl
    · rename_i hne
      rw [if_neg hne] at hi
      exact .inr ⟨hi, rfl⟩

theorem registry_along {s₀ s : Sys ι} {h : List (Sys ι × Call ι)} (h0 : s₀.Initial)
    (r : Run Sys.Step s₀ h s) : 0 ≤ s.clock.val ∧ s.Tidy ∧ s.pool.Packed ∧
      ∀ i, s.pool.Registered i → (s.pool.rewards i).keys ∈ enrollments h := by
  induction r with
  | refl =>
      obtain ⟨hclock, hslot, -, -, hcount, -⟩ := initial_blank h0
      have hempty : ∀ i, ¬ s₀.pool.Registered i := by
        intro i
        rw [Pool.Registered, hslot]
        exact not_not.mpr rfl
      refine ⟨by rw [hclock]; exact le_rfl, initial_tidy h0, ⟨?_, ?_, ?_⟩, ?_⟩
      · rw [hcount]
        exact Nat.zero_le _
      · intro i
        rw [hcount]
        exact iff_of_false (hempty i) (Nat.not_lt_zero _)
      · intro i _ hi
        exact absurd hi (hempty i)
      · intro i hi
        exact absurd hi (hempty i)
  | @tail h s c s' r hs ih =>
      obtain ⟨hclock, ht, hp, hkeys⟩ := ih
      obtain ⟨hle, t, hop, rfl⟩ := Sys.step_eq_ok_iff.mp hs
      obtain ⟨hp', hkeys'⟩ := packed_perform ht hp hop
      have h0 : 0 ≤ c.now.val := hclock.trans hle
      have ht' : t.Tidy := tidy_perform ht h0 hop
      refine ⟨h0, ht', hp', ?_⟩
      intro i hi
      rw [enrollments, List.map_append, List.filterMap_append, List.mem_append]
      obtain hnew | ⟨hold, hsame⟩ := hkeys' i hi
      · right
        simpa using hnew
      · left
        exact hsame ▸ hkeys i hold

theorem distinctVaults_along {s₀ s : Sys ι} {h : List (Sys ι × Call ι)} (h0 : s₀.Initial)
    (r : Run Sys.Step s₀ h s) (hv : DerivedVaults h) : s.pool.DistinctVaults := by
  obtain ⟨-, -, hp, hkeys⟩ := registry_along h0 r
  intro i j hi hj hij
  exact hp.mint_inj i j hi (hv.vault_inj _ (hkeys i hi) _ (hkeys j hj) hij)

theorem Sys.pair_run : ∃ h, Run Sys.Step Sys.trialStart h Sys.pair ∧
    h.map Prod.snd = Sys.pairCalls ∧ DerivedVaults h := by
  obtain ⟨h, r, hl⟩ := Sys.attempt_run Sys.trialStart Sys.pairCalls (by decide +kernel)
  have hlist : enrollments h = [(7, 11), (8, 12)] := by
    rw [enrollments, hl]
    rfl
  refine ⟨h, r, hl, ?_, ?_⟩ <;> simp [hlist]

theorem Sys.Reachable.registry {s : Sys ι} (hs : s.Reachable) : s.Tidy ∧ s.pool.Packed := by
  obtain ⟨s₀, h, h0, r⟩ := hs
  obtain ⟨-, ht, hp, -⟩ := registry_along h0 r
  exact ⟨ht, hp⟩

end MmStaking
