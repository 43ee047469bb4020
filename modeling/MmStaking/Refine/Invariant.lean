import MmStaking.Refine.Simulation

/-! The invariant of reachable states: tidy accounts, a clock no settlement is ahead
of, and a sound book for every slot. -/
namespace MmStaking
open Words Loops Runs Accrual

variable {ι : Type}

section Tidy
variable {pool pool' : Pool} {staker : ι → StakerAccount}

theorem Tidy.settleSlots (ht : Tidy pool staker) {now : I64} (h0 : 0 ≤ now.val)
    (h : settleSlots pool now = .ok pool') : Tidy pool' staker := by
  have hreg := settleSlots_registered ht.last_nonneg h
  refine ⟨?_, fun i hi => ht.empty_entry i (mt (hreg i).mpr hi), ?_, ?_, ?_⟩
  · intro i hi
    have hi' := mt (hreg i).mpr hi
    rw [settleSlots_empty h hi', ht.empty_slot i hi']
  · intro i
    have hs := congrArg Stream.last (settleSlots_stream ht.last_nonneg h i)
    change (pool'.rewards i).lastUpdateTime.val = _ at hs
    rw [hs]
    split
    · rw [Stream.settle_last]
      exact h0
    · exact ht.last_nonneg i
  · intro i hi
    have hd : (pool'.rewards i).duration = (pool.rewards i).duration :=
      congrArg (fun t => t.2.2.1) (settleSlots_terms ht.last_nonneg h i)
    rw [hd]
    exact ht.duration_pos i ((hreg i).mp hi)
  · rw [settleSlots_rewards_only h]
    exact ht.default_pos

theorem Tidy.congr (ht : Tidy pool staker) (hr : pool'.rewards = pool.rewards)
    (hd : pool'.defaultDuration = pool.defaultDuration) : Tidy pool' staker := by
  have hreg : ∀ i, pool'.Registered i ↔ pool.Registered i := fun i => by
    rw [Pool.Registered, Pool.Registered, hr]
  refine ⟨?_, fun i hi => ht.empty_entry i (mt (hreg i).mpr hi), ?_, ?_, ?_⟩
  · intro i hi
    rw [hr]
    exact ht.empty_slot i (mt (hreg i).mpr hi)
  · intro i
    rw [hr]
    exact ht.last_nonneg i
  · intro i hi
    rw [hr]
    exact ht.duration_pos i ((hreg i).mp hi)
  · rw [hd]
    exact ht.default_pos

theorem Tidy.setReward (ht : Tidy pool staker) (j : Slot) {slot : RewardInfo}
    (hm : slot.mint ≠ 0) (hl : 0 ≤ slot.lastUpdateTime.val) (hd : 0 < slot.duration.val) :
    Tidy (pool.setReward j slot) staker := by
  have hself : (pool.setReward j slot).rewards j = slot := Function.update_self _ _ _
  have hother : ∀ i, i ≠ j → (pool.setReward j slot).rewards i = pool.rewards i :=
    fun i hi => Function.update_of_ne hi _ _
  have hempty : ∀ i, ¬ (pool.setReward j slot).Registered i → i ≠ j := by
    rintro i hi rfl
    exact hi (by rw [Pool.Registered, hself]; exact hm)
  have hreg : ∀ i, i ≠ j → ((pool.setReward j slot).Registered i ↔ pool.Registered i) :=
    fun i hi => by rw [Pool.Registered, Pool.Registered, hother i hi]
  refine ⟨?_, ?_, ?_, ?_, ht.default_pos⟩
  · intro i hi
    have hne := hempty i hi
    rw [hother i hne]
    exact ht.empty_slot i (mt (hreg i hne).mpr hi)
  · intro i hi
    exact ht.empty_entry i (mt (hreg i (hempty i hi)).mpr hi)
  · intro i
    by_cases hij : i = j
    · rw [hij, hself]
      exact hl
    · rw [hother i hij]
      exact ht.last_nonneg i
  · intro i hi
    by_cases hij : i = j
    · rw [hij, hself]
      exact hd
    · rw [hother i hij]
      exact ht.duration_pos i ((hreg i hij).mp hi)

theorem Tidy.update [DecidableEq ι] (ht : Tidy pool staker) (v : ι) {account : StakerAccount}
    (ha : ∀ i, ¬ pool.Registered i → account.entries i = .zeroed) :
    Tidy pool (Function.update staker v account) := by
  refine ⟨ht.empty_slot, ?_, ht.last_nonneg, ht.duration_pos, ht.default_pos⟩
  intro i hi u
  by_cases hu : u = v
  · rw [hu, Function.update_self]
    exact ha i hi
  · rw [Function.update_of_ne hu]
    exact ht.empty_entry i hi u

theorem settleEntries_empty {account account' : StakerAccount}
    (h : settleEntries pool account = .ok account') {i : Slot} (hi : ¬ pool.Registered i) :
    account'.entries i = account.entries i := by
  have hs := (settleEntries_eq_ok_iff.mp h).2 i
  rwa [if_neg hi] at hs

theorem claimTakeAll_blank {keys : List Pubkey} {account account' : StakerAccount}
    {paid : List (Slot × U64)} (h : claimTakeAll pool account keys = .ok (account', paid))
    {i : Slot} (hi : account.entries i = .zeroed) : account'.entries i = .zeroed := by
  refine claimTakeAll_invariant (I := fun a => a.entries i = .zeroed) ?_ hi h
  intro a j ha
  by_cases hij : i = j
  · subst hij
    simp [ha, RewardEntry.zeroed]
  · simpa [hij] using ha

end Tidy

variable [DecidableEq ι]

theorem tidy_perform {s s' : Sys ι} (ht : s.Tidy) {now : I64} (h0 : 0 ≤ now.val) {op : Op ι}
    (h : s.perform now op = .ok s') : s'.Tidy := by
  cases op with
  | addReward mint vault durationArg =>
      obtain ⟨hm, idx, count, hidx, -, rfl⟩ := perform_addReward_eq_ok_iff.mp h
      have hmint : mint ≠ 0 := by
        have hne := findSlot_none hm idx
        rw [not_not.mp (freeSlot_some hidx)] at hne
        exact hne.symm
      have hpos :
          0 < (if 0 < durationArg.val then durationArg else s.pool.defaultDuration).val := by
        split
        · assumption
        · exact ht.default_pos
      refine (?_ : Tidy (s.pool.setReward idx _) s.staker).congr rfl rfl
      exact Tidy.setReward ht idx hmint h0 hpos
  | stake v owner poolKey stakerBump amount =>
      obtain ⟨-, -, p₁, a₁, staked, total, hs, he, -, -, rfl⟩ := perform_stake_eq_ok_iff.mp h
      have hp := Tidy.settleSlots ht h0 hs
      refine (hp.update v ?_).congr rfl rfl
      intro i hi
      have hblank : ((s.staker v).opened owner poolKey stakerBump).entries i = .zeroed := by
        rw [StakerAccount.opened_entries]
        exact hp.empty_entry i hi v
      exact (settleEntries_empty he hi).trans hblank
  | unstake v amount =>
      obtain ⟨-, -, p₁, a₁, staked, total, hs, he, -, -, rfl⟩ := perform_unstake_eq_ok_iff.mp h
      have hp := Tidy.settleSlots ht h0 hs
      refine (hp.update v ?_).congr rfl rfl
      intro i hi
      exact (settleEntries_empty he hi).trans (hp.empty_entry i hi v)
  | depositRewards mint received =>
      obtain ⟨j, -, ha, p₁, rate, finish, hs, -, -, rfl⟩ := perform_depositRewards_eq_ok_iff.mp h
      have hp := Tidy.settleSlots ht h0 hs
      have hreg := (settleSlots_registered ht.last_nonneg hs j).mpr (ht.registered_of_active ha)
      exact hp.setReward j hreg h0 (hp.duration_pos j hreg)
  | claim v vaultKeys =>
      obtain ⟨p₁, a₁, a₂, paid, hs, he, hc, rfl⟩ := perform_claim_eq_ok_iff.mp h
      have hp := Tidy.settleSlots ht h0 hs
      exact hp.update v fun i hi =>
        claimTakeAll_blank hc ((settleEntries_empty he hi).trans (hp.empty_entry i hi v))
  | emergencyWithdraw v =>
      obtain rfl := perform_emergencyWithdraw_eq_ok_iff.mp h
      refine (Tidy.update ht v ?_).congr rfl rfl
      intro i hi
      simp [ht.empty_slot i hi, RewardInfo.zeroed, RewardEntry.zeroed]
  | setRewardActive slot active =>
      obtain ⟨j, hj, rfl⟩ := perform_setRewardActive_eq_ok_iff.mp h
      have hreg := slotArg_some hj
      exact Tidy.setReward ht j hreg (ht.last_nonneg j) (ht.duration_pos j hreg)
  | setDuration slot duration =>
      obtain ⟨hd, j, hj, rfl⟩ := perform_setDuration_eq_ok_iff.mp h
      exact Tidy.setReward ht j (slotArg_some hj) (ht.last_nonneg j) hd
  | setPaused paused =>
      cases h
      exact Tidy.congr ht rfl rfl
  | setKeeperAuthority keeper =>
      cases h
      exact Tidy.congr ht rfl rfl
  | setAdmin newAdmin =>
      cases h
      exact Tidy.congr ht rfl rfl

omit [DecidableEq ι] in
theorem acts_at (op : Op ι) (pool : Pool) (i : Slot) (now : I64) :
    ∀ a ∈ op.acts pool i now, a.At now.val :=
  Op.forall_acts (Q := Act.At now.val) rfl rfl (fun _ => rfl) (fun _ _ => ⟨trivial, trivial⟩)
    (fun _ => ⟨trivial, trivial, trivial⟩) op

omit [DecidableEq ι] in
/-- No settlement is later than `now` anywhere, empty slots included. -/
theorem last_le {s : Sys ι} (ht : s.Tidy) {now : I64} (hnow : s.NotBefore now) (i : Slot) :
    (s.book i).stream.last ≤ now.val := by
  by_cases hi : s.pool.Registered i
  · exact hnow.2 i hi
  · have hz : (s.book i).stream.last = 0 := by
      simp [Sys.book, bookOf, ht.empty_slot i hi, RewardInfo.zeroed, RewardInfo.stream]
    rw [hz]
    exact hnow.1

section Reachable
variable [Fintype ι]

structure Sys.Inv (s : Sys ι) : Prop where
  tidy : s.Tidy
  notBefore : s.NotBefore s.clock
  sound : ∀ i, (s.book i).Sound

omit [DecidableEq ι] in
theorem Sys.Inv.staked_le {s : Sys ι} (hs : s.Inv) (v : ι) :
    (s.staker v).stakedAmount.val ≤ s.pool.totalStaked.val := by
  have h := (hs.sound ⟨0, by decide⟩).weight_le v
  simpa [Sys.book, bookOf, StakerAccount.holder] using h

theorem Sys.Inv.simulate {s s' : Sys ι} (hs : s.Inv) {now : I64} (hnow : s.NotBefore now)
    {op : Op ι} (h : s.perform now op = .ok s') (i : Slot) :
    s'.book i = (s.book i).run P (op.acts s.pool i now) ∧
      Book.Along P Book.Allowed (s.book i) (op.acts s.pool i now) :=
  And.imp_right (fun hallowed => hallowed hnow) (MmStaking.simulate hs.tidy hnow.1 hs.staked_le h i)

omit [DecidableEq ι] in
theorem Sys.Inv.notBefore_of_le {s : Sys ι} (hs : s.Inv) {now : I64}
    (h : s.clock.val ≤ now.val) : s.NotBefore now :=
  ⟨hs.notBefore.1.trans h, fun i hi => (hs.notBefore.2 i hi).trans h⟩

theorem notBefore_perform {s s' : Sys ι} (hs : s.Inv) {now : I64} (hnow : s.NotBefore now)
    {op : Op ι} (h : s.perform now op = .ok s') : s'.NotBefore now := by
  refine ⟨hnow.1, ?_⟩
  intro i _
  have hsim := (hs.simulate hnow h i).1
  change (s'.book i).stream.last ≤ now.val
  rw [hsim]
  rcases Book.run_last (P := P) (b := s.book i) (acts_at op s.pool i now) with hl | hl
  · rw [hl]
    exact last_le hs.tidy hnow i
  · exact hl.le

theorem Sys.Inv.perform {s s' : Sys ι} (hs : s.Inv) {now : I64} (hnow : s.NotBefore now)
    {op : Op ι} (h : s.perform now op = .ok s') : Sys.Inv { s' with clock := now } := by
  have htidy := tidy_perform hs.tidy hnow.1 h
  have hlast := notBefore_perform hs hnow h
  refine ⟨htidy, ⟨hlast.1, hlast.2⟩, ?_⟩
  intro i
  obtain ⟨hbook, hallowed⟩ := hs.simulate hnow h i
  change (s'.book i).Sound
  rw [hbook]
  exact (hs.sound i).run hallowed

theorem Sys.Inv.step {s s' : Sys ι} (hs : s.Inv) {c : Call ι} (h : s.Step c s') : s'.Inv := by
  obtain ⟨hclock, t, ht, rfl⟩ := Sys.step_eq_ok_iff.mp h
  exact hs.perform (hs.notBefore_of_le hclock) ht

omit [DecidableEq ι] [Fintype ι] in
theorem initial_blank {s : Sys ι} (h : s.Initial) :
    s.clock = 0 ∧ (∀ i, s.pool.rewards i = .zeroed) ∧ (∀ v, s.staker v = .zeroed) ∧
      s.pool.totalStaked = 0 ∧ s.pool.rewardCount = 0 ∧ 0 < s.pool.defaultDuration.val ∧
      s.ledger = .empty := by
  obtain ⟨admin, keeper, mint, vault, d, bump, pool, hp, rfl⟩ := h
  simp only [initPool, bind_eq_ok_iff, require_eq_ok_iff, pure_eq_ok_iff] at hp
  obtain ⟨_, hd, rfl⟩ := hp
  exact ⟨rfl, fun _ => rfl, fun _ => rfl, rfl, rfl, hd, rfl⟩

omit [DecidableEq ι] [Fintype ι] in
theorem initial_book {s : Sys ι} (h : s.Initial) (i : Slot) : s.book i =
    { stream := { rate := 0, index := 0, finish := 0, last := 0 }
      holder := fun _ => { weight := 0, paid := 0, accrued := 0 }
      total := 0, vault := 0, deposited := 0, claimed := fun _ => 0 } := by
  obtain ⟨-, hslot, hstaker, htotal, -, -, hledger⟩ := initial_blank h
  simp only [Sys.book, bookOf, hslot, hstaker, htotal, hledger]
  rfl

omit [DecidableEq ι] [Fintype ι] in
theorem initial_tidy {s : Sys ι} (h : s.Initial) : s.Tidy := by
  obtain ⟨-, hslot, hstaker, -, -, hd, -⟩ := initial_blank h
  refine ⟨fun i _ => hslot i, ?_, ?_, ?_, hd⟩
  · intro i _ v
    rw [hstaker]
    rfl
  · intro i
    rw [hslot]
    exact le_rfl
  · intro i hi
    rw [Pool.Registered, hslot] at hi
    exact absurd rfl hi

omit [DecidableEq ι] in
theorem inv_initial {s : Sys ι} (h : s.Initial) : s.Inv := by
  obtain ⟨hclock, hslot, -⟩ := initial_blank h
  refine ⟨initial_tidy h, ⟨by rw [hclock]; exact le_rfl, ?_⟩, ?_⟩
  · intro i hi
    rw [Pool.Registered, hslot] at hi
    exact absurd rfl hi
  · intro i
    rw [initial_book h i]
    exact ⟨by simp, fun _ => le_rfl⟩

theorem Sys.Reachable.inv {s : Sys ι} (hs : s.Reachable) : s.Inv :=
  hs.invariant (fun _ h => inv_initial h) fun _ _ _ hi h => hi.step h

theorem Sys.Reachable.book_invariant {I : Book ι → Prop} {i : Slot} {s : Sys ι}
    (hs : s.Reachable) (h0 : ∀ s : Sys ι, s.Initial → I (s.book i))
    (hstep : ∀ b a, b.Sound → b.Allowed a → I b → I (b.apply P a)) : I (s.book i) := by
  refine (hs.invariant (I := fun s => s.Inv ∧ I (s.book i)) (fun s h => ⟨inv_initial h, h0 s h⟩)
    fun s c s' hi h => ⟨hi.1.step h, ?_⟩).2
  obtain ⟨hclock, t, ht, rfl⟩ := Sys.step_eq_ok_iff.mp h
  obtain ⟨hbook, hallowed⟩ := hi.1.simulate (hi.1.notBefore_of_le hclock) ht i
  change I (t.book i)
  rw [hbook]
  exact (Book.run_invariant (I := fun b => b.Sound ∧ I b)
    (fun b a hb ha => ⟨hb.1.apply ha, hstep b a hb.1 ha hb.2⟩) ⟨hi.1.sound i, hi.2⟩ hallowed).2

theorem Sys.run_potential_le {M : Type*} [AddCommMonoid M] [PartialOrder M] [IsOrderedAddMonoid M]
    {φ : Book ι → M} {c : Book ι → Act ι → M} {Q : Book ι → Act ι → Prop} {i : Slot}
    (hφ : ∀ b a, b.Sound → b.Allowed a → Q b a → φ (b.apply P a) ≤ φ b + c b a)
    {s₀ s : Sys ι} {h : List (Sys ι × Call ι)} (h0 : s₀.Inv) (r : Run Sys.Step s₀ h s)
    (hQ : ∀ e ∈ h, Book.Along P Q (e.1.book i) (e.2.op.acts e.1.pool i e.2.now)) :
    φ (s.book i) ≤ φ (s₀.book i) +
      cost (fun s e => Book.tally P c (s.book i) (e.op.acts s.pool i e.now)) h := by
  refine r.potential_le (φ := fun s => φ (s.book i))
    (G := fun s e => Book.Along P Q (s.book i) (e.op.acts s.pool i e.now)) h0
    (fun _ _ _ hi hs => hi.step hs) hQ ?_
  intro s e s' hi hq hs
  obtain ⟨hclock, t, ht, rfl⟩ := Sys.step_eq_ok_iff.mp hs
  obtain ⟨hbook, hallowed⟩ := hi.simulate (hi.notBefore_of_le hclock) ht i
  change φ (t.book i) ≤ _
  rw [hbook]
  exact Book.run_potential_le (I := Book.Sound) (fun _ _ hb ha => hb.apply ha.1)
    (fun b a hb ha => hφ b a hb ha.1 ha.2) (hi.sound i) (hallowed.and hq)

end Reachable

end MmStaking
