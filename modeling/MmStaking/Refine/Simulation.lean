import MmStaking.Refine.Acts
import MmStaking.Refine.Calls

/-! The simulation: from tidy accounts, an instruction acts on every book by the acts
of `Op.acts`, all of them allowed when no settlement is ahead of its time. -/
namespace MmStaking
open Words Loops Accrual

variable {ι : Type}

/-- What the reachable accounts keep besides the numbers of the books: an empty slot
is blank, in the pool and in every staker account, and times and durations are sane. -/
structure Tidy (pool : Pool) (staker : ι → StakerAccount) : Prop where
  empty_slot : ∀ i, ¬ pool.Registered i → pool.rewards i = .zeroed
  empty_entry : ∀ i, ¬ pool.Registered i → ∀ v, (staker v).entries i = .zeroed
  last_nonneg : ∀ i, 0 ≤ (pool.rewards i).lastUpdateTime.val
  duration_pos : ∀ i, pool.Registered i → 0 < (pool.rewards i).duration.val
  default_pos : 0 < pool.defaultDuration.val

def Sys.Tidy (s : Sys ι) : Prop := MmStaking.Tidy s.pool s.staker

/-- `now` is not before the last settlement of any registered slot. -/
def Sys.NotBefore (s : Sys ι) (now : I64) : Prop :=
  0 ≤ now.val ∧ ∀ i, s.pool.Registered i → (s.pool.rewards i).lastUpdateTime.val ≤ now.val

theorem Tidy.registered_of_active {pool : Pool} {staker : ι → StakerAccount}
    (ht : Tidy pool staker) {i : Slot} (ha : (pool.rewards i).active.val = 1) :
    pool.Registered i := by
  by_contra hreg
  rw [ht.empty_slot i hreg] at ha
  cases ha

theorem book_setReward (pool : Pool) (j : Slot) (slot : RewardInfo) (staker : ι → StakerAccount)
    (ledger : Ledger ι) (i : Slot) (hslot : slot.stream = (pool.rewards j).stream) :
    bookOf (pool.setReward j slot) staker ledger i = bookOf pool staker ledger i := by
  by_cases hi : i = j
  · subst hi
    simp [bookOf, Pool.setReward, hslot]
  · simp [bookOf, Pool.setReward, hi]

variable [DecidableEq ι]

section Acts
variable {s : Sys ι} {now : I64}

theorem allowed_settleActs (hnow : s.NotBefore now) (i : Slot) :
    Book.Along P Book.Allowed (s.book i) (settleActs s.pool i now) := by
  unfold settleActs
  split
  · rename_i hi
    exact ⟨hnow.2 i hi, trivial⟩
  · trivial

theorem allowed_settleActsFor (hnow : s.NotBefore now) (i : Slot) (v : ι) :
    Book.Along P Book.Allowed (s.book i) (settleActsFor s.pool i now v) := by
  unfold settleActsFor
  split
  · rename_i hi
    exact ⟨hnow.2 i hi, trivial, trivial⟩
  · trivial

theorem paid_settleActsFor (ht : s.Tidy) (i : Slot) (v : ι) :
    (((s.book i).run P (settleActsFor s.pool i now v)).holder v).paid =
      ((s.book i).run P (settleActsFor s.pool i now v)).stream.index := by
  unfold settleActsFor
  split
  · simp [Book.apply]
  · rename_i hi
    simp [Sys.book, bookOf, StakerAccount.holder, RewardInfo.stream, ht.empty_entry i hi v,
      ht.empty_slot i hi, RewardEntry.zeroed, RewardInfo.zeroed]

theorem weight_settleActsFor (i : Slot) (v : ι) :
    (((s.book i).run P (settleActsFor s.pool i now v)).holder v).weight =
      (s.staker v).stakedAmount.val := by
  unfold settleActsFor
  split
  · simp [Book.apply, Sys.book, bookOf, StakerAccount.holder]
  · rfl

theorem allowed_takeActs (pool : Pool) (i : Slot) (v : ι) (keys : List Pubkey) (b : Book ι) :
    Book.Along P Book.Allowed b (takeActs pool i v keys) := by
  unfold takeActs
  generalize keys.filter _ = l
  induction l generalizing b with
  | nil => trivial
  | cons key l ih => exact ⟨trivial, ih _⟩

end Acts

section Simulation
variable {s s' : Sys ι} {now : I64}

/-- What the simulation says of one call on the book of one slot. -/
def Simulates (s s' : Sys ι) (now : I64) (op : Op ι) (i : Slot) : Prop :=
  s'.book i = (s.book i).run P (op.acts s.pool i now) ∧
    (s.NotBefore now → Book.Along P Book.Allowed (s.book i) (op.acts s.pool i now))

theorem simulate_stake (ht : s.Tidy) {v : ι} {owner poolKey : Pubkey}
    {stakerBump : U8} {amount : U64}
    (h : s.perform now (.stake v owner poolKey stakerBump amount) = .ok s') (i : Slot) :
    Simulates s s' now (.stake v owner poolKey stakerBump amount) i := by
  obtain ⟨-, -, p₁, a₁, staked, total, hs, he, hst, htot, rfl⟩ := perform_stake_eq_ok_iff.mp h
  have hbook := bookOf_settleEntries s.staker s.ledger ht.last_nonneg hs
    (fun i => StakerAccount.opened_holder _ _ _ _ i) he i
  refine ⟨?_, fun hnow => (Book.along_append P).mpr
    ⟨allowed_settleActsFor hnow i v, paid_settleActsFor ht i v, trivial⟩⟩
  change _ = (bookOf s.pool s.staker s.ledger i).run P (settleActsFor s.pool i now v ++ _)
  rw [Book.run_append, ← hbook, bookOf_update]
  simp only [Sys.book, Sys.put, bookOf_update, Book.run_cons, Book.run_nil, Book.apply]
  apply Book.ext
  · rfl
  · simp [bookOf, StakerAccount.holder, hst]
  · simp [bookOf, htot]
  · rfl
  · rfl
  · rfl

theorem simulate_unstake (ht : s.Tidy) {v : ι} {amount : U64}
    (h : s.perform now (.unstake v amount) = .ok s') (i : Slot) :
    Simulates s s' now (.unstake v amount) i := by
  obtain ⟨-, ha, p₁, a₁, staked, total, hs, he, ⟨hle, hst⟩, ⟨htle, htot⟩, rfl⟩ :=
    perform_unstake_eq_ok_iff.mp h
  have hbook := bookOf_settleEntries s.staker s.ledger ht.last_nonneg hs (fun _ => rfl) he i
  refine ⟨?_, fun hnow => (Book.along_append P).mpr ⟨allowed_settleActsFor hnow i v,
    ⟨paid_settleActsFor ht i v, ?_⟩, trivial⟩⟩
  · change _ = (bookOf s.pool s.staker s.ledger i).run P (settleActsFor s.pool i now v ++ _)
    rw [Book.run_append, ← hbook, bookOf_update]
    simp only [Sys.book, Sys.put, bookOf_update, Book.run_cons, Book.run_nil, Book.apply]
    apply Book.ext
    · rfl
    · simp [bookOf, StakerAccount.holder, hst]
    · simp [bookOf, htot, htle]
    · rfl
    · rfl
    · rfl
  · rw [weight_settleActsFor]
    exact ha

theorem simulate_depositRewards (ht : s.Tidy) (h0 : 0 ≤ now.val) {mint : Pubkey}
    {received : U64} (h : s.perform now (.depositRewards mint received) = .ok s') (i : Slot) :
    Simulates s s' now (.depositRewards mint received) i := by
  obtain ⟨j, hj, ha, p₁, rate, finish, hs, hr, hf, rfl⟩ := perform_depositRewards_eq_ok_iff.mp h
  have hreg : s.pool.Registered j := ht.registered_of_active ha
  have hterms := settleSlots_terms ht.last_nonneg hs j
  have hdur : (p₁.rewards j).duration = (s.pool.rewards j).duration :=
    congrArg (fun t => t.2.2.1) hterms
  have hdpos := ht.duration_pos j hreg
  have hbook := bookOf_settleSlots s.staker s.ledger ht.last_nonneg hs i
  have hrun : (Op.depositRewards mint received : Op ι).acts s.pool i now =
      settleActs s.pool i now ++
        if findSlot s.pool mint = some i then
          [.refill received.val (s.pool.rewards i).duration.val.toNat now.val]
        else [] := rfl
  rw [Simulates, hrun, Book.run_append, Book.along_append]
  change _ = Book.run P ((bookOf s.pool s.staker s.ledger i).run P _) _ ∧ (_ → _ ∧ _)
  rw [← hbook]
  rw [notifyRate_eq_ok_iff h0, hdur] at hr
  by_cases hi : j = i
  · subst hi
    rw [if_pos hj]
    refine ⟨?_, fun hnow => ⟨allowed_settleActs hnow j, ?_, trivial⟩⟩
    · simp only [Book.run_cons, Book.run_nil, Book.apply, Sys.book]
      apply Book.ext
      · have hd : ((s.pool.rewards j).duration.val.toNat : ℤ) = (s.pool.rewards j).duration.val :=
          Int.toNat_of_nonneg hdpos.le
        simp only [bookOf, Pool.setReward, Function.update_self, RewardInfo.stream, Stream.refill,
          hr.2.2, hf, hdur, hd]
      · rfl
      · rfl
      · simp [bookOf, Ledger.recordDeposit]
      · simp [bookOf, Ledger.recordDeposit]
      · rfl
    · refine ⟨?_, by omega⟩
      change ((bookOf s.pool s.staker s.ledger j).run P (settleActs s.pool j now)).stream.last = _
      rw [settleActs, if_pos hreg]
      exact Stream.settle_last _
  · have hne : findSlot s.pool mint ≠ some i := by simpa [hj] using hi
    have hi' : i ≠ j := fun h => hi h.symm
    rw [if_neg hne]
    refine ⟨?_, fun hnow => ⟨allowed_settleActs hnow i, trivial⟩⟩
    apply Book.ext
    · simp [Sys.book, bookOf, Pool.setReward, hi']
    · rfl
    · rfl
    · simp [Sys.book, bookOf, Ledger.recordDeposit, hi']
    · simp [Sys.book, bookOf, Ledger.recordDeposit, hi']
    · rfl

theorem simulate_claim (ht : s.Tidy) {v : ι} {vaultKeys : List Pubkey}
    (h : s.perform now (.claim v vaultKeys) = .ok s') (i : Slot) :
    Simulates s s' now (.claim v vaultKeys) i := by
  obtain ⟨p₁, a₁, a₂, paid, hs, he, hc, rfl⟩ := perform_claim_eq_ok_iff.mp h
  have hbook := bookOf_settleEntries s.staker s.ledger ht.last_nonneg hs (fun _ => rfl) he i
  have htake := takeActs_congr (settleSlots_terms ht.last_nonneg hs) i v vaultKeys
  refine ⟨?_, fun hnow => (Book.along_append P).mpr
    ⟨allowed_settleActsFor hnow i v, allowed_takeActs s.pool i v vaultKeys _⟩⟩
  change _ = (bookOf s.pool s.staker s.ledger i).run P (settleActsFor s.pool i now v ++ _)
  rw [Book.run_append, ← hbook, ← htake]
  exact bookOf_claimTakeAll i hc

theorem simulate_emergencyWithdraw {v : ι}
    (hle : (s.staker v).stakedAmount.val ≤ s.pool.totalStaked.val)
    (h : s.perform now (.emergencyWithdraw v) = .ok s') (i : Slot) :
    Simulates s s' now (.emergencyWithdraw v) i := by
  obtain rfl := perform_emergencyWithdraw_eq_ok_iff.mp h
  refine ⟨?_, fun _ => ⟨trivial, trivial⟩⟩
  simp only [Op.acts, Sys.book, Sys.put, bookOf_update, Book.run_cons, Book.run_nil, Book.apply]
  apply Book.ext
  · rfl
  · rfl
  · simp [bookOf, StakerAccount.holder, hle]
  · rfl
  · rfl
  · rfl

theorem simulate_addReward (ht : s.Tidy) {mint vault : Pubkey} {durationArg : I64}
    (h : s.perform now (.addReward mint vault durationArg) = .ok s') (i : Slot) :
    Simulates s s' now (.addReward mint vault durationArg) i := by
  obtain ⟨-, idx, count, hidx, -, rfl⟩ := perform_addReward_eq_ok_iff.mp h
  simp only [Simulates, Op.acts, hidx, Option.some.injEq]
  by_cases hi : idx = i
  · subst hi
    have hz := ht.empty_slot idx (freeSlot_some hidx)
    rw [if_pos rfl]
    refine ⟨?_, fun _ => ⟨⟨?_, ?_⟩, trivial⟩⟩
    · simp [Sys.book, bookOf, Pool.setReward, RewardInfo.stream, Book.apply]
    · simp [Sys.book, bookOf, hz, RewardInfo.zeroed, RewardInfo.stream]
    · simp [Sys.book, bookOf, hz, RewardInfo.zeroed, RewardInfo.stream]
  · have hi' : i ≠ idx := fun h => hi h.symm
    rw [if_neg hi]
    refine ⟨?_, fun _ => trivial⟩
    simp [Sys.book, bookOf, Pool.setReward, hi']

/-- Every instruction acts on every book by its acts, and they are allowed. -/
theorem simulate (ht : s.Tidy) (h0 : 0 ≤ now.val)
    (hle : ∀ v, (s.staker v).stakedAmount.val ≤ s.pool.totalStaked.val) {op : Op ι}
    (h : s.perform now op = .ok s') (i : Slot) : Simulates s s' now op i := by
  cases op with
  | addReward mint vault durationArg => exact simulate_addReward ht h i
  | stake v owner poolKey stakerBump amount => exact simulate_stake ht h i
  | unstake v amount => exact simulate_unstake ht h i
  | depositRewards mint received => exact simulate_depositRewards ht h0 h i
  | claim v vaultKeys => exact simulate_claim ht h i
  | emergencyWithdraw v => exact simulate_emergencyWithdraw (hle v) h i
  | setRewardActive slot active =>
      obtain ⟨j, -, rfl⟩ := perform_setRewardActive_eq_ok_iff.mp h
      exact ⟨book_setReward s.pool j _ s.staker s.ledger i rfl, fun _ => trivial⟩
  | setDuration slot duration =>
      obtain ⟨-, j, -, rfl⟩ := perform_setDuration_eq_ok_iff.mp h
      exact ⟨book_setReward s.pool j _ s.staker s.ledger i rfl, fun _ => trivial⟩
  | setPaused paused =>
      cases h
      exact ⟨rfl, fun _ => trivial⟩
  | setKeeperAuthority keeper =>
      cases h
      exact ⟨rfl, fun _ => trivial⟩
  | setAdmin newAdmin =>
      cases h
      exact ⟨rfl, fun _ => trivial⟩

end Simulation

end MmStaking
