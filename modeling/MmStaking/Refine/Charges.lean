import MmStaking.Refine.Invariant

/-! Quantities summed over the acts of a run, read off its instructions: an instruction
is charged for settling the slot, for settling a staker's entry, for a deposit into the
slot and for an emergency exit. -/
namespace MmStaking
open Words Loops Runs Accrual

variable {ι : Type}

/-- The instructions that settle the pool before anything else. -/
def Op.settles : Op ι → Bool
  | .stake _ _ _ _ _ | .unstake _ _ | .depositRewards _ _ | .claim _ _ => true
  | .addReward _ _ _ | .setRewardActive _ _ | .emergencyWithdraw _ | .setPaused _
  | .setKeeperAuthority _ | .setAdmin _ | .setDuration _ _ => false

/-- The charge of an instruction on slot `i`: `slot` for a settlement of the slot, `entry v`
for a settlement of the entry of `v`, `deposit` for a deposit into the slot and `exit v`
for an emergency exit of `v`. -/
def Op.charge {M : Type*} [Zero M] [Add M] (pool : Pool) (i : Slot) (slot : M) (entry : ι → M)
    (deposit : M) (exit : ι → M) : Op ι → M
  | .stake v _ _ _ _ | .unstake v _ | .claim v _ =>
      if pool.Registered i then slot + entry v else 0
  | .depositRewards mint _ =>
      (if pool.Registered i then slot else 0) +
        if findSlot pool mint = some i then deposit else 0
  | .emergencyWithdraw v => exit v
  | .addReward _ _ _ | .setRewardActive _ _ | .setPaused _ | .setKeeperAuthority _ | .setAdmin _
  | .setDuration _ _ => 0

theorem Op.charge_sub {M : Type*} [AddCommGroup M] (pool : Pool) (i : Slot) (slot slot' : M)
    (entry entry' : ι → M) (deposit deposit' : M) (exit exit' : ι → M) (op : Op ι) :
    op.charge pool i (slot - slot') (fun v => entry v - entry' v) (deposit - deposit')
        (fun v => exit v - exit' v) =
      op.charge pool i slot entry deposit exit - op.charge pool i slot' entry' deposit' exit' := by
  cases op <;> simp only [Op.charge] <;> (try split_ifs) <;> abel

variable [DecidableEq ι]

theorem along_acts {Q : Book ι → Act ι → Prop} {pool : Pool} {i : Slot} {now : I64} {op : Op ι}
    {b : Book ι} (hsettle : op.settles = true → pool.Registered i → Q b (.settle now.val))
    (hexit : ∀ v, op = .emergencyWithdraw v → Q b (.exit v))
    (hrest : ∀ b a, (∀ t, a ≠ .settle t) → (∀ v, a ≠ .exit v) → Q b a) :
    Book.Along P Q b (op.acts pool i now) := by
  have hfor : ∀ v, op.settles = true → Book.Along P Q b (settleActsFor pool i now v) := by
    intro v hop
    unfold settleActsFor
    split
    · rename_i hi
      exact ⟨hsettle hop hi, hrest _ _ (by simp) (by simp), trivial⟩
    · trivial
  cases op with
  | stake v owner poolKey stakerBump amount =>
      exact (Book.along_append P).mpr ⟨hfor v rfl, hrest _ _ (by simp) (by simp), trivial⟩
  | unstake v amount =>
      exact (Book.along_append P).mpr ⟨hfor v rfl, hrest _ _ (by simp) (by simp), trivial⟩
  | depositRewards mint received =>
      refine (Book.along_append P).mpr ⟨?_, ?_⟩
      · unfold settleActs
        split
        · rename_i hi
          exact ⟨hsettle rfl hi, trivial⟩
        · trivial
      · split
        · exact ⟨hrest _ _ (by simp) (by simp), trivial⟩
        · trivial
  | claim v vaultKeys =>
      refine (Book.along_append P).mpr ⟨hfor v rfl, ?_⟩
      refine Book.Along.mono (Q := fun _ a => a = .take v) ?_ (Book.along_of_forall ?_ _)
      · rintro b a rfl
        exact hrest _ _ (by simp) (by simp)
      · intro a ha
        obtain ⟨key, -, rfl⟩ := List.mem_map.mp ha
        rfl
  | emergencyWithdraw v => exact ⟨hexit v rfl, trivial⟩
  | addReward mint vault durationArg =>
      simp only [Op.acts]
      split
      · exact ⟨hrest _ _ (by simp) (by simp), trivial⟩
      · trivial
  | setRewardActive slot active => trivial
  | setDuration slot duration => trivial
  | setPaused paused => trivial
  | setKeeperAuthority keeper => trivial
  | setAdmin newAdmin => trivial

/-- The cost of the acts of an instruction is its charge, when checkpoints and refills
have a fixed price and growing, shrinking, taking and enrolling are free. -/
theorem tally_acts {M : Type*} [AddMonoid M] {c : Book ι → Act ι → M} (entry : ι → M)
    (deposit : ℕ → M) (hentry : ∀ b v, c b (.checkpoint v) = entry v)
    (hdeposit : ∀ b n d t, c b (.refill n d t) = deposit d)
    (hstake : ∀ b v n, c b (.grow v n) = 0 ∧ c b (.shrink v n) = 0)
    (hrest : ∀ b, (∀ v, c b (.take v) = 0) ∧ ∀ t, c b (.enroll t) = 0) (op : Op ι) (pool : Pool)
    (i : Slot) (now : I64) (b : Book ι) :
    Book.tally P c b (op.acts pool i now) =
      op.charge pool i (c b (.settle now.val)) entry (deposit (pool.rewards i).duration.val.toNat)
        (fun v => c b (.exit v)) := by
  have hfor : ∀ v, Book.tally P c b (settleActsFor pool i now v) =
      if pool.Registered i then c b (.settle now.val) + entry v else 0 := by
    intro v
    unfold settleActsFor
    split
    · simp [Book.tally, hentry]
    · rfl
  cases op with
  | stake v owner poolKey stakerBump amount =>
      simp only [Op.acts, Book.tally_append, hfor, Book.tally, (hstake _ v _).1, add_zero,
        Op.charge]
  | unstake v amount =>
      simp only [Op.acts, Book.tally_append, hfor, Book.tally, (hstake _ v _).2, add_zero,
        Op.charge]
  | depositRewards mint received =>
      have hset : Book.tally P c b (settleActs pool i now) =
          if pool.Registered i then c b (.settle now.val) else 0 := by
        unfold settleActs
        split
        · simp [Book.tally]
        · rfl
      simp only [Op.acts, Book.tally_append, hset, Op.charge]
      congr 1
      split
      · simp [Book.tally, hdeposit]
      · rfl
  | claim v vaultKeys =>
      have htake : ∀ b, Book.tally P c b (takeActs pool i v vaultKeys) = 0 := by
        refine Book.tally_eq_zero ?_
        intro b a ha
        obtain ⟨key, -, rfl⟩ := List.mem_map.mp ha
        exact (hrest b).1 v
      simp only [Op.acts, Book.tally_append, hfor, htake, add_zero, Op.charge]
  | emergencyWithdraw v => simp [Op.acts, Book.tally, Op.charge]
  | addReward mint vault durationArg =>
      simp only [Op.acts, Op.charge]
      split
      · simp [Book.tally, (hrest _).2]
      · rfl
  | setRewardActive slot active => rfl
  | setDuration slot duration => rfl
  | setPaused paused => rfl
  | setKeeperAuthority keeper => rfl
  | setAdmin newAdmin => rfl

end MmStaking
