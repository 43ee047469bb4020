import MmStaking.Lib.Accounting
import MmStaking.Program.System
import MmStaking.Refine.Update

/-! Every instruction is, slot by slot, a short list of acts on the book of the slot.
The list depends on the pool only through what settlement leaves alone. -/
namespace MmStaking
open Words Loops Accrual

variable {ι : Type} [DecidableEq ι]

/-- The book of slot `i` as the accounts and the ledger have it. -/
def bookOf (pool : Pool) (staker : ι → StakerAccount) (ledger : Ledger ι) (i : Slot) : Book ι :=
  { stream := (pool.rewards i).stream
    holder := fun v => (staker v).holder i
    total := pool.totalStaked.val
    vault := ledger.rewardVault i
    deposited := ledger.deposited i
    claimed := fun v => ledger.claimed v i }

def Sys.book (s : Sys ι) (i : Slot) : Book ι := bookOf s.pool s.staker s.ledger i

/-- The acts of `update_reward` alone. -/
def settleActs (pool : Pool) (i : Slot) (now : I64) : List (Act ι) :=
  if pool.Registered i then [.settle now.val] else []

/-- The acts of `update_reward` with a staker. -/
def settleActsFor (pool : Pool) (i : Slot) (now : I64) (v : ι) : List (Act ι) :=
  if pool.Registered i then [.settle now.val, .checkpoint v] else []

def takeActs (pool : Pool) (i : Slot) (v : ι) (vaultKeys : List Pubkey) : List (Act ι) :=
  (vaultKeys.filter fun key => findVault pool key = some i).map fun _ => .take v

/-- The acts of an instruction on the book of slot `i`. -/
def Op.acts (pool : Pool) (i : Slot) (now : I64) : Op ι → List (Act ι)
  | .addReward _ _ _ => if freeSlot pool = some i then [.enroll now.val] else []
  | .stake v _ _ _ amount => settleActsFor pool i now v ++ [.grow v amount.val]
  | .unstake v amount => settleActsFor pool i now v ++ [.shrink v amount.val]
  | .depositRewards mint received =>
      settleActs pool i now ++
        if findSlot pool mint = some i then
          [.refill received.val (pool.rewards i).duration.val.toNat now.val]
        else []
  | .claim v vaultKeys => settleActsFor pool i now v ++ takeActs pool i v vaultKeys
  | .emergencyWithdraw v => [.exit v]
  | .setRewardActive _ _ | .setPaused _ | .setKeeperAuthority _ | .setAdmin _
  | .setDuration _ _ => []

def Op.actor : Op ι → Option ι
  | .stake v _ _ _ _ | .unstake v _ | .claim v _ | .emergencyWithdraw v => some v
  | .addReward _ _ _ | .setRewardActive _ _ | .depositRewards _ _ | .setPaused _
  | .setKeeperAuthority _ | .setAdmin _ | .setDuration _ _ => none

omit [DecidableEq ι] in
theorem Op.forall_acts {Q : Act ι → Prop} {pool : Pool} {i : Slot} {now : I64}
    (hsettle : Q (.settle now.val)) (henroll : Q (.enroll now.val))
    (hrefill : ∀ n, Q (.refill n (pool.rewards i).duration.val.toNat now.val))
    (hstake : ∀ v n, Q (.grow v n) ∧ Q (.shrink v n))
    (hholder : ∀ v, Q (.checkpoint v) ∧ Q (.take v) ∧ Q (.exit v)) (op : Op ι) :
    ∀ a ∈ op.acts pool i now, Q a := by
  have hfor : ∀ v, ∀ a ∈ settleActsFor pool i now v, Q a := by
    intro v a ha
    unfold settleActsFor at ha
    split at ha <;> simp at ha
    rcases ha with rfl | rfl
    · exact hsettle
    · exact (hholder v).1
  intro a ha
  cases op with
  | addReward mint vault durationArg =>
      simp only [Op.acts] at ha
      split at ha <;> simp at ha
      exact ha ▸ henroll
  | stake v owner poolKey stakerBump amount =>
      rcases List.mem_append.mp ha with ha | ha
      · exact hfor v a ha
      · exact List.mem_singleton.mp ha ▸ (hstake v amount.val).1
  | unstake v amount =>
      rcases List.mem_append.mp ha with ha | ha
      · exact hfor v a ha
      · exact List.mem_singleton.mp ha ▸ (hstake v amount.val).2
  | depositRewards mint received =>
      rcases List.mem_append.mp ha with ha | ha
      · unfold settleActs at ha
        split at ha <;> simp at ha
        exact ha ▸ hsettle
      · split at ha <;> simp at ha
        exact ha ▸ hrefill received.val
  | claim v vaultKeys =>
      rcases List.mem_append.mp ha with ha | ha
      · exact hfor v a ha
      · obtain ⟨key, -, rfl⟩ := List.mem_map.mp ha
        exact (hholder v).2.1
  | emergencyWithdraw v => exact List.mem_singleton.mp ha ▸ (hholder v).2.2
  | setRewardActive slot active => cases ha
  | setDuration slot duration => cases ha
  | setPaused paused => cases ha
  | setKeeperAuthority keeper => cases ha
  | setAdmin newAdmin => cases ha

section Terms
variable {pool pool' : Pool} (h : ∀ j, (pool'.rewards j).terms = (pool.rewards j).terms)
include h

omit [DecidableEq ι] in
theorem takeActs_congr (i : Slot) (v : ι) (vaultKeys : List Pubkey) :
    takeActs pool' i v vaultKeys = takeActs pool i v vaultKeys := by
  have hvault : ∀ j, (pool'.rewards j).vault = (pool.rewards j).vault :=
    fun j => congrArg (fun t => t.2.1) (h j)
  have hkey : ∀ key, findVault pool' key = findVault pool key := by
    intro key
    simp only [findVault, hvault]
  simp only [takeActs, hkey]

omit [DecidableEq ι] in
theorem acts_congr (op : Op ι) (i : Slot) (now : I64) :
    op.acts pool' i now = op.acts pool i now := by
  have hmint : ∀ j, (pool'.rewards j).mint = (pool.rewards j).mint :=
    fun j => congrArg (fun t => t.1) (h j)
  have hduration : (pool'.rewards i).duration = (pool.rewards i).duration :=
    congrArg (fun t => t.2.2.1) (h i)
  have hreg : pool'.Registered i ↔ pool.Registered i := by
    rw [Pool.Registered, Pool.Registered, hmint]
  have hfree : freeSlot pool' = freeSlot pool := by simp only [freeSlot, hmint]
  have hslot : ∀ mint, findSlot pool' mint = findSlot pool mint := by
    intro mint
    simp only [findSlot, hmint]
  have hsettle : settleActs pool' i now = (settleActs pool i now : List (Act ι)) :=
    if_congr hreg rfl rfl
  have hfor : ∀ v : ι, settleActsFor pool' i now v = settleActsFor pool i now v :=
    fun v => if_congr hreg rfl rfl
  cases op with
  | addReward mint vault durationArg => simp only [Op.acts, hfree]
  | stake v owner poolKey stakerBump amount => simp only [Op.acts, hfor]
  | unstake v amount => simp only [Op.acts, hfor]
  | depositRewards mint received => simp only [Op.acts, hsettle, hslot, hduration]
  | claim v vaultKeys => simp only [Op.acts, hfor, takeActs_congr h]
  | _ => rfl

end Terms

theorem bookOf_update (pool : Pool) (staker : ι → StakerAccount) (ledger : Ledger ι) (i : Slot)
    (v : ι) (account : StakerAccount) :
    bookOf pool (Function.update staker v account) ledger i =
      (bookOf pool staker ledger i).setHolder v (account.holder i) := by
  apply Book.ext <;> try rfl
  funext u
  exact Function.apply_update (fun _ (a : StakerAccount) => a.holder i) staker v account u

section Settle
variable {pool pool' : Pool} (staker : ι → StakerAccount) (ledger : Ledger ι) {now : I64}
  (hlast : ∀ i, 0 ≤ (pool.rewards i).lastUpdateTime.val)
include hlast

theorem bookOf_settleSlots (h : settleSlots pool now = .ok pool') (i : Slot) :
    bookOf pool' staker ledger i = (bookOf pool staker ledger i).run P (settleActs pool i now) := by
  have hstream := settleSlots_stream hlast h i
  have htotal := settleSlots_totalStaked h
  unfold settleActs
  split at hstream
  · rename_i hi
    rw [if_pos hi]
    simp only [bookOf, hstream, htotal, Book.run_cons, Book.run_nil, Book.apply, Int.toNat_natCast]
  · rename_i hi
    rw [if_neg hi]
    simp only [bookOf, hstream, htotal, Book.run_nil]

theorem bookOf_settleEntries (h : settleSlots pool now = .ok pool') {v : ι}
    {account account' : StakerAccount} (hsame : ∀ i, account.holder i = (staker v).holder i)
    (he : settleEntries pool' account = .ok account') (i : Slot) :
    bookOf pool' (Function.update staker v account') ledger i =
      (bookOf pool staker ledger i).run P (settleActsFor pool i now v) := by
  have hbook := bookOf_settleSlots staker ledger hlast h i
  have hholder := settleEntries_holder he i
  have hreg := settleSlots_registered hlast h i
  rw [bookOf_update, hholder, hsame]
  unfold settleActsFor
  unfold settleActs at hbook
  by_cases hi : pool.Registered i
  · rw [if_pos hi] at hbook ⊢
    rw [if_pos (hreg.mpr hi), Book.run_cons, ← Book.run_nil P (Book.apply P _ _), ← Book.run_cons,
      ← hbook]
    rfl
  · rw [if_neg hi] at hbook ⊢
    rw [if_neg (mt hreg.mp hi), hbook]
    exact Book.ext rfl (Function.update_eq_self v _) rfl rfl rfl rfl

end Settle

theorem bookOf_take (pool : Pool) (staker : ι → StakerAccount) (ledger : Ledger ι) (v : ι)
    (account : StakerAccount) (i j : Slot) :
    bookOf pool (Function.update staker v { account with
        entries := Function.update account.entries j
          { account.entries j with rewardsAccrued := 0 } })
      (ledger.recordClaim v (j, (account.entries j).rewardsAccrued)) i =
      if j = i then (bookOf pool (Function.update staker v account) ledger i).apply P (.take v)
      else bookOf pool (Function.update staker v account) ledger i := by
  rw [bookOf_update, bookOf_update]
  split
  · rename_i hi
    subst hi
    apply Book.ext
    · rfl
    · funext u
      by_cases hu : u = v
      · subst hu
        simp [Book.apply, bookOf, StakerAccount.holder]
      · simp [Book.apply, bookOf, hu]
    · rfl
    · simp [Book.apply, bookOf, Ledger.recordClaim, StakerAccount.holder]
    · rfl
    · funext u
      by_cases hu : u = v
      · subst hu
        simp [Book.apply, bookOf, Ledger.recordClaim, StakerAccount.holder]
      · simp [Book.apply, bookOf, Ledger.recordClaim, hu]
  · rename_i hi
    have hi' : i ≠ j := fun h => hi h.symm
    apply Book.ext
    · rfl
    · funext u
      by_cases hu : u = v
      · subst hu
        simp [bookOf, StakerAccount.holder, hi']
      · simp [bookOf, hu]
    · rfl
    · simp [bookOf, Ledger.recordClaim, hi']
    · rfl
    · funext u
      by_cases hu : u = v
      · subst hu
        simp [bookOf, Ledger.recordClaim, hi']
      · simp [bookOf, Ledger.recordClaim, hu]

theorem bookOf_claimTakeAll {pool : Pool} {staker : ι → StakerAccount} {v : ι} (i : Slot)
    {vaultKeys : List Pubkey} {account account' : StakerAccount} {paid : List (Slot × U64)}
    {ledger : Ledger ι} (h : claimTakeAll pool account vaultKeys = .ok (account', paid)) :
    bookOf pool (Function.update staker v account') (paid.foldl (Ledger.recordClaim v) ledger) i =
      (bookOf pool (Function.update staker v account) ledger i).run P
        (takeActs pool i v vaultKeys) := by
  induction vaultKeys generalizing account account' paid ledger with
  | nil =>
      simp only [claimTakeAll, Except.ok.injEq, Prod.mk.injEq] at h
      obtain ⟨rfl, rfl⟩ := h
      rfl
  | cons key rest ih =>
      simp only [claimTakeAll, claimTakeSlot, bind_eq_ok_iff, okOr_eq_ok_iff, pure_eq_ok_iff,
        Prod.exists, Prod.mk.injEq] at h
      obtain ⟨account₁, idx, amt, ⟨j, hj, rfl, rfl, rfl⟩, account₂, paid₂, hrest, rfl, rfl⟩ := h
      rw [List.foldl_cons, ih hrest, bookOf_take]
      by_cases hi : j = i
      · have htake : takeActs pool i v (key :: rest) = .take v :: takeActs pool i v rest := by
          simp [takeActs, hj, hi]
        rw [if_pos hi, htake, Book.run_cons]
      · have htake : takeActs pool i v (key :: rest) = takeActs pool i v rest := by
          simp [takeActs, hj, hi]
        rw [if_neg hi, htake]

end MmStaking
