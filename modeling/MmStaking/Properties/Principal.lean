import MmStaking.Refine.Failures
import MmStaking.Refine.Invariant

/-! Principal: what every staker has staked is what it put in less what it took out,
the pool total is the sum over the stakers, and the stake vault holds exactly that.
The arithmetic on principal that the program leaves unchecked cannot go wrong. -/
namespace MmStaking
open Words Loops Accrual

variable {ι : Type}

structure Sys.Principal (s : Sys ι) : Prop where
  staked_eq : ∀ v, (s.staker v).stakedAmount.val + s.ledger.unstaked v + s.ledger.withdrawn v =
    s.ledger.stakedIn v
  vault_eq : s.ledger.stakeVault = s.pool.totalStaked.val

/-- The part of the ledger that concerns principal. -/
def Ledger.stakeSide (l : Ledger ι) : ℤ × (ι → ℕ) × (ι → ℕ) × (ι → ℕ) :=
  (l.stakeVault, l.stakedIn, l.unstaked, l.withdrawn)

theorem Sys.Principal.congr {s s' : Sys ι} (hs : s.Principal)
    (hst : ∀ v, (s'.staker v).stakedAmount = (s.staker v).stakedAmount)
    (ht : s'.pool.totalStaked = s.pool.totalStaked)
    (hl : s'.ledger.stakeSide = s.ledger.stakeSide) : s'.Principal := by
  simp only [Ledger.stakeSide, Prod.mk.injEq] at hl
  obtain ⟨hvault, hin, hout, hw⟩ := hl
  refine ⟨?_, ?_⟩
  · intro v
    rw [hst, hin, hout, hw]
    exact hs.staked_eq v
  · rw [hvault, ht]
    exact hs.vault_eq

variable [DecidableEq ι]

theorem recordClaim_stakeSide (v : ι) (paid : List (Slot × U64)) (l : Ledger ι) :
    (paid.foldl (Ledger.recordClaim v) l).stakeSide = l.stakeSide := by
  induction paid generalizing l with
  | nil => rfl
  | cons p rest ih => rw [List.foldl_cons, ih]; rfl

theorem staked_update {staker : ι → StakerAccount} {v : ι} {account : StakerAccount}
    (h : account.stakedAmount = (staker v).stakedAmount) (u : ι) :
    (Function.update staker v account u).stakedAmount = (staker u).stakedAmount := by
  by_cases hu : u = v
  · rw [hu, Function.update_self, h]
  · rw [Function.update_of_ne hu]

/-- Every instruction keeps the principal accounts straight. An exit relies on its
stake being part of the total. -/
theorem Sys.Principal.perform {s s' : Sys ι} (hs : s.Principal)
    (hle : ∀ v, (s.staker v).stakedAmount.val ≤ s.pool.totalStaked.val) {now : I64} {op : Op ι}
    (h : s.perform now op = .ok s') : s'.Principal := by
  cases op with
  | stake v owner poolKey stakerBump amount =>
      obtain ⟨-, -, p₁, a₁, staked, total, hp, he, hst, htot, rfl⟩ := perform_stake_eq_ok_iff.mp h
      rw [settleEntries_staked he, StakerAccount.opened_staked] at hst
      rw [settleSlots_totalStaked hp] at htot
      refine ⟨?_, ?_⟩
      · intro u
        have hu := hs.staked_eq u
        by_cases huv : u = v
        · subst huv
          simp only [Sys.put, Ledger.recordStake, Function.update_self, hst]
          omega
        · simpa [Sys.put, Ledger.recordStake, huv] using hu
      · simp only [Sys.put, Ledger.recordStake, hs.vault_eq, htot]
        push_cast
        rfl
  | unstake v amount =>
      obtain ⟨-, ha, p₁, a₁, staked, total, hp, he, ⟨-, hst⟩, ⟨hle, htot⟩, rfl⟩ :=
        perform_unstake_eq_ok_iff.mp h
      rw [settleEntries_staked he] at hst
      rw [settleSlots_totalStaked hp] at hle htot
      refine ⟨?_, ?_⟩
      · intro u
        have hu := hs.staked_eq u
        by_cases huv : u = v
        · subst huv
          simp only [Sys.put, Ledger.recordUnstake, Function.update_self, hst]
          omega
        · simpa [Sys.put, Ledger.recordUnstake, huv] using hu
      · simp only [Sys.put, Ledger.recordUnstake, hs.vault_eq, htot]
        push_cast [hle]
        rfl
  | emergencyWithdraw v =>
      obtain rfl := perform_emergencyWithdraw_eq_ok_iff.mp h
      have hv := hle v
      refine ⟨?_, ?_⟩
      · intro u
        have hu := hs.staked_eq u
        by_cases huv : u = v
        · subst huv
          simp only [Sys.put, Ledger.recordWithdraw, Function.update_self, Unsigned.val_zero]
          omega
        · simpa [Sys.put, Ledger.recordWithdraw, huv] using hu
      · simp only [Sys.put, Ledger.recordWithdraw, hs.vault_eq, Unsigned.val_saturatingSub]
        push_cast [hv]
        rfl
  | claim v vaultKeys =>
      obtain ⟨p₁, a₁, a₂, paid, hp, he, hc, rfl⟩ := perform_claim_eq_ok_iff.mp h
      have hst : a₂.stakedAmount = (s.staker v).stakedAmount :=
        (claimTakeAll_staked hc).trans (settleEntries_staked he)
      exact hs.congr (staked_update hst) (settleSlots_totalStaked hp)
        (recordClaim_stakeSide v paid s.ledger)
  | depositRewards mint received =>
      obtain ⟨_, -, -, p₁, _, _, hp, -, -, rfl⟩ := perform_depositRewards_eq_ok_iff.mp h
      have ht := settleSlots_totalStaked hp
      exact hs.congr (fun _ => rfl) ht rfl
  | addReward mint vault durationArg =>
      obtain ⟨-, _, _, -, -, rfl⟩ := perform_addReward_eq_ok_iff.mp h
      exact hs.congr (fun _ => rfl) rfl rfl
  | setRewardActive slot active =>
      obtain ⟨_, -, rfl⟩ := perform_setRewardActive_eq_ok_iff.mp h
      exact hs.congr (fun _ => rfl) rfl rfl
  | setDuration slot duration =>
      obtain ⟨-, _, -, rfl⟩ := perform_setDuration_eq_ok_iff.mp h
      exact hs.congr (fun _ => rfl) rfl rfl
  | setPaused paused =>
      cases h
      exact hs.congr (fun _ => rfl) rfl rfl
  | setKeeperAuthority keeper =>
      cases h
      exact hs.congr (fun _ => rfl) rfl rfl
  | setAdmin newAdmin =>
      cases h
      exact hs.congr (fun _ => rfl) rfl rfl

theorem unstake_ne_panic {pool : Pool} {staker : StakerAccount}
    (hlast : ∀ i, 0 ≤ (pool.rewards i).lastUpdateTime.val)
    (hle : staker.stakedAmount.val ≤ pool.totalStaked.val) (amount : U64) (now : I64) :
    unstake pool staker amount now ≠ .error .panic := by
  have hsub : ∀ {a : U64}, amount.val ≤ a.val → orPanic (a.checkedSub amount) ≠ .error .panic := by
    intro a ha h
    have hlt : a.val - amount.val < 2 ^ 64 := (Nat.sub_le _ _).trans_lt a.isLt
    obtain ⟨c, hc⟩ := Unsigned.exists_val hlt
    rw [Unsigned.checkedSub_eq_some_iff.mpr ⟨ha, hc⟩] at h
    cases h
  intro h
  simp only [unstake, bind_eq_error_iff, require_eq_error_iff, require_eq_ok_iff, reduceCtorEq,
    pure_ne_error, and_false, exists_false, or_false, false_or] at h
  obtain ⟨-, -, -, ha, h | ⟨⟨p₁, lent⟩, hu, h⟩⟩ := h
  · cases updateReward_error hlast h
  · obtain ⟨hp, a₁, he, rfl⟩ := updateReward_some_eq_ok_iff.mp hu
    rcases h with h | ⟨_, -, h⟩
    · refine hsub ?_ h
      rw [Option.getD_some, settleEntries_staked he]
      exact ha
    · refine hsub ?_ h
      rw [settleSlots_totalStaked hp]
      exact ha.trans hle

variable [Fintype ι]

theorem Sys.Reachable.principal {s : Sys ι} (hs : s.Reachable) : s.Principal := by
  refine (hs.invariant (I := fun s => s.Inv ∧ s.Principal) (fun s h => ⟨inv_initial h, ?_⟩)
    fun s c s' hi h => ⟨hi.1.step h, ?_⟩).2
  · obtain ⟨_, _, _, _, _, _, pool, hp, rfl⟩ := h
    simp only [initPool, bind_eq_ok_iff, require_eq_ok_iff, pure_eq_ok_iff] at hp
    obtain ⟨_, -, rfl⟩ := hp
    exact ⟨fun _ => rfl, rfl⟩
  · obtain ⟨-, t, ht, rfl⟩ := Sys.step_eq_ok_iff.mp h
    have hp := hi.2.perform hi.1.staked_le ht
    exact ⟨hp.staked_eq, hp.vault_eq⟩

/-- Principal is conserved, staker by staker and in total, and every withdrawal is
exact and covered by the stake vault. -/
theorem principal_conserved {s : Sys ι} (hs : s.Reachable) :
    (∀ v, ((s.staker v).stakedAmount.val : ℤ) =
      s.ledger.stakedIn v - s.ledger.unstaked v - s.ledger.withdrawn v) ∧
    s.pool.totalStaked.val = ∑ v, (s.staker v).stakedAmount.val ∧
    s.ledger.stakeVault = s.pool.totalStaked.val ∧
    (∀ v amount now, unstake s.pool (s.staker v) amount now ≠ .error .panic) ∧
    (∀ v amount now pool account, unstake s.pool (s.staker v) amount now = .ok (pool, account) →
      (amount.val : ℤ) ≤ s.ledger.stakeVault ∧
        pool.totalStaked.val + amount.val = s.pool.totalStaked.val) ∧
    ∀ v pool account amt, emergencyWithdraw s.pool (s.staker v) = .ok (pool, account, amt) →
      (amt.val : ℤ) ≤ s.ledger.stakeVault ∧
        pool.totalStaked.val + amt.val = s.pool.totalStaked.val := by
  have hp := hs.principal
  have hle := hs.inv.staked_le
  refine ⟨?_, ?_, hp.vault_eq, ?_, ?_, ?_⟩
  · intro v
    have hv := hp.staked_eq v
    omega
  · exact (hs.inv.sound ⟨0, by decide⟩).total_toNat
  · intro v amount now
    exact unstake_ne_panic hs.inv.tidy.last_nonneg (hle v) amount now
  · intro v amount now pool account h
    obtain ⟨-, -, p₁, a₁, staked, total, hset, -, -, ⟨hamt, htot⟩, rfl, -⟩ := unstake_eq_ok_iff.mp h
    rw [settleSlots_totalStaked hset] at hamt htot
    rw [hp.vault_eq, htot]
    omega
  · intro v pool account amt h
    simp only [emergencyWithdraw, Except.ok.injEq, Prod.mk.injEq] at h
    obtain ⟨rfl, -, rfl⟩ := h
    have hv := hle v
    rw [hp.vault_eq, Unsigned.val_saturatingSub]
    omega

theorem principal_conserved_trial :
    Sys.trial.ledger.stakeVault = 400 ∧
      Sys.trial.pool.totalStaked.val = ∑ v, (Sys.trial.staker v).stakedAmount.val ∧
      ∀ v amount now, unstake Sys.trial.pool (Sys.trial.staker v) amount now ≠ .error .panic := by
  have h := principal_conserved Sys.reachable_trial
  exact ⟨by decide +kernel, h.2.1, h.2.2.2.1⟩

end MmStaking
