import MmStaking.Properties.Acceptance
import MmStaking.Refine.Refusals

/-! Faults: the arithmetic of the program on any run of the chain. Its unchecked subtractions
stay in range, so no transaction aborts, and its checked steps fail only where a quantity the
transaction asks for, or a time, is out of range. -/
namespace MmStaking
open Words Loops Runs Custody

section Logic
variable {pool : Pool} {staker : StakerAccount} {now : I64}

theorem notifyRate_ne_panic {amount : U64} {rate : U128} {finish d : I64} (h0 : 0 ≤ now.val) :
    notifyRate amount rate now finish d ≠ .error .panic := by
  intro h
  simp only [notifyRate, bind_eq_error_iff, require_eq_error_iff, okOr_eq_error_iff, reduceCtorEq,
    and_false, exists_false, or_false, false_or] at h
  obtain ⟨_, -, h⟩ := h
  split at h
  · rename_i hlt
    obtain ⟨secs, hsecs⟩ := exists_sub h0 hlt.le
    rw [Signed.checkedSub_eq_some_iff.mpr hsecs] at h
    simp only [orPanic, bind_eq_error_iff, okOr_eq_error_iff, reduceCtorEq, and_false,
      exists_false, or_false] at h
  · cases h

theorem stake_ne_panic (hlast : ∀ i, 0 ≤ (pool.rewards i).lastUpdateTime.val)
    {owner poolKey : Pubkey} {bump : U8} {amount : U64} :
    stake pool staker owner poolKey bump amount now ≠ .error .panic := by
  intro h
  simp only [stake, bind_eq_error_iff, require_eq_error_iff, okOr_eq_error_iff, reduceCtorEq,
    pure_ne_error, and_false, exists_false, or_false, false_or] at h
  obtain ⟨_, -, _, -, h⟩ := h
  cases updateReward_error hlast h

theorem claimSettleAll_ne_panic (hlast : ∀ i, 0 ≤ (pool.rewards i).lastUpdateTime.val) :
    claimSettleAll pool staker now ≠ .error .panic := by
  intro h
  simp only [claimSettleAll, bind_eq_error_iff, pure_ne_error, and_false, exists_false,
    or_false] at h
  cases updateReward_error hlast h

theorem depositRewards_ne_panic (hlast : ∀ i, 0 ≤ (pool.rewards i).lastUpdateTime.val)
    (h0 : 0 ≤ now.val) {mint : Pubkey} {received : U64} :
    depositRewards pool mint received now ≠ .error .panic := by
  intro h
  simp only [depositRewards, bind_eq_error_iff, require_eq_error_iff, okOr_eq_error_iff,
    reduceCtorEq, pure_ne_error, and_false, exists_false, or_false, false_or] at h
  obtain ⟨_, -, _, -, h | ⟨_, -, h⟩⟩ := h
  · cases updateReward_error hlast h
  · exact notifyRate_ne_panic h0 h

theorem stake_overflow {owner poolKey : Pubkey} {bump : U8} {amount : U64}
    (h : stake pool staker owner poolKey bump amount now = .error (.err .mathOverflow)) :
    0 < amount.val ∧ pool.paused.val = 0 := by
  simp only [stake, bind_eq_error_iff, require_eq_error_iff, require_eq_ok_iff, Fault.err.injEq,
    reduceCtorEq, and_false, false_or] at h
  obtain ⟨_, hpos, _, hpaused, -⟩ := h
  exact ⟨hpos, hpaused⟩

theorem depositRewards_overflow {mint : Pubkey} {received : U64}
    (h : depositRewards pool mint received now = .error (.err .mathOverflow)) :
    ∃ i, findSlot pool mint = some i ∧ (pool.rewards i).active.val = 1 := by
  simp only [depositRewards, bind_eq_error_iff, okOr_eq_error_iff, okOr_eq_ok_iff,
    require_eq_error_iff, require_eq_ok_iff, Fault.err.injEq, reduceCtorEq, and_false,
    false_or] at h
  obtain ⟨i, hi, _, hactive, -⟩ := h
  exact ⟨i, hi, hactive⟩

end Logic

/-- No abort, and an overflow only under the condition `C`. -/
def Fault.Within (C : Prop) (f : Fault) : Prop := f ≠ .panic ∧ (f = .err .mathOverflow → C)

theorem Fault.within_err {C : Prop} {e : StakingError} (he : e ≠ .mathOverflow) :
    (Fault.err e).Within C := by
  refine ⟨by simp, ?_⟩
  intro hsame
  exact absurd (Fault.err.inj hsame) he

theorem Fault.Within.mono {C C' : Prop} {f : Fault} (h : f.Within C) (hC : C → C') :
    f.Within C' := ⟨h.1, fun hf => hC (h.2 hf)⟩

section System
variable {s : Sys Pubkey} {v : Pubkey} {now : I64} {f : Fault}

theorem Sys.Reachable.stake_within (hs : s.Reachable) (hnow : s.clock.val ≤ now.val)
    {owner poolKey : Pubkey} {bump : U8} {amount : U64}
    (h : stake s.pool (s.staker v) owner poolKey bump amount now = .error f) :
    f.Within (s.Bounded →
      ¬ s.pool.RollsBy now ∨ 2 ^ 64 ≤ s.pool.totalStaked.val + amount.val) := by
  constructor
  · rintro rfl
    exact stake_ne_panic hs.inv.tidy.last_nonneg h
  · rintro rfl hb
    by_contra hfits
    obtain ⟨hroll, hroom⟩ := not_or.mp hfits
    obtain ⟨hpos, hpaused⟩ := stake_overflow h
    obtain ⟨_, _, hok⟩ := (hs.stake_isOk_iff hb hnow v _ _ _ (not_le.mp hroom)).mpr
      ⟨hpos, hpaused, not_not.mp hroll⟩
    cases h.symm.trans hok

theorem Sys.Reachable.unstake_within (hs : s.Reachable) (hnow : s.clock.val ≤ now.val)
    {amount : U64} (h : unstake s.pool (s.staker v) amount now = .error f) :
    f.Within (¬ s.Bounded) := by
  constructor
  · rintro rfl
    exact unstake_ne_panic hs.inv.tidy.last_nonneg (hs.inv.staked_le v) amount now h
  · rintro rfl hb
    have hguards : 0 < amount.val ∧ amount.val ≤ (s.staker v).stakedAmount.val := by
      simp only [unstake, bind_eq_error_iff, require_eq_error_iff, require_eq_ok_iff,
        Fault.err.injEq, reduceCtorEq, and_false, false_or] at h
      obtain ⟨_, hpos, _, hle, -⟩ := h
      exact ⟨hpos, hle⟩
    obtain ⟨_, _, hok⟩ := hs.unstake_isOk hb hnow s.pool.paused hguards.1 hguards.2
    cases h.symm.trans hok

theorem Sys.Reachable.claimSettleAll_within (hs : s.Reachable) (hnow : s.clock.val ≤ now.val)
    (h : claimSettleAll s.pool (s.staker v) now = .error f) :
    f.Within (s.Bounded → ¬ s.pool.RollsBy now) := by
  constructor
  · rintro rfl
    exact claimSettleAll_ne_panic hs.inv.tidy.last_nonneg h
  · rintro rfl hb hroll
    obtain ⟨_, _, hok⟩ := hs.settles hb hnow hroll v
    cases h.symm.trans hok

theorem Sys.Reachable.depositRewards_within (hs : s.Reachable) (hnow : s.clock.val ≤ now.val)
    {mint : Pubkey} {received : U64}
    (hroom : ∀ i, findSlot s.pool mint = some i →
      s.ledger.rewardVault i + received.val < 2 ^ 64)
    (h : depositRewards s.pool mint received now = .error f) :
    f.Within (s.Bounded → ¬ s.pool.RollsBy now ∨
      ∃ i, findSlot s.pool mint = some i ∧
        2 ^ 63 ≤ now.val + (s.pool.rewards i).duration.val) := by
  constructor
  · rintro rfl
    exact depositRewards_ne_panic hs.inv.tidy.last_nonneg
      (hs.inv.notBefore_of_le hnow).1 h
  · rintro rfl hb
    by_contra hfits
    obtain ⟨hroll, hlate⟩ := not_or.mp hfits
    obtain ⟨i, hi, hactive⟩ := depositRewards_overflow h
    have hreg : s.pool.Registered i := hs.inv.tidy.registered_of_active hactive
    have hmint : (s.pool.rewards i).mint = mint := (findSlot_eq_some_iff.mp hi).1
    have hend : now.val + (s.pool.rewards i).duration.val < 2 ^ 63 := by
      by_contra hge
      exact hlate ⟨i, hi, not_lt.mp hge⟩
    obtain ⟨_, hok⟩ := (hs.deposit_isOk_iff hb hnow hreg (hroom i hi)).mpr
      ⟨hactive, not_not.mp hroll, hend⟩
    rw [hmint, h] at hok
    cases hok

end System

theorem Pool.Packed.addReward_within {C : Prop} {P : Pool} (hp : P.Packed)
    {mint vault : Pubkey} {d now : I64} {f : Fault}
    (h : addReward P mint vault d now = .error f) : f.Within C := by
  simp only [addReward, bind_eq_error_iff, require_eq_error_iff, okOr_eq_error_iff, pure_ne_error,
    and_false, exists_false, or_false] at h
  obtain ⟨-, rfl⟩ | ⟨_, -, ⟨-, rfl⟩ | ⟨_, -, hfull, -⟩⟩ := h
  · exact Fault.within_err (by simp)
  · exact Fault.within_err (by simp)
  · have hcount : P.rewardCount.val ≤ 8 := hp.count_le
    have hlt : P.rewardCount.val + 1 < 2 ^ 8 := by omega
    obtain ⟨count, hadd⟩ := Unsigned.exists_val hlt
    have hsome : P.rewardCount.checkedAdd one8 = some count :=
      Unsigned.checkedAdd_eq_some_iff.mpr hadd
    cases hfull.symm.trans hsome

/-- A quantity an instruction asks for, or a time it needs, is out of range. -/
def Instruction.Exceeds (P : Pool) (now : I64) : Instruction → Prop
  | .stake _ amount => ¬ P.RollsBy now ∨ 2 ^ 64 ≤ P.totalStaked.val + amount.val
  | .depositRewards ctx _ => ¬ P.RollsBy now ∨
      ∃ i, findSlot P ctx.rewardMint = some i ∧ 2 ^ 63 ≤ now.val + (P.rewards i).duration.val
  | .claim _ => ¬ P.RollsBy now
  | .initializePool _ _ _ | .addReward _ _ | .setRewardActive _ _ _ | .unstake _ _
  | .emergencyWithdraw _ | .setPaused _ _ | .setKeeperAuthority _ _ | .setAdmin _ _
  | .setDuration _ _ _ => False

section World
variable {rt : Runtime} {w₀ w : World} {h : List (World × Event)} {p : Pubkey} {P : Pool}

theorem World.Initial.system (h0 : w₀.Initial rt) (r : Run (World.Step rt) w₀ h w)
    (hP : w.pools p = some P) :
    ∃ s : Sys Pubkey, s.Reachable ∧ (DepositsFit (callsOn rt p h) → s.Bounded) ∧ s.pool = P ∧
      s.staker = w.stakerAt p ∧ s.clock.val ≤ w.clock.val ∧
      ∀ x, s.ledger.vault x ≤ w.vaultBalance p x := by
  by_cases hfit : DepositsFit (callsOn rt p h)
  · obtain ⟨s, hs, hb, hrest⟩ := h0.bounded r hP hfit
    exact ⟨s, hs, fun _ => hb, hrest⟩
  · have hw : w.Reachable rt := ⟨w₀, h, h0, r⟩
    obtain ⟨s, hs, hrest⟩ := hw.pool hP
    exact ⟨s, hs, fun hfits => absurd hfits hfit, hrest⟩

theorem DepositRewards.Loads.balance_le {env : Env} {ctx : DepositRewards} {vault : Holding}
    (hloads : ctx.Loads env w P vault) {i : Slot} (hi : findSlot P ctx.rewardMint = some i) :
    (w.vaultBalance ctx.pool (.reward i) : ℤ) ≤ vault.amount.val := by
  obtain ⟨j, hj, hkey⟩ := hloads.slot
  obtain rfl : i = j := Option.some.inj (hi.symm.trans hj)
  by_cases hreg : P.Registered i
  · rw [vaultBalance_reward hloads.pool hreg (hkey ▸ hloads.held)]
  · have hnone : w.vaultKey ctx.pool (.reward i) = none := by
      rw [World.vaultKey, hloads.pool]
      exact if_neg hreg
    rw [vaultBalance_of_none hnone]
    exact Int.natCast_nonneg _

theorem Instruction.handle_within (h0 : w₀.Initial rt) (r : Run (World.Step rt) w₀ h w)
    {env : Env} (hpda : env.rt = rt) (hnow : w.clock.val ≤ env.now.val) {ix : Instruction}
    {f : Fault} (hfault : ix.handle env w = .error (.program f)) :
    f.Within (DepositsFit (callsOn rt ix.pool h) →
      ∃ P, w.pools ix.pool = some P ∧ ix.Exceeds P env.now) := by
  subst hpda
  have hw : w.Reachable env.rt := ⟨w₀, h, h0, r⟩
  have hadmin : ∀ {ctx : AdminOnly} {logic : Pool → Result Pool} {C : Prop},
      (∀ P f, logic P = .error f → f.Within C) → ctx.run env w logic = .error (.program f) →
      f.Within C := by
    intro ctx logic C hlogic hrun
    rcases AdminOnly.run_error hrun with rfl | ⟨P, -, hP⟩
    · exact Fault.within_err (by simp)
    · exact hlogic P f hP
  cases ix with
  | initializePool ctx d keeper =>
      obtain rfl := InitializePool.handler_error hfault
      exact Fault.within_err (by simp)
  | addReward ctx d =>
      rcases AddReward.handler_error hfault with rfl | ⟨P, hP, hadd⟩
      · exact Fault.within_err (by simp)
      · exact (hw.packed hP).addReward_within hadd
  | setRewardActive ctx slot active =>
      refine hadmin ?_ hfault
      intro P f hset
      obtain rfl := setRewardActive_error hset
      exact Fault.within_err (by simp)
  | setPaused ctx paused => exact hadmin (fun _ _ hset => by cases hset) hfault
  | setKeeperAuthority ctx keeper => exact hadmin (fun _ _ hset => by cases hset) hfault
  | setAdmin ctx newAdmin => exact hadmin (fun _ _ hset => by cases hset) hfault
  | setDuration ctx slot d =>
      refine hadmin ?_ hfault
      intro P f hset
      rcases setDuration_error hset with rfl | rfl <;> exact Fault.within_err (by simp)
  | stake ctx amount =>
      rcases Stake.handler_error hfault with (rfl | rfl) | ⟨P, a, bump, hloads, hstake⟩
      · exact Fault.within_err (by simp)
      · exact Fault.within_err (by simp)
      · obtain ⟨s, hs, hb, rfl, hstaker, hclock, -⟩ := h0.system r hloads.pool
        have hat : s.staker ctx.staker = a := by
          rw [hstaker]
          exact hloads.stakerAt_eq hw.sound
        rw [← hat] at hstake
        refine (hs.stake_within (hclock.trans hnow) hstake).mono ?_
        intro hexceeds hfit
        exact ⟨s.pool, hloads.pool, hexceeds (hb hfit)⟩
  | unstake ctx amount =>
      rcases Unstake.handler_error hfault with rfl | ⟨P, a, hloads, hunstake⟩
      · exact Fault.within_err (by simp)
      · obtain ⟨s, hs, hb, rfl, hstaker, hclock, -⟩ := h0.system r hloads.pool
        have hat : s.staker ctx.staker = a := by
          rw [hstaker]
          exact stakerAt_eq hloads.staker
            (hw.sound.staker_pool hloads.staker hloads.derived_staker).1
        rw [← hat] at hunstake
        refine (hs.unstake_within (hclock.trans hnow) hunstake).mono ?_
        intro hunbounded hfit
        exact absurd (hb hfit) hunbounded
  | depositRewards ctx amount =>
      rcases DepositRewards.handler_error hfault with (rfl | rfl) | rfl |
        ⟨P, vault, tokens, reloaded, hloads, hmoved, hreloaded, hlogic⟩
      · exact Fault.within_err (by simp)
      · exact Fault.within_err (by simp)
      · exact Fault.within_err (by simp)
      · obtain ⟨s, hs, hb, rfl, -, hclock, hvault⟩ := h0.system r hloads.pool
        have hgrows := transfer_dest_le hmoved hloads.held hreloaded
        rcases hlogic with hnone | ⟨received, hreceived, hdeposit⟩
        · obtain ⟨c, hc⟩ := Unsigned.exists_val
            ((Nat.sub_le reloaded.amount.val vault.amount.val).trans_lt reloaded.amount.isLt)
          cases hnone.symm.trans (Unsigned.checkedSub_eq_some_iff.mpr ⟨hgrows, hc⟩)
        · have hval := (Unsigned.checkedSub_eq_some_iff.mp hreceived).2
          refine (hs.depositRewards_within (hclock.trans hnow) ?_ hdeposit).mono ?_
          · intro i hi
            have hle : s.ledger.rewardVault i ≤ vault.amount.val :=
              (hvault (.reward i)).trans (hloads.balance_le hi)
            have hlt := reloaded.amount.isLt
            omega
          · intro hexceeds hfit
            exact ⟨s.pool, hloads.pool, hexceeds (hb hfit)⟩
  | claim ctx =>
      rcases Claim.handler_error hfault with (rfl | rfl | rfl) | ⟨P, a, hloads, hset⟩
      · exact Fault.within_err (by simp)
      · exact Fault.within_err (by simp)
      · exact Fault.within_err (by simp)
      · obtain ⟨s, hs, hb, rfl, hstaker, hclock, -⟩ := h0.system r hloads.pool
        have hat : s.staker ctx.staker = a := by
          rw [hstaker]
          exact stakerAt_eq hloads.staker
            (hw.sound.staker_pool hloads.staker hloads.derived_staker).1
        rw [← hat] at hset
        refine (hs.claimSettleAll_within (hclock.trans hnow) hset).mono ?_
        intro hexceeds hfit
        exact ⟨s.pool, hloads.pool, hexceeds (hb hfit)⟩
  | emergencyWithdraw ctx =>
      rcases EmergencyWithdraw.handler_error hfault with rfl | rfl <;>
        exact Fault.within_err (by simp)

/-- In every reachable world no transaction of anyone, with whatever accounts and arguments,
makes the program abort. As long as the deposits fit, its arithmetic overflows only in a stake
too large for the total, in a deposit whose period would end out of range, and in these two and
a claim where an idle period is rolled out of range; an exit never meets it. -/
theorem arithmetic_safe (h0 : w₀.Initial rt) (r : Run (World.Step rt) w₀ h w) (tx : Tx) :
    w.step rt tx ≠ .error (.program .panic) ∧
      (DepositsFit (callsOn rt tx.instruction.pool h) →
        w.step rt tx = .error (.program (.err .mathOverflow)) →
        ∃ P, w.pools tx.instruction.pool = some P ∧ tx.instruction.Exceeds P tx.now) := by
  have hstep : ∀ {f}, w.step rt tx = .error (.program f) →
      f.Within (DepositsFit (callsOn rt tx.instruction.pool h) →
        ∃ P, w.pools tx.instruction.pool = some P ∧ tx.instruction.Exceeds P tx.now) := by
    intro f hfault
    simp only [World.step, bind_eq_error_iff, ensure_eq_program_iff, ensure_eq_ok_iff,
      reduceCtorEq, pure_ne_error, and_false, exists_false, or_false, false_or] at hfault
    obtain ⟨_, hnow, _, -, hhandle⟩ := hfault
    exact Instruction.handle_within h0 r rfl hnow hhandle
  constructor
  · intro hpanic
    exact (hstep hpanic).1 rfl
  · intro hfit hoverflow
    exact (hstep hoverflow).2 rfl hfit

/-- The first staker of the trial asks for a stake that does not fit on top of the 400. -/
def World.trialLarge : Tx :=
  ⟨[1], 60, .stake ⟨1, 100, 111, 5, 21, 101⟩ ⟨2 ^ 64 - 1, by decide⟩⟩

theorem arithmetic_safe_trial : ∃ P, World.trial.pools 100 = some P ∧
    World.trialLarge.instruction.Exceeds P World.trialLarge.now := by
  obtain ⟨-, hoverflow⟩ := arithmetic_safe World.initial_trialStart World.trial_run.1
    World.trialLarge
  have hpool : World.trialLarge.instruction.pool = 100 := rfl
  rw [hpool] at hoverflow
  have hfails : (World.trial.step World.trialRuntime World.trialLarge).map (fun _ => ()) =
      .error (.program (.err .mathOverflow)) := by decide +kernel
  cases hs : World.trial.step World.trialRuntime World.trialLarge with
  | ok w' =>
      rw [hs] at hfails
      cases hfails
  | error e =>
      rw [hs] at hfails
      obtain rfl := Except.error.inj hfails
      exact hoverflow depositsFit_trial hs

end World
end MmStaking
