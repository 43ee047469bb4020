import MmStaking.Properties.Isolation
import MmStaking.Properties.Solvency
import MmStaking.Refine.Batch
import MmStaking.Refine.Wealth

/-! Authority: whose signature it takes. What a staker has is moved with its own signature
alone, the terms of a pool are set with its admin's, its streams are refilled with its
keeper's, and a paused pool takes no stake. -/
namespace MmStaking
open Words Loops Runs Custody Accrual

def Instruction.administers : Instruction → Bool
  | .addReward _ _ | .setRewardActive _ _ _ | .setPaused _ _ | .setKeeperAuthority _ _
  | .setAdmin _ _ | .setDuration _ _ _ => true
  | .initializePool _ _ _ | .stake _ _ | .unstake _ _ | .depositRewards _ _ | .claim _
  | .emergencyWithdraw _ => false

def Instruction.refills : Instruction → Bool
  | .depositRewards _ _ => true
  | .initializePool _ _ _ | .addReward _ _ | .setRewardActive _ _ _ | .stake _ _ | .unstake _ _
  | .claim _ | .emergencyWithdraw _ | .setPaused _ _ | .setKeeperAuthority _ _ | .setAdmin _ _
  | .setDuration _ _ _ => false

/-- `u` signs no transaction on the pool at `p` that `acts` counts. -/
def Abstains (u p : Pubkey) (acts : Instruction → Bool) (h : List (World × Event)) : Prop :=
  ∀ e ∈ h, ∀ tx, e.2 = .tx tx → tx.instruction.pool = p → acts tx.instruction = true →
    u ∉ tx.signers

theorem Abstains.left {u p : Pubkey} {acts : Instruction → Bool} {h₁ h₂ : List (World × Event)}
    (h : Abstains u p acts (h₁ ++ h₂)) : Abstains u p acts h₁ :=
  fun e he => h e (List.mem_append_left _ he)

theorem Pool.authorities_of_frame {a b : Pool} (h : a.frame = b.frame) :
    a.admin = b.admin ∧ a.keeperAuthority = b.keeperAuthority ∧ a.paused = b.paused := by
  have hadmin := congrArg Pool.admin h
  have hkeeper := congrArg Pool.keeperAuthority h
  have hpaused := congrArg Pool.paused h
  exact ⟨hadmin, hkeeper, hpaused⟩

section Staker
variable {rt : Runtime} {w w' : World} {h : List (World × Event)} {u : Pubkey}

/-- Without a signature of `u`, its staker accounts stay as they are, to the last field, none
is opened in its name, and of its tokens the program moves nothing. -/
theorem staker_authority (hw : w.Reachable rt) (r : Run (World.Step rt) w h w')
    (hu : rt.signable u = true) (hquiet : ∀ e ∈ h, ∀ tx, e.2 = .tx tx → u ∉ tx.signers) :
    (∀ k a, a.owner = u → (w'.stakers k = some a ↔ w.stakers k = some a)) ∧
      ∀ m, (w'.wallet u m : ℤ) = w.wallet u m + cost (World.drift (World.wallet u m)) h := by
  induction r with
  | refl => exact ⟨fun k a _ => Iff.rfl, fun m => by rw [cost_nil, add_zero]⟩
  | @tail h t e t' r hs ih =>
      obtain ⟨haccounts, hwallet⟩ := ih fun e he => hquiet e (List.mem_append_left _ he)
      have ht := hw.run r
      cases hs with
      | outside hs =>
          refine ⟨?_, ?_⟩
          · rw [hs.stakers_eq]
            exact haccounts
          · intro m
            rw [cost_snoc, ← add_assoc, ← hwallet m, World.drift]
            ring
      | @tx tx _ hs =>
          have htouch := ht.sound.step_touches hs
          have hne : tx.instruction.caller ≠ u := by
            intro hcaller
            refine hquiet (t, .tx tx) (by simp) tx rfl ?_
            rw [← hcaller]
            exact htouch.signed
          refine ⟨?_, ?_⟩
          · intro k a ha
            rw [← haccounts k a ha]
            by_cases hk : tx.instruction.staker = some k
            · -- the account written is the caller's, before and after
              obtain ⟨hold, a', ha', hown, -⟩ := htouch.staker k hk
              constructor
              · intro hnew
                obtain rfl : a' = a := Option.some.inj (ha'.symm.trans hnew)
                exact absurd (hown.symm.trans ha) hne
              · intro hbefore
                exact absurd ((hold a hbefore).1.symm.trans ha) hne
            · rw [htouch.stakers k hk]
          · intro m
            obtain ⟨-, hsign, t₁, ht₁, rfl⟩ := World.step_eq_ok_iff.mp hs
            have hsound : t.Sound (tx.env rt).rt := ht.sound
            have hsame := (Instruction.others_kept (m := m) hsound hsign hu hne ht₁).1
            have hclock : World.wallet u m { t₁ with clock := tx.now } = t₁.wallet u m :=
              wallet_congr rfl
            rw [cost_snoc, World.drift, add_zero, ← hwallet m, hclock, hsame]

theorem staker_authority_trial : ∃ w', World.trial.step World.trialRuntime trialExit = .ok w' ∧
    ∀ a, a.owner = 1 → (w'.stakers 111 = some a ↔ World.trial.stakers 111 = some a) := by
  obtain ⟨w', hw'⟩ := exists_ok (x := World.trial.step World.trialRuntime trialExit)
    (by decide +kernel)
  refine ⟨w', hw', ?_⟩
  have r : Run (World.Step World.trialRuntime) World.trial [(World.trial, .tx trialExit)] w' :=
    Run.refl.tail (.tx hw')
  refine (staker_authority World.reachable_trial r (by decide) ?_).1 111
  intro e he tx htx
  obtain rfl := List.mem_singleton.mp he
  cases htx
  decide

end Staker

section Admin
variable {env : Env} {rt : Runtime} {w w' : World} {ix : Instruction} {p : Pubkey} {P : Pool}
  {h : List (World × Event)}

theorem Instruction.admin_signed (h : ix.handle env w = .ok w') (hacts : ix.administers = true)
    (hP : w.pools ix.pool = some P) : P.admin ∈ env.signers := by
  have hrun : ∀ {ctx : AdminOnly} {logic : Pool → Result Pool}, ix.pool = ctx.pool →
      ctx.run env w logic = .ok w' → P.admin ∈ env.signers := by
    intro ctx logic hpool hrun
    obtain ⟨hsigned, Q, -, hQ, hadmin, -⟩ := AdminOnly.run_eq_ok_iff.mp hrun
    rw [hpool, hQ, Option.some.injEq] at hP
    rw [← hP, ← hadmin]
    exact hsigned
  cases ix with
  | addReward ctx d =>
      obtain ⟨hsigned, -, Q, -, -, -, hQ, hadmin, -⟩ := AddReward.handler_eq_ok_iff.mp h
      obtain rfl : P = Q := Option.some.inj (hP.symm.trans hQ)
      rw [← hadmin]
      exact hsigned
  | setRewardActive ctx slot active => exact hrun rfl h
  | setPaused ctx paused => exact hrun rfl h
  | setKeeperAuthority ctx keeper => exact hrun rfl h
  | setAdmin ctx newAdmin => exact hrun rfl h
  | setDuration ctx slot d => exact hrun rfl h
  | _ => cases hacts

theorem Instruction.keeper_signed (h : ix.handle env w = .ok w') (hacts : ix.refills = true)
    (hP : w.pools ix.pool = some P) : P.keeperAuthority ∈ env.signers := by
  cases ix with
  | depositRewards ctx amount =>
      obtain ⟨Q, _, _, _, _, _, hloads, -⟩ := DepositRewards.handler_eq_ok_iff.mp h
      obtain rfl : P = Q := Option.some.inj (hP.symm.trans hloads.pool)
      rw [← hloads.keeper_eq]
      exact hloads.signed
  | _ => cases hacts

theorem Instruction.frame_kept {s s' : Sys Pubkey} {op : Op Pubkey} {now : I64} (ht : s.Tidy)
    (h0 : 0 ≤ now.val) (hacts : ix.administers = false) (hop : ix.op rt = some op)
    (h : s.perform now op = .ok s') : s'.pool.frame = s.pool.frame := by
  have hparty : op.party ≠ none → s'.pool.frame = s.pool.frame :=
    fun hp => (perform_views ht h0 hp h).1
  cases ix with
  | initializePool ctx d keeper => cases hop
  | stake ctx amount =>
      cases hop
      exact hparty (Option.some_ne_none _)
  | unstake ctx amount =>
      cases hop
      exact hparty (Option.some_ne_none _)
  | depositRewards ctx amount =>
      cases hop
      exact hparty (Option.some_ne_none _)
  | claim ctx =>
      cases hop
      exact hparty (Option.some_ne_none _)
  | emergencyWithdraw ctx =>
      cases hop
      obtain rfl := perform_emergencyWithdraw_eq_ok_iff.mp h
      rfl
  | _ => cases hacts

/-- While its admin abstains a pool keeps its frame, and what the other instructions keep. -/
theorem World.Reachable.quiet_invariant {I : Pool → (Pubkey → StakerAccount) → Prop}
    (hw : w.Reachable rt) (r : Run (World.Step rt) w h w') (hP : w.pools p = some P)
    (hquiet : Abstains P.admin p Instruction.administers h) (h0 : I P (w.stakerAt p))
    (hstep : ∀ t tx t' s op s', (t, Event.tx tx) ∈ h → t.step rt tx = .ok t' →
      tx.instruction.pool = p → s.Reachable → t.Matches p s → s.NotBefore tx.now →
      tx.instruction.op rt = some op → s.perform tx.now op = .ok s' →
      tx.instruction.administers = false → s.pool.frame = P.frame →
      I s.pool s.staker → I s'.pool s'.staker) :
    ∃ P', w'.pools p = some P' ∧ P'.frame = P.frame ∧ I P' (w'.stakerAt p) := by
  refine hw.pool_invariant (I := fun Q S => Q.frame = P.frame ∧ I Q S) r hP ⟨rfl, h0⟩ ?_
  rintro t tx t' s op s' hmem hs hpool hreach hm hclock hop hperform ⟨hframe, hI⟩
  have hnow := hreach.inv.notBefore_of_le hclock
  have hacts : tx.instruction.administers = false := by
    rw [Bool.eq_false_iff]
    intro hacts
    obtain ⟨-, -, t₁, ht₁, -⟩ := World.step_eq_ok_iff.mp hs
    have hsigned := Instruction.admin_signed ht₁ hacts (hpool ▸ hm.pool)
    rw [(Pool.authorities_of_frame hframe).1] at hsigned
    exact hquiet _ hmem tx rfl hpool hacts hsigned
  refine ⟨?_, hstep t tx t' s op s' hmem hs hpool hreach hm hnow hop hperform hacts hframe hI⟩
  exact (Instruction.frame_kept hreach.registry.1 hnow.1 hacts hop hperform).trans hframe

/-- While the admin of a pool signs none of its instructions, the pool keeps its admin and its
keeper, its mints, vaults and durations, and which slots are active and whether it is
paused; and none of these instructions is made. -/
theorem admin_authority (hw : w.Reachable rt) (r : Run (World.Step rt) w h w')
    (hP : w.pools p = some P) (hquiet : Abstains P.admin p Instruction.administers h) :
    (∃ P', w'.pools p = some P' ∧ P'.frame = P.frame) ∧
      ∀ e ∈ h, ∀ tx, e.2 = .tx tx → tx.instruction.pool = p →
        tx.instruction.administers = false := by
  have hframe : ∀ {h₁ t}, Run (World.Step rt) w h₁ t →
      Abstains P.admin p Instruction.administers h₁ →
        ∃ Q, t.pools p = some Q ∧ Q.frame = P.frame := by
    intro h₁ t r₁ hquiet₁
    obtain ⟨Q, hQ, hf, -⟩ := hw.quiet_invariant (I := fun _ _ => True) r₁ hP hquiet₁ trivial
      (by
        intros
        trivial)
    exact ⟨Q, hQ, hf⟩
  refine ⟨hframe r hquiet, ?_⟩
  rintro ⟨t, e⟩ he tx rfl hpool
  obtain ⟨h₁, h₂, t', rfl, r₁, hs⟩ := r.before he
  obtain ⟨Q, hQ, hf⟩ := hframe r₁ hquiet.left
  rw [Bool.eq_false_iff]
  intro hacts
  cases hs with
  | tx hs =>
      obtain ⟨-, -, t₁, ht₁, -⟩ := World.step_eq_ok_iff.mp hs
      have hsigned := Instruction.admin_signed ht₁ hacts (hpool ▸ hQ)
      rw [(Pool.authorities_of_frame hf).1] at hsigned
      exact hquiet _ he tx rfl hpool hacts hsigned

theorem admin_authority_trial : ∃ w' P P', World.trial.step World.trialRuntime trialExit = .ok w' ∧
    World.trial.pools 100 = some P ∧ w'.pools 100 = some P' ∧ P'.frame = P.frame := by
  obtain ⟨w', hw'⟩ := exists_ok (x := World.trial.step World.trialRuntime trialExit)
    (by decide +kernel)
  obtain ⟨P, hP⟩ := Option.isSome_iff_exists.mp
    (show (World.trial.pools 100).isSome = true by decide +kernel)
  have r : Run (World.Step World.trialRuntime) World.trial [(World.trial, .tx trialExit)] w' :=
    Run.refl.tail (.tx hw')
  obtain ⟨⟨P', hP', hframe⟩, -⟩ := admin_authority World.reachable_trial r hP (by
    intro e he tx htx _ hacts
    obtain rfl := List.mem_singleton.mp he
    cases htx
    cases hacts)
  exact ⟨w', P, P', hw', hP, hP', hframe⟩

end Admin

section Keeper
variable {rt : Runtime} {w w' : World} {ix : Instruction} {p : Pubkey} {P : Pool}
  {h : List (World × Event)} {s s' : Sys Pubkey} {op : Op Pubkey} {now : I64}

theorem settleSlots_unstreamed {pool pool' : Pool}
    (h0 : ∀ i, 0 ≤ (pool.rewards i).lastUpdateTime.val)
    (hlast : ∀ i, pool.Registered i → (pool.rewards i).lastUpdateTime.val ≤ now.val)
    (h : settleSlots pool now = .ok pool') (i : Slot) :
    (pool'.rewards i).rewardRate = (pool.rewards i).rewardRate ∧
      (pool'.rewards i).unstreamed ≤ (pool.rewards i).unstreamed := by
  have hstream := settleSlots_stream h0 h i
  by_cases hi : pool.Registered i
  · rw [if_pos hi] at hstream
    constructor
    · apply Unsigned.ext
      have hrate := congrArg Stream.rate hstream
      rwa [Stream.settle_rate] at hrate
    · rw [RewardInfo.unstreamed_eq, RewardInfo.unstreamed_eq, hstream]
      exact_mod_cast Stream.settle_remaining_le _ (hlast i hi)
  · rw [settleSlots_empty h hi]
    exact ⟨rfl, le_rfl⟩

theorem Instruction.streams_kept (ht : s.Tidy) (hnow : s.NotBefore now)
    (hacts : ix.administers = false) (hrefills : ix.refills = false)
    (hop : ix.op rt = some op) (h : s.perform now op = .ok s') (i : Slot) :
    (s'.pool.rewards i).rewardRate = (s.pool.rewards i).rewardRate ∧
      (s'.pool.rewards i).unstreamed ≤ (s.pool.rewards i).unstreamed := by
  have hsettle : ∀ {pool}, settleSlots s.pool now = .ok pool →
      (pool.rewards i).rewardRate = (s.pool.rewards i).rewardRate ∧
        (pool.rewards i).unstreamed ≤ (s.pool.rewards i).unstreamed :=
    fun hp => settleSlots_unstreamed ht.last_nonneg hnow.2 hp i
  cases ix with
  | initializePool ctx d keeper => cases hop
  | depositRewards ctx amount => cases hrefills
  | stake ctx amount =>
      cases hop
      obtain ⟨-, -, p₁, _, _, _, hp, -, -, -, rfl⟩ := perform_stake_eq_ok_iff.mp h
      have hsettled := hsettle hp
      exact hsettled
  | unstake ctx amount =>
      cases hop
      obtain ⟨-, -, p₁, _, _, _, hp, -, -, -, rfl⟩ := perform_unstake_eq_ok_iff.mp h
      have hsettled := hsettle hp
      exact hsettled
  | claim ctx =>
      cases hop
      obtain ⟨p₁, _, _, _, hp, -, -, rfl⟩ := perform_claim_eq_ok_iff.mp h
      exact hsettle hp
  | emergencyWithdraw ctx =>
      cases hop
      obtain rfl := perform_emergencyWithdraw_eq_ok_iff.mp h
      exact ⟨rfl, le_rfl⟩
  | _ => cases hacts

/-- While the admin of a pool signs none of its instructions and the keeper makes no deposit,
nothing more is streamed: no deposit is made, and every slot keeps its rate and has no more
to stream than before. -/
theorem keeper_authority (hw : w.Reachable rt) (r : Run (World.Step rt) w h w')
    (hP : w.pools p = some P) (hadmin : Abstains P.admin p Instruction.administers h)
    (hkeeper : Abstains P.keeperAuthority p Instruction.refills h) :
    (∃ P', w'.pools p = some P' ∧ ∀ i,
      (P'.rewards i).rewardRate = (P.rewards i).rewardRate ∧
        (P'.rewards i).unstreamed ≤ (P.rewards i).unstreamed) ∧
      ∀ e ∈ h, ∀ tx, e.2 = .tx tx → tx.instruction.pool = p → tx.instruction.refills = false := by
  have hsigned : ∀ {t tx t' Q}, (t, Event.tx tx) ∈ h → t.step rt tx = .ok t' →
      tx.instruction.pool = p → t.pools p = some Q → Q.frame = P.frame →
        tx.instruction.refills = false := by
    intro t tx t' Q hmem hs hpool hQ hframe
    rw [Bool.eq_false_iff]
    intro hrefills
    obtain ⟨-, -, t₁, ht₁, -⟩ := World.step_eq_ok_iff.mp hs
    have hkey := Instruction.keeper_signed ht₁ hrefills (hpool ▸ hQ)
    rw [(Pool.authorities_of_frame hframe).2.1] at hkey
    exact hkeeper _ hmem tx rfl hpool hrefills hkey
  constructor
  · obtain ⟨P', hP', -, hstreams⟩ := hw.quiet_invariant (I := fun Q _ => ∀ i,
      (Q.rewards i).rewardRate = (P.rewards i).rewardRate ∧
        (Q.rewards i).unstreamed ≤ (P.rewards i).unstreamed) r hP hadmin
      (fun i => ⟨rfl, le_rfl⟩) (by
        intro t tx t' s op s' hmem hs hpool hreach hm hnow hop hperform hacts hframe hI i
        have hrefills := hsigned hmem hs hpool hm.pool hframe
        obtain ⟨hrate, hle⟩ :=
          Instruction.streams_kept hreach.registry.1 hnow hacts hrefills hop hperform i
        exact ⟨hrate.trans (hI i).1, hle.trans (hI i).2⟩)
    exact ⟨P', hP', hstreams⟩
  · rintro ⟨t, e⟩ he tx rfl hpool
    obtain ⟨h₁, h₂, t', rfl, r₁, hs⟩ := r.before he
    obtain ⟨⟨Q, hQ, hframe⟩, -⟩ := admin_authority hw r₁ hP hadmin.left
    cases hs with
    | tx hs => exact hsigned he hs hpool hQ hframe

/-- After the exit the slot of the trial streams 10 a second, as before. -/
theorem keeper_authority_trial : ∃ w' P', World.trial.step World.trialRuntime trialExit = .ok w' ∧
    w'.pools 100 = some P' ∧ (P'.rewards 0).rewardRate.val = 10 * PRECISION.val := by
  obtain ⟨w', hw'⟩ := exists_ok (x := World.trial.step World.trialRuntime trialExit)
    (by decide +kernel)
  obtain ⟨P, hP⟩ := Option.isSome_iff_exists.mp
    (show (World.trial.pools 100).isSome = true by decide +kernel)
  have hrate : (World.trial.pools 100).map (fun P => (P.rewards 0).rewardRate.val) =
      some (10 * PRECISION.val) := by decide +kernel
  rw [hP, Option.map_some, Option.some.injEq] at hrate
  have r : Run (World.Step World.trialRuntime) World.trial [(World.trial, .tx trialExit)] w' :=
    Run.refl.tail (.tx hw')
  have habstains : ∀ u acts, acts trialExit.instruction = false →
      Abstains u 100 acts [(World.trial, .tx trialExit)] := by
    intro u acts hnone e he tx htx _ hacts
    obtain rfl := List.mem_singleton.mp he
    cases htx
    rw [hnone] at hacts
    cases hacts
  obtain ⟨⟨P', hP', hstreams⟩, -⟩ := keeper_authority World.reachable_trial r hP
    (habstains _ _ rfl) (habstains _ _ rfl)
  exact ⟨w', P', hw', hP', by rw [(hstreams 0).1, hrate]⟩

end Keeper

section Paused
variable {rt : Runtime} {w w' : World} {ix : Instruction} {p : Pubkey} {P : Pool}
  {h : List (World × Event)} {s s' : Sys Pubkey} {op : Op Pubkey} {now : I64}

theorem Instruction.stakes_shrink (hpaused : s.pool.paused.val ≠ 0)
    (hacts : ix.administers = false) (hop : ix.op rt = some op)
    (h : s.perform now op = .ok s') : s'.pool.totalStaked.val ≤ s.pool.totalStaked.val ∧
      ∀ k, (s'.staker k).stakedAmount.val ≤ (s.staker k).stakedAmount.val := by
  have hput : ∀ {v : Pubkey} {a : StakerAccount},
      a.stakedAmount.val ≤ (s.staker v).stakedAmount.val → ∀ k,
        (Function.update s.staker v a k).stakedAmount.val ≤ (s.staker k).stakedAmount.val := by
    intro v a hle k
    by_cases hk : k = v
    · subst hk
      rw [Function.update_self]
      exact hle
    · rw [Function.update_of_ne hk]
  cases ix with
  | initializePool ctx d keeper => cases hop
  | stake ctx amount =>
      cases hop
      obtain ⟨-, hopen, -⟩ := perform_stake_eq_ok_iff.mp h
      exact absurd hopen hpaused
  | unstake ctx amount =>
      cases hop
      obtain ⟨-, -, p₁, a₁, staked, total, hp, he, ⟨-, hst⟩, ⟨-, htot⟩, rfl⟩ :=
        perform_unstake_eq_ok_iff.mp h
      refine ⟨?_, hput ?_⟩
      · change total.val ≤ _
        rw [htot, settleSlots_totalStaked hp]
        exact Nat.sub_le _ _
      · change staked.val ≤ _
        rw [hst, settleEntries_staked he]
        exact Nat.sub_le _ _
  | depositRewards ctx amount =>
      cases hop
      obtain ⟨i, -, -, p₁, _, _, hp, -, -, rfl⟩ := perform_depositRewards_eq_ok_iff.mp h
      refine ⟨?_, fun k => le_rfl⟩
      change p₁.totalStaked.val ≤ _
      rw [settleSlots_totalStaked hp]
  | claim ctx =>
      cases hop
      obtain ⟨p₁, a₁, a₂, _, hp, he, htake, rfl⟩ := perform_claim_eq_ok_iff.mp h
      refine ⟨?_, hput ?_⟩
      · change p₁.totalStaked.val ≤ _
        rw [settleSlots_totalStaked hp]
      · rw [claimTakeAll_staked htake, settleEntries_staked he]
  | emergencyWithdraw ctx =>
      cases hop
      obtain rfl := perform_emergencyWithdraw_eq_ok_iff.mp h
      refine ⟨?_, hput (Nat.zero_le _)⟩
      change (s.pool.totalStaked.saturatingSub _).val ≤ _
      rw [Unsigned.val_saturatingSub]
      exact Nat.sub_le _ _
  | _ => cases hacts

/-- While its admin abstains a paused pool takes no stake: none is made, and neither the total
nor what any staker account has in the pool grows. -/
theorem paused_pool_drains (hw : w.Reachable rt) (r : Run (World.Step rt) w h w')
    (hP : w.pools p = some P) (hpaused : P.paused.val ≠ 0)
    (hquiet : Abstains P.admin p Instruction.administers h) :
    (∃ P', w'.pools p = some P' ∧ P'.totalStaked.val ≤ P.totalStaked.val ∧ ∀ k,
      (w'.stakerAt p k).stakedAmount.val ≤ (w.stakerAt p k).stakedAmount.val) ∧
      ∀ e ∈ h, ∀ tx, e.2 = .tx tx → tx.instruction.pool = p → ∀ ctx amount,
        tx.instruction ≠ .stake ctx amount := by
  constructor
  · obtain ⟨P', hP', -, htotal, hstakes⟩ := hw.quiet_invariant (I := fun Q S =>
      Q.totalStaked.val ≤ P.totalStaked.val ∧ ∀ k,
        (S k).stakedAmount.val ≤ (w.stakerAt p k).stakedAmount.val) r hP hquiet
      ⟨le_rfl, fun k => le_rfl⟩ (by
        rintro t tx t' s op s' - - - - - - hop hperform hacts hframe ⟨htotal, hstakes⟩
        have hstill : s.pool.paused.val ≠ 0 := by
          rw [(Pool.authorities_of_frame hframe).2.2]
          exact hpaused
        obtain ⟨htotal', hstakes'⟩ := Instruction.stakes_shrink hstill hacts hop hperform
        exact ⟨htotal'.trans htotal, fun k => (hstakes' k).trans (hstakes k)⟩)
    exact ⟨P', hP', htotal, hstakes⟩
  · rintro ⟨t, e⟩ he tx rfl hpool ctx amount hix
    obtain ⟨h₁, h₂, t', rfl, r₁, hs⟩ := r.before he
    obtain ⟨⟨Q, hQ, hframe⟩, -⟩ := admin_authority hw r₁ hP hquiet.left
    cases hs with
    | tx hs =>
        obtain ⟨-, -, t₁, ht₁, -⟩ := World.step_eq_ok_iff.mp hs
        rw [hix] at ht₁ hpool
        obtain ⟨Q', a, bump, P', a', tokens, lamports, hloads, -, hstake, -⟩ :=
          Stake.handler_eq_ok_iff.mp ht₁
        have hpool : ctx.pool = p := hpool
        have hQ' := hloads.pool
        rw [hpool, hQ, Option.some.injEq] at hQ'
        obtain ⟨-, hopen, -⟩ := stake_eq_ok_iff.mp hstake
        rw [← hQ', (Pool.authorities_of_frame hframe).2.2] at hopen
        exact hpaused hopen

/-- The admin of the trial pauses the pool with 400 staked, and the second staker exits. -/
theorem paused_pool_drains_trial : ∃ w₁ w₂ P₂,
    World.trial.step World.trialRuntime ⟨[4], 55, .setPaused ⟨4, 100⟩ true⟩ = .ok w₁ ∧
      w₁.step World.trialRuntime trialExit = .ok w₂ ∧ w₂.pools 100 = some P₂ ∧
        P₂.totalStaked.val ≤ 400 := by
  obtain ⟨w₁, hw₁⟩ := exists_ok (x := World.trial.step World.trialRuntime
    ⟨[4], 55, .setPaused ⟨4, 100⟩ true⟩) (by decide +kernel)
  have hexit : ((World.trial.step World.trialRuntime ⟨[4], 55, .setPaused ⟨4, 100⟩ true⟩).bind
      fun w => w.step World.trialRuntime trialExit).isOk = true := by decide +kernel
  rw [hw₁] at hexit
  obtain ⟨w₂, hw₂⟩ := exists_ok hexit
  have hpaused : (World.trial.step World.trialRuntime ⟨[4], 55, .setPaused ⟨4, 100⟩ true⟩).map
      (fun w => (w.pools 100).map fun P => (P.paused.val, P.totalStaked.val)) =
        .ok (some (1, 400)) := by decide +kernel
  rw [hw₁] at hpaused
  have hpaused := Except.ok.inj hpaused
  obtain ⟨P, hP, hvals⟩ := Option.map_eq_some_iff.mp hpaused
  rw [Prod.mk.injEq] at hvals
  have r : Run (World.Step World.trialRuntime) w₁ [(w₁, .tx trialExit)] w₂ :=
    Run.refl.tail (.tx hw₂)
  obtain ⟨⟨P₂, hP₂, htotal, -⟩, -⟩ := paused_pool_drains
    (World.reachable_trial.step (.tx hw₁)) r hP (by rw [hvals.1]; decide) (by
      intro e he tx htx _ hacts
      obtain rfl := List.mem_singleton.mp he
      cases htx
      cases hacts)
  exact ⟨w₁, w₂, P₂, hw₁, hw₂, hP₂, htotal.trans hvals.2.le⟩

end Paused
end MmStaking
