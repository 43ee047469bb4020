import MmStaking.Properties.Openings
import MmStaking.Properties.Payout

/-! Acceptance: exactly when the program takes a stake or a deposit. Beside the checks a caller
can read off the accounts, those of the token program and the rent of a new staker account,
nothing refuses one: neither the address of that account nor any overflow of the reward
arithmetic. -/
namespace MmStaking
open Words Loops Runs Custody Accrual

section Mints
variable {rt : Runtime} {w : World} {p : Pubkey} {P : Pool}

theorem Instruction.op_addReward {ix : Instruction} {mint vault : Pubkey} {d : I64}
    (h : ix.op rt = some (.addReward mint vault d)) :
    ∃ ctx, ix = .addReward ctx d ∧ ctx.rewardMint = mint := by
  cases ix with
  | addReward ctx d' =>
      cases h
      exact ⟨ctx, rfl, rfl⟩
  | _ => cases h

theorem Op.terms_mint {ι : Type} (pool : Pool) (i : Slot) (op : Op ι) :
    (op.terms pool i).1 = (pool.rewards i).mint ∨
      ∃ vault d, op = .addReward (op.terms pool i).1 vault d := by
  cases op with
  | addReward mint vault d =>
      simp only [Op.terms]
      split
      · exact .inr ⟨vault, d, rfl⟩
      · exact .inl rfl
  | setRewardActive slot active =>
      left
      simp only [Op.terms]
      split <;> rfl
  | setDuration slot d =>
      left
      simp only [Op.terms]
      split <;> rfl
  | _ => exact .inl rfl

theorem World.Reachable.reward_mint (hw : w.Reachable rt) (hP : w.pools p = some P) {i : Slot}
    (hi : P.Registered i) : w.mints (P.rewards i).mint = true := by
  refine (hw.invariant (I := fun w => w.Reachable rt ∧ ∀ p P, w.pools p = some P →
    ∀ i, P.Registered i → w.mints (P.rewards i).mint = true) ?_ ?_).2 p P hP i hi
  · intro w h0
    refine ⟨⟨w, [], h0, .refl⟩, ?_⟩
    intro p P hP
    rw [h0.pools_none] at hP
    cases hP
  · intro w e w' hI hs
    obtain ⟨hw, hmints⟩ := hI
    refine ⟨hw.step hs, ?_⟩
    intro p P' hP' i hi
    cases hs with
    | outside hs =>
        rw [hs.pools_eq] at hP'
        exact hs.mints_kept (hmints p P' hP' i hi)
    | @tx tx _ hs =>
        have htouch := hw.sound.step_touches hs
        rw [htouch.mints]
        by_cases hpool : tx.instruction.pool = p
        · cases hP : w.pools p with
          | some P =>
              obtain ⟨s, op, s', hreach, hm, -, hop, hperform, hm'⟩ := hw.own_step hP hs hpool
              obtain rfl : s'.pool = P' := Option.some.inj (hm'.pool.symm.trans hP')
              obtain ⟨-, -, hterms⟩ := perform_terms hreach.registry.1.last_nonneg hperform
              have hmint : (s'.pool.rewards i).mint = (op.terms s.pool i).1 :=
                congrArg Prod.fst (hterms i)
              rw [Pool.Registered, hmint] at hi
              rw [hmint]
              rcases op.terms_mint s.pool i with hold | ⟨vault, d, hadd⟩
              · rw [hold] at hi ⊢
                exact hmints p s.pool hm.pool i hi
              · rw [hadd] at hop
                obtain ⟨ctx, hix, hctx⟩ := Instruction.op_addReward hop
                obtain ⟨-, -, t, ht, -⟩ := World.step_eq_ok_iff.mp hs
                rw [hix] at ht
                obtain ⟨-, hexists, -⟩ := AddReward.handler_eq_ok_iff.mp ht
                rw [← hctx]
                exact hexists
          | none =>
              subst hpool
              exact absurd hi ((World.step_opens hs hP hP').2 i)
        · obtain ⟨P₁, hpools⟩ := htouch.pool
          rw [hpools, Function.update_of_ne (Ne.symm hpool)] at hP'
          exact hmints p P' hP' i hi

end Mints

section Accepted
variable {rt : Runtime} {w₀ w : World} {h : List (World × Event)} {p k t u : Pubkey} {P : Pool}
  {x z : Holding} {now : I64} {amount : U64}

theorem Instruction.alone_isOk_iff {ix : Instruction} (hu : rt.signable ix.caller = true)
    (hnow : w.clock.val ≤ now.val) : (∃ w', w.step rt (ix.alone now) = .ok w') ↔
      ∃ w', ix.handle { rt := rt, signers := [ix.caller], now := now } w = .ok w' := by
  constructor
  · intro hstep
    obtain ⟨w', hs⟩ := hstep
    obtain ⟨-, -, t, ht, -⟩ := World.step_eq_ok_iff.mp hs
    exact ⟨t, ht⟩
  · intro hhandle
    obtain ⟨t, ht⟩ := hhandle
    exact ⟨_, Instruction.step_alone hu hnow ht⟩

/-- The accounts `u` passes to stake in the pool at `p` out of its token account `t`. -/
def stakeAccounts (P : Pool) (p k u t : Pubkey) : Stake :=
  { owner := u, pool := p, staker := k, stakeMint := P.stakeMint, userTokenAccount := t,
    stakeVault := P.stakeVault }

theorem Stake.Loads.stakerAt_eq {env : Env} {ctx : Stake} {a : StakerAccount} {bump : U8}
    (hw : w.Sound env.rt) (h : ctx.Loads env w P a bump) :
    w.stakerAt ctx.pool ctx.staker = a := by
  rcases h.staker with hk | ⟨hnone, -, rfl⟩
  · exact MmStaking.stakerAt_eq hk (hw.staker_pool hk (Pda.create_of_find h.found)).1
  · rw [World.stakerAt, hnone]

/-- They pass all checks, whether or not the staker has an account. -/
theorem World.Reachable.stakeAccounts_handler_iff (hw : w.Reachable rt) {w' : World}
    (hP : w.pools p = some P) {bump : U8} (hfound : rt.find (.staker p u) = some (k, bump))
    (ht : w.tokens t = some x) (hxo : x.owner = u) (hxm : x.mint = P.stakeMint) :
    (stakeAccounts P p k u t).handler { rt := rt, signers := [u], now := now } w amount =
        .ok w' ↔ ∃ P' a' tokens lamports,
      stake P (w.stakerAt p k) u p bump amount now = .ok (P', a') ∧
      rt.transfer w.tokens t P.stakeVault u amount = .ok tokens ∧
      (stakeAccounts P p k u t).Pays rt w lamports ∧
      w' = (((w.putPool p P').putStaker k a').putTokens tokens).putLamports lamports := by
  rw [Stake.handler_eq_ok_iff]
  constructor
  · rintro ⟨P₁, a, bump', P', a', tokens, lamports, hloads, hpays, hstake, hmoved, rfl⟩
    obtain rfl : P = P₁ := Option.some.inj (hP.symm.trans hloads.pool)
    have hbump : bump = bump' :=
      congrArg Prod.snd (Option.some.inj (hfound.symm.trans hloads.found))
    have hat : w.stakerAt p k = a := hloads.stakerAt_eq hw.sound
    rw [hat, hbump]
    exact ⟨P', a', tokens, lamports, hstake, hmoved, hpays, rfl⟩
  · rintro ⟨P', a', tokens, lamports, hstake, hmoved, hpays, rfl⟩
    have hplaced := hw.sound.pool hP
    obtain ⟨z, hz, -⟩ := hplaced.vault_held
    refine ⟨P, w.stakerAt p k, bump, P', a', tokens, lamports, ⟨List.mem_singleton_self _, hP,
      hw.mint hP, ⟨x, ht, hxo, hxm⟩, ⟨z, hz⟩, hfound, ?_, Pda.create_of_find hplaced.found, rfl,
      rfl⟩, hpays, hstake, hmoved, rfl⟩
    rcases hw.unsquatted (Pda.create_of_find hfound) with hvacant | ⟨a, hk, hpool, -⟩
    · have hnone : w.stakers k = none := (World.vacant_iff.mp hvacant).2.1
      right
      refine ⟨hnone, hvacant, ?_⟩
      rw [World.stakerAt, hnone]
    · left
      rw [stakerAt_eq hk hpool]
      exact hk

/-- Whoever can sign stakes exactly if the amount is positive, the pool is not paused and
settles, the token program accepts the transfer of the amount out of its own account, and it
can pay the rent of a first stake; and then it has that much more at stake, in an account of
its own. -/
theorem stake_accepted (h0 : w₀.Initial rt) (r : Run (World.Step rt) w₀ h w)
    (hfit : DepositsFit (callsOn rt p h)) (hP : w.pools p = some P)
    (hu : rt.signable u = true) {bump : U8} (hfound : rt.find (.staker p u) = some (k, bump))
    (ht : w.tokens t = some x) (hxo : x.owner = u) (hxm : x.mint = P.stakeMint)
    (hz : w.tokens P.stakeVault = some z) (hnow : w.clock.val ≤ now.val) :
    ((∃ w', w.step rt ((Instruction.stake (stakeAccounts P p k u t) amount).alone now) =
        .ok w') ↔
      (0 < amount.val ∧ P.paused.val = 0 ∧ P.RollsBy now) ∧ rt.Accepts x z u amount ∧
        ∃ lamports, (stakeAccounts P p k u t).Pays rt w lamports) ∧
    ∀ w', w.step rt ((Instruction.stake (stakeAccounts P p k u t) amount).alone now) = .ok w' →
      ∃ a', w'.stakers k = some a' ∧ (a'.owner = u ∧ a'.pool = p) ∧
        a'.stakedAmount.val = (w.stakerAt p k).stakedAmount.val + amount.val := by
  have hw : w.Reachable rt := ⟨w₀, h, h0, r⟩
  have hplaced := hw.sound.pool hP
  obtain ⟨z', hz', hzo, hzm⟩ := hplaced.vault_held
  obtain rfl : z = z' := Option.some.inj (hz.symm.trans hz')
  have htransfer : (∃ tokens, rt.transfer w.tokens t P.stakeVault u amount = .ok tokens) ↔
      rt.Accepts x z u amount :=
    transfer_isOk_iff ht hz (hplaced.not_held ht hxo hu hz hzo) (hxm.trans hzm.symm) hxo
  constructor
  · obtain ⟨s, hs, hb, rfl, hstaker, hclock, -⟩ := h0.bounded r hP hfit
    have htotal : s.pool.totalStaked.val ≤ z.amount.val := by
      have hle := hw.total_le hP
      rwa [vaultBalance_stake hP hz] at hle
    have hiff : z.amount.val + amount.val < 2 ^ 64 →
        ((∃ P' a', stake s.pool (w.stakerAt p k) u p bump amount now = .ok (P', a')) ↔
          0 < amount.val ∧ s.pool.paused.val = 0 ∧ s.pool.RollsBy now) := by
      intro hroom
      rw [← hstaker]
      exact hs.stake_isOk_iff hb (hclock.trans hnow) k _ _ _ (by omega)
    rw [Instruction.alone_isOk_iff hu hnow, ← htransfer]
    constructor
    · intro hhandle
      obtain ⟨w', hhandle⟩ := hhandle
      obtain ⟨P', a', tokens, lamports, hstake, hmoved, hpays, -⟩ :=
        (hw.stakeAccounts_handler_iff hP hfound ht hxo hxm).mp hhandle
      have hroom := (htransfer.mp ⟨tokens, hmoved⟩).room
      exact ⟨(hiff hroom).mp ⟨P', a', hstake⟩, ⟨tokens, hmoved⟩, lamports, hpays⟩
    · intro hcond
      obtain ⟨hlogic, ⟨tokens, hmoved⟩, lamports, hpays⟩ := hcond
      have hroom := (htransfer.mp ⟨tokens, hmoved⟩).room
      obtain ⟨P', a', hstake⟩ := (hiff hroom).mpr hlogic
      exact ⟨_, (hw.stakeAccounts_handler_iff hP hfound ht hxo hxm).mpr
        ⟨P', a', tokens, lamports, hstake, hmoved, hpays, rfl⟩⟩
  · intro w' hstep
    obtain ⟨-, a', hk', howns⟩ := (hw.sound.step_touches hstep).staker k rfl
    refine ⟨a', hk', howns, ?_⟩
    obtain ⟨-, -, t₁, hhandle, rfl⟩ := World.step_eq_ok_iff.mp hstep
    obtain ⟨P', a₁, tokens, lamports, hstake, -, -, rfl⟩ :=
      (hw.stakeAccounts_handler_iff hP hfound ht hxo hxm).mp hhandle
    have hput : Function.update w.stakers k (some a₁) k = some a' := hk'
    rw [Function.update_self, Option.some.injEq] at hput
    subst hput
    obtain ⟨-, -, _, account, staked, _, -, he, hst, -, -, rfl⟩ := stake_eq_ok_iff.mp hstake
    rw [hst, settleEntries_staked he, StakerAccount.opened_staked]

/-- Before anybody stakes in the trial, the second staker holds 1000 and 100 lamports, and is
the delegate of its own account for 600: it pays the rent and stakes 300, and cannot stake
601. -/
theorem stake_accepted_trial : ∃ P, World.trialOpened.pools 100 = some P ∧
    (∃ w', World.trialOpened.step World.trialRuntime
      ((Instruction.stake (stakeAccounts P 100 112 2 22) 300).alone 0) = .ok w') ∧
    ¬ ∃ w', World.trialOpened.step World.trialRuntime
      ((Instruction.stake (stakeAccounts P 100 112 2 22) 601).alone 0) = .ok w' := by
  obtain ⟨h, hrun, hlabels⟩ := World.trialOpened_run
  obtain ⟨P, hP⟩ := Option.isSome_iff_exists.mp
    (show (World.trialOpened.pools 100).isSome = true by decide +kernel)
  have hkeys : (World.trialOpened.pools 100).map
      (fun P => (P.stakeMint, P.stakeVault, P.paused.val)) = some (5, 101, 0) := by decide +kernel
  rw [hP, Option.map_some, Option.some.injEq, Prod.mk.injEq, Prod.mk.injEq] at hkeys
  have hfit : DepositsFit (callsOn World.trialRuntime 100 h) := by
    intro mint
    rw [callsOn_congr hlabels]
    exact (by decide : 0 * PRECISION.val < 2 ^ 128)
  have ht : World.trialOpened.tokens 22 = some ⟨⟨2, 5⟩, 1000, false, some 2, 600⟩ := by
    decide +kernel
  have hz : World.trialOpened.tokens P.stakeVault = some ⟨⟨100, 5⟩, 0, false, none, 0⟩ := by
    rw [hkeys.2.1]
    decide +kernel
  have hclock : World.trialOpened.clock.val ≤ (0 : I64).val := by decide +kernel
  have hroll : P.RollsBy 0 := by
    intro _ i _ _ hfinish
    have hstill : (World.trialOpened.pools 100).all
        (fun P => decide (∀ i, (P.rewards i).periodFinish.val ≤ 0)) = true := by decide +kernel
    rw [hP, Option.all_some, decide_eq_true_eq] at hstill
    exact absurd hfinish (not_lt.mpr (hstill i))
  have hu : World.trialRuntime.signable 2 = true := by decide
  have hfound : World.trialRuntime.find (.staker 100 2) = some (112, 255) := by decide
  have haccepted : ∀ amount : U64, (∃ w', World.trialOpened.step World.trialRuntime
      ((Instruction.stake (stakeAccounts P 100 112 2 22) amount).alone 0) = .ok w') ↔ _ :=
    fun amount => (stake_accepted World.initial_trialStart hrun hfit hP hu hfound ht rfl
      hkeys.1.symm hz hclock).1
  obtain ⟨lamports, hpays⟩ : ∃ lamports,
      (stakeAccounts P 100 112 2 22).Pays World.trialRuntime World.trialOpened lamports := by
    have hnew : World.trialOpened.stakers 112 = none := by decide +kernel
    exact ⟨_, (if_pos hnew).mpr rfl⟩
  refine ⟨P, hP, (haccepted 300).mpr ⟨⟨by decide, hkeys.2.2, hroll⟩,
    ⟨by decide, fun _ => by decide, rfl, ⟨rfl, rfl⟩, by decide⟩, lamports, hpays⟩, ?_⟩
  intro hstake
  exact absurd (((haccepted 601).mp hstake).2.1.delegated rfl) (by decide)

def depositAccounts (P : Pool) (p t : Pubkey) (i : Slot) : DepositRewards :=
  { keeper := P.keeperAuthority, pool := p, rewardMint := (P.rewards i).mint,
    keeperTokenAccount := t, rewardVault := (P.rewards i).vault }

theorem World.Reachable.depositAccounts_handler_iff (hw : w.Reachable rt) {w' : World}
    (hP : w.pools p = some P) (hu : rt.signable P.keeperAuthority = true) {i : Slot}
    (hi : P.Registered i) (ht : w.tokens t = some x) (hxo : x.owner = P.keeperAuthority)
    (hxm : x.mint = (P.rewards i).mint) :
    (depositAccounts P p t i).handler
        { rt := rt, signers := [P.keeperAuthority], now := now } w amount = .ok w' ↔
      0 < amount.val ∧ ∃ tokens P',
        rt.transfer w.tokens t (P.rewards i).vault P.keeperAuthority amount = .ok tokens ∧
        depositRewards P (P.rewards i).mint amount now = .ok P' ∧
        w' = (w.putPool p P').putTokens tokens := by
  have hplaced := hw.sound.pool hP
  obtain ⟨z, hz, hzo, hzm⟩ := hplaced.reward_held i hi
  have hne : t ≠ (P.rewards i).vault := hplaced.not_held ht hxo hu hz hzo
  rw [DepositRewards.handler_eq_ok_iff]
  constructor
  · rintro ⟨P₁, vault, tokens, reloaded, received, P', hloads, hpos, hmoved, hreloaded, ⟨-, hval⟩,
      hdeposit, rfl⟩
    obtain rfl : P = P₁ := Option.some.inj (hP.symm.trans hloads.pool)
    obtain rfl : z = vault := Option.some.inj (hz.symm.trans hloads.held)
    obtain ⟨grown, hdest, hgrown⟩ := transfer_dest hmoved hz hne
    obtain rfl := Option.some.inj (hdest.symm.trans hreloaded)
    obtain rfl : received = amount := by
      refine Unsigned.ext ?_
      rw [hval, hgrown, Nat.add_sub_cancel_left]
    exact ⟨hpos, tokens, P', hmoved, hdeposit, rfl⟩
  · rintro ⟨hpos, tokens, P', hmoved, hdeposit, rfl⟩
    obtain ⟨grown, hdest, hgrown⟩ := transfer_dest hmoved hz hne
    have hfind : findSlot P (P.rewards i).mint = some i := (hw.packed hP).findSlot_iff hi |>.mpr rfl
    refine ⟨P, z, tokens, _, amount, P', ⟨List.mem_singleton_self _, hP, hw.reward_mint hP hi,
      ⟨x, ht, hxo, hxm⟩, hz, rfl, Pda.create_of_find hplaced.found, ⟨i, hfind, rfl⟩, hzm⟩, hpos,
      hmoved, hdest, ?_, hdeposit, rfl⟩
    dsimp only
    rw [hgrown, Nat.add_sub_cancel_left]
    exact ⟨Nat.le_add_right _ _, rfl⟩

/-- The keeper deposits exactly if the amount is positive, the slot is active and ends its
period at a time, the pool settles, and the token program accepts the transfer of the amount
out of its own account; and then the period of the slot ends a full duration later. -/
theorem deposit_accepted (h0 : w₀.Initial rt) (r : Run (World.Step rt) w₀ h w)
    (hfit : DepositsFit (callsOn rt p h)) (hP : w.pools p = some P)
    (hu : rt.signable P.keeperAuthority = true) {i : Slot} (hi : P.Registered i)
    (ht : w.tokens t = some x) (hxo : x.owner = P.keeperAuthority)
    (hxm : x.mint = (P.rewards i).mint) (hz : w.tokens (P.rewards i).vault = some z)
    (hnow : w.clock.val ≤ now.val) :
    ((∃ w', w.step rt
        ((Instruction.depositRewards (depositAccounts P p t i) amount).alone now) = .ok w') ↔
      (0 < amount.val ∧ (P.rewards i).active.val = 1 ∧ P.RollsBy now ∧
        now.val + (P.rewards i).duration.val < 2 ^ 63) ∧
        rt.Accepts x z P.keeperAuthority amount) ∧
    ∀ w', w.step rt
        ((Instruction.depositRewards (depositAccounts P p t i) amount).alone now) = .ok w' →
      ∃ P', w'.pools p = some P' ∧
        (P'.rewards i).periodFinish.val = now.val + (P.rewards i).duration.val := by
  have hw : w.Reachable rt := ⟨w₀, h, h0, r⟩
  have hplaced := hw.sound.pool hP
  obtain ⟨z', hz', hzo, hzm⟩ := hplaced.reward_held i hi
  obtain rfl : z = z' := Option.some.inj (hz.symm.trans hz')
  have htransfer : (∃ tokens, rt.transfer w.tokens t (P.rewards i).vault P.keeperAuthority
      amount = .ok tokens) ↔ rt.Accepts x z P.keeperAuthority amount :=
    transfer_isOk_iff ht hz (hplaced.not_held ht hxo hu hz hzo) (hxm.trans hzm.symm) hxo
  obtain ⟨s, hs, hb, rfl, -, hclock, hvault⟩ := h0.bounded r hP hfit
  constructor
  · have hheld : s.ledger.rewardVault i ≤ z.amount.val := by
      have hle : s.ledger.rewardVault i ≤ w.vaultBalance p (.reward i) := hvault (.reward i)
      rwa [vaultBalance_reward hP hi hz] at hle
    have hiff : z.amount.val + amount.val < 2 ^ 64 →
        ((∃ P', depositRewards s.pool (s.pool.rewards i).mint amount now = .ok P') ↔
          (s.pool.rewards i).active.val = 1 ∧ s.pool.RollsBy now ∧
            now.val + (s.pool.rewards i).duration.val < 2 ^ 63) := by
      intro hroom
      refine hs.deposit_isOk_iff hb (hclock.trans hnow) hi ?_
      have hroom' : (z.amount.val : ℤ) + amount.val < 2 ^ 64 := by exact_mod_cast hroom
      linarith
    rw [Instruction.alone_isOk_iff hu hnow, ← htransfer]
    constructor
    · intro hhandle
      obtain ⟨w', hhandle⟩ := hhandle
      obtain ⟨hpos, tokens, P', hmoved, hdeposit, -⟩ :=
        (hw.depositAccounts_handler_iff hP hu hi ht hxo hxm).mp hhandle
      have hroom := (htransfer.mp ⟨tokens, hmoved⟩).room
      exact ⟨⟨hpos, (hiff hroom).mp ⟨P', hdeposit⟩⟩, tokens, hmoved⟩
    · intro hcond
      obtain ⟨⟨hpos, hlogic⟩, tokens, hmoved⟩ := hcond
      have hroom := (htransfer.mp ⟨tokens, hmoved⟩).room
      obtain ⟨P', hdeposit⟩ := (hiff hroom).mpr hlogic
      exact ⟨_, (hw.depositAccounts_handler_iff hP hu hi ht hxo hxm).mpr
        ⟨hpos, tokens, P', hmoved, hdeposit, rfl⟩⟩
  · intro w' hstep
    obtain ⟨-, -, t₁, hhandle, rfl⟩ := World.step_eq_ok_iff.mp hstep
    obtain ⟨-, tokens, P', -, hdeposit, rfl⟩ :=
      (hw.depositAccounts_handler_iff hP hu hi ht hxo hxm).mp hhandle
    refine ⟨P', Function.update_self _ _ _, ?_⟩
    obtain ⟨htidy, hpacked⟩ := hs.registry
    obtain ⟨j, hj, -, pool₁, rate, finish, hp, -, hfinish, rfl⟩ :=
      depositRewards_eq_ok_iff.mp hdeposit
    rw [(hpacked.findSlot_iff hi).mpr rfl, Option.some.injEq] at hj
    subst hj
    have hkept : (pool₁.rewards i).duration = (s.pool.rewards i).duration :=
      congrArg (fun t => t.2.2.1) (settleSlots_terms htidy.last_nonneg hp i)
    rw [hkept] at hfinish
    have hslot : ∀ slot, (pool₁.setReward i slot).rewards i = slot :=
      fun slot => Function.update_self _ _ _
    rw [hslot]
    exact hfinish

/-- The keeper of the trial deposits 500 more of the 4000 it kept, in the middle of a period,
and cannot deposit nothing. -/
theorem deposit_accepted_trial : ∃ P, World.trial.pools 100 = some P ∧
    (∃ w', World.trial.step World.trialRuntime
      ((Instruction.depositRewards (depositAccounts P 100 23 0) 500).alone 60) = .ok w') ∧
    ¬ ∃ w', World.trial.step World.trialRuntime
      ((Instruction.depositRewards (depositAccounts P 100 23 0) 0).alone 60) = .ok w' := by
  obtain ⟨P, hP⟩ := Option.isSome_iff_exists.mp
    (show (World.trial.pools 100).isSome = true by decide +kernel)
  have hkeys : (World.trial.pools 100).map
      (fun P => (P.keeperAuthority, (P.rewards 0).mint, (P.rewards 0).vault)) =
      some (3, 7, 102) := by decide +kernel
  have hvals : (World.trial.pools 100).map
      (fun P => ((P.rewards 0).active.val, (P.rewards 0).duration.val, P.totalStaked.val)) =
      some (1, 100, 400) := by decide +kernel
  rw [hP, Option.map_some, Option.some.injEq, Prod.mk.injEq, Prod.mk.injEq] at hkeys hvals
  have ht : World.trial.tokens 23 = some ⟨⟨3, 7⟩, 4000, false, none, 0⟩ := by decide +kernel
  have hz : World.trial.tokens (P.rewards 0).vault = some ⟨⟨100, 7⟩, 800, false, none, 0⟩ := by
    rw [hkeys.2.2]
    decide +kernel
  have hclock : World.trial.clock.val ≤ (60 : I64).val := by decide +kernel
  have hu : World.trialRuntime.signable P.keeperAuthority = true := by
    rw [hkeys.1]
    decide
  have hi : P.Registered 0 := by
    rw [Pool.Registered, hkeys.2.1]
    decide
  have hroll : P.RollsBy 60 := by
    intro hempty
    rw [hvals.2.2] at hempty
    cases hempty
  have haccepted : ∀ amount : U64, (∃ w', World.trial.step World.trialRuntime
      ((Instruction.depositRewards (depositAccounts P 100 23 0) amount).alone 60) = .ok w') ↔ _ :=
    fun amount => (deposit_accepted World.initial_trialStart World.trial_run.1 depositsFit_trial hP
      hu hi ht hkeys.1.symm hkeys.2.1.symm hz hclock).1
  refine ⟨P, hP, (haccepted 500).mpr ⟨⟨by decide, hvals.1, hroll, by rw [hvals.2.1]; decide⟩,
    by decide, fun h => absurd h (by simp), rfl, ⟨rfl, rfl⟩, by decide⟩, ?_⟩
  intro hdeposit
  exact absurd ((haccepted 0).mp hdeposit).1.1 (by decide)

end Accepted
end MmStaking
