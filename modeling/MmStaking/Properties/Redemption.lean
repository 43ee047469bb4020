import MmStaking.Properties.Backing
import MmStaking.Properties.Exit

/-! Redemption: at any time, in a paused pool or not, a staker gets its stake out by its own
signature alone, and the tokens arrive. What can be in the way is in the token program: a
frozen account, or an account with no room. -/
namespace MmStaking
open Words Loops Runs Custody Accrual

section Deposits
variable {ι : Type} [DecidableEq ι]

def Op.depositOf (mint : Pubkey) : Op ι → ℕ
  | .depositRewards m received => if m = mint then received.val else 0
  | .addReward _ _ _ | .setRewardActive _ _ | .stake _ _ _ _ _ | .unstake _ _ | .claim _ _
  | .emergencyWithdraw _ | .setPaused _ | .setKeeperAuthority _ | .setAdmin _
  | .setDuration _ _ => 0

def depositsOf (mint : Pubkey) (calls : List (Call ι)) : ℕ :=
  (calls.map fun c => c.op.depositOf mint).sum

omit [DecidableEq ι] in
theorem depositsOf_snoc (mint : Pubkey) (calls : List (Call ι)) (c : Call ι) :
    depositsOf mint (calls ++ [c]) = depositsOf mint calls + c.op.depositOf mint := by
  simp [depositsOf]

theorem perform_deposited {s s' : Sys ι} (ht : s.Tidy) {now : I64} {op : Op ι}
    (h : s.perform now op = .ok s') (i : Slot) :
    s'.ledger.deposited i ≤ s.ledger.deposited i + op.depositOf (s.pool.rewards i).mint ∧
      (¬ s.pool.Registered i → s'.ledger.deposited i = s.ledger.deposited i) := by
  have hsame : s'.ledger.deposited = s.ledger.deposited →
      s'.ledger.deposited i ≤ s.ledger.deposited i + op.depositOf (s.pool.rewards i).mint ∧
        (¬ s.pool.Registered i → s'.ledger.deposited i = s.ledger.deposited i) := by
    intro heq
    rw [heq]
    exact ⟨Nat.le_add_right _ _, fun _ => rfl⟩
  cases op with
  | depositRewards mint received =>
      obtain ⟨j, hj, hactive, p₁, _, _, -, -, -, rfl⟩ := perform_depositRewards_eq_ok_iff.mp h
      by_cases hij : i = j
      · subst hij
        have hmint : mint = (s.pool.rewards i).mint := (findSlot_eq_some_iff.mp hj).1.symm
        refine ⟨?_, fun hi => absurd (ht.registered_of_active hactive) hi⟩
        simp [Ledger.recordDeposit, Op.depositOf, hmint]
      · exact ⟨by simp [Ledger.recordDeposit, hij], fun _ => by simp [Ledger.recordDeposit, hij]⟩
  | claim v vaultKeys =>
      obtain ⟨p₁, a₁, a₂, paid, -, -, htake, rfl⟩ := perform_claim_eq_ok_iff.mp h
      refine hsame ?_
      dsimp only
      rw [(claimTakeAll_eq_ok v s.ledger htake).2]
      rfl
  | stake v owner poolKey bump amount =>
      obtain ⟨-, -, _, _, _, _, -, -, -, -, rfl⟩ := perform_stake_eq_ok_iff.mp h
      exact hsame rfl
  | unstake v amount =>
      obtain ⟨-, -, _, _, _, _, -, -, -, -, rfl⟩ := perform_unstake_eq_ok_iff.mp h
      exact hsame rfl
  | emergencyWithdraw v =>
      obtain rfl := perform_emergencyWithdraw_eq_ok_iff.mp h
      exact hsame rfl
  | addReward mint vault d =>
      obtain ⟨-, _, _, -, -, rfl⟩ := perform_addReward_eq_ok_iff.mp h
      exact hsame rfl
  | setRewardActive slot active =>
      obtain ⟨_, -, rfl⟩ := perform_setRewardActive_eq_ok_iff.mp h
      exact hsame rfl
  | setDuration slot d =>
      obtain ⟨-, _, -, rfl⟩ := perform_setDuration_eq_ok_iff.mp h
      exact hsame rfl
  | setPaused paused =>
      cases h
      exact hsame rfl
  | setKeeperAuthority keeper =>
      cases h
      exact hsame rfl
  | setAdmin newAdmin =>
      cases h
      exact hsame rfl

theorem deposited_along {s₀ s : Sys ι} {l : List (Sys ι × Call ι)} (h0 : s₀.Initial)
    (r : Run Sys.Step s₀ l s) (i : Slot) :
    s.ledger.deposited i ≤ depositsOf (s.pool.rewards i).mint (l.map Prod.snd) ∧
      (¬ s.pool.Registered i → s.ledger.deposited i = 0) := by
  induction r with
  | refl =>
      obtain ⟨-, -, -, -, -, -, hledger⟩ := initial_blank h0
      rw [hledger]
      exact ⟨Nat.zero_le _, fun _ => rfl⟩
  | @tail l s c s' r hs ih =>
      obtain ⟨-, ht, -, -⟩ := registry_along h0 r
      obtain ⟨-, t, ht', rfl⟩ := Sys.step_eq_ok_iff.mp hs
      obtain ⟨hle, hzero⟩ := ih
      obtain ⟨hadd, hsame⟩ := perform_deposited ht ht' i
      rw [List.map_append, List.map_cons, List.map_nil, depositsOf_snoc]
      dsimp only
      by_cases hi : s.pool.Registered i
      · obtain ⟨hkeys, hi'⟩ := perform_registered ht.last_nonneg ht' hi
        have hmint : (t.pool.rewards i).mint = (s.pool.rewards i).mint := congrArg Prod.fst hkeys
        rw [hmint]
        exact ⟨hadd.trans (Nat.add_le_add_right hle _), fun hn => absurd hi' hn⟩
      · rw [hsame hi, hzero hi]
        exact ⟨Nat.zero_le _, fun _ => rfl⟩

end Deposits

variable {rt : Runtime} {w₀ w : World} {h : List (World × Event)} {p k : Pubkey} {P : Pool}
  {a : StakerAccount}

/-- What ever came into a pool of one mint stays below `2^128` once scaled. -/
def DepositsFit (calls : List (Call Pubkey)) : Prop :=
  ∀ mint, depositsOf mint calls * PRECISION.val < 2 ^ 128

theorem vaultBalance_lt {x : Vault} : w.vaultBalance p x < 2 ^ 64 := by
  rw [World.vaultBalance]
  split
  · rw [balance, custody, Option.map_map]
    cases w.tokens _ with
    | none => decide
    | some z => exact z.amount.isLt
  · decide

/-- The system of a pool is bounded, since its vaults are token accounts. -/
theorem World.Initial.bounded (h0 : w₀.Initial rt) (r : Run (World.Step rt) w₀ h w)
    (hP : w.pools p = some P) (hfit : DepositsFit (callsOn rt p h)) :
    ∃ s : Sys Pubkey, s.Reachable ∧ s.Bounded ∧ s.pool = P ∧ s.staker = w.stakerAt p ∧
      s.clock.val ≤ w.clock.val ∧ ∀ x, s.ledger.vault x ≤ w.vaultBalance p x := by
  obtain ⟨s₀, l, s, hinit, r', hcalls, hshows⟩ := (h0.run r p).2 P hP
  have hvault : ∀ x, s.ledger.vault x ≤ w.vaultBalance p x := by
    intro x
    have hgift := cost_gift_nonneg (p := p) (x := x) h0.kept r
    rw [hshows.vault_eq x]
    omega
  refine ⟨s, ⟨s₀, l, hinit, r'⟩, ⟨?_, ?_⟩, Option.some.inj (hshows.pool.symm.trans hP),
    hshows.staker, hshows.clock_le, hvault⟩
  · intro i
    have hlt := vaultBalance_lt (w := w) (p := p) (x := .reward i)
    have hle : s.ledger.rewardVault i ≤ w.vaultBalance p (.reward i) := hvault (.reward i)
    omega
  · intro i
    obtain ⟨hle, -⟩ := deposited_along hinit r' i
    rw [hcalls] at hle
    exact (Nat.mul_le_mul_right _ hle).trans_lt (hfit _)

theorem World.step_opens {w' : World} {tx : Tx} {P' : Pool} (hs : w.step rt tx = .ok w')
    (hnone : w.pools tx.instruction.pool = none)
    (hP' : w'.pools tx.instruction.pool = some P') :
    w.mints P'.stakeMint = true ∧ ∀ i, ¬ P'.Registered i := by
  obtain ⟨-, -, t, ht, rfl⟩ := World.step_eq_ok_iff.mp hs
  obtain ⟨-, ctx, d, keeper, hix⟩ := Instruction.opens ht hnone
  rw [hix] at ht hP'
  obtain ⟨-, hmint, _, _, pool, _, -, -, -, -, hinit, -, rfl⟩ :=
    InitializePool.handler_eq_ok_iff.mp ht
  simp only [initPool, bind_eq_ok_iff, require_eq_ok_iff, pure_eq_ok_iff] at hinit
  obtain ⟨-, -, rfl⟩ := hinit
  simp only [World.putPool, World.putToken, World.putLamports, Instruction.pool,
    Function.update_self, Option.some.injEq] at hP'
  subst hP'
  exact ⟨hmint, fun i hi => hi rfl⟩

theorem World.Reachable.mint (hw : w.Reachable rt) (hP : w.pools p = some P) :
    w.mints P.stakeMint = true := by
  refine (hw.invariant (I := fun w => w.Kept rt ∧ ∀ p P, w.pools p = some P →
    w.mints P.stakeMint = true) ?_ ?_).2 p P hP
  · intro w h0
    refine ⟨h0.kept, ?_⟩
    intro p P hP
    rw [h0.pools_none] at hP
    cases hP
  · intro w e w' ⟨hw, hmints⟩ hs
    have hw' := hw.step hs
    refine ⟨hw', ?_⟩
    intro p P' hP'
    cases hs with
    | outside hs =>
        rw [hs.pools_eq] at hP'
        exact hs.mints_kept (hmints p P' hP')
    | @tx tx _ hs =>
        have htouch := hw.1.step_touches hs
        rw [htouch.mints]
        cases hP : w.pools p with
        | some P =>
            rw [hw.1.stakeMint_eq hw'.1 hP hP']
            exact hmints p P hP
        | none =>
            obtain ⟨P₁, hpools⟩ := htouch.pool
            have hpool : tx.instruction.pool = p := by
              by_contra hne
              rw [hpools, Function.update_of_ne (Ne.symm hne), hP] at hP'
              cases hP'
            subst hpool
            exact (World.step_opens hs hP hP').1

section Exits
variable {t : Pubkey} {x z : Holding} {now : I64}

def Instruction.alone (ix : Instruction) (now : I64) : Tx :=
  { signers := [ix.caller], now := now, instruction := ix }

theorem Instruction.step_alone {ix : Instruction} {w' : World}
    (hu : rt.signable ix.caller = true) (hnow : w.clock.val ≤ now.val)
    (hhandle : ix.handle { rt := rt, signers := [ix.caller], now := now } w = .ok w') :
    w.step rt (ix.alone now) = .ok { w' with clock := now } := by
  refine World.step_eq_ok_iff.mpr ⟨hnow, ?_, w', hhandle, rfl⟩
  intro key hkey
  rw [List.mem_singleton.mp hkey]
  exact hu

/-- The accounts `owner` passes to get out of the pool at `p` into its token account `t`. -/
def exitAccounts (P : Pool) (p k owner t : Pubkey) : Unstake :=
  { owner := owner, pool := p, staker := k, stakeMint := P.stakeMint, userTokenAccount := t,
    stakeVault := P.stakeVault }

theorem exitAccounts_load (hw : w.Reachable rt) (hP : w.pools p = some P)
    (hk : w.stakers k = some a) (ha : a.pool = p) (ht : w.tokens t = some x)
    (hxo : x.owner = a.owner) (hxm : x.mint = P.stakeMint) (now : I64) :
    (exitAccounts P p k a.owner t).Loads { rt := rt, signers := [a.owner], now := now }
      w P a := by
  have hplaced := (hw.sound.staker hk).1
  obtain ⟨z, hz, -, -⟩ := (hw.sound.pool hP).vault_held
  refine ⟨List.mem_singleton_self _, hP, hk, hw.mint hP, ⟨x, ht, hxo, hxm⟩, ⟨z, hz⟩,
    Pda.create_of_find (hw.sound.pool hP).found, ?_, rfl, rfl, rfl⟩
  have hfound := Pda.create_of_find hplaced.found
  rwa [ha] at hfound

theorem stakeVault_pays (hw : w.Reachable rt) (hP : w.pools p = some P)
    (hk : w.stakers k = some a) (ha : a.pool = p) (ht : w.tokens t = some x)
    (hxo : x.owner = a.owner) (hxm : x.mint = P.stakeMint) (hz : w.tokens P.stakeVault = some z)
    (hfrozen : x.frozen = false ∧ z.frozen = false) {amount : U64}
    (hle : amount.val ≤ a.stakedAmount.val) (hroom : x.amount.val + amount.val < 2 ^ 64) :
    ∃ tokens, rt.transfer w.tokens P.stakeVault t p amount = .ok tokens ∧
      balance (custody tokens) t = x.amount.val + amount.val := by
  have hplaced := hw.sound.pool hP
  obtain ⟨z', hz', hzo, hzm⟩ := hplaced.vault_held
  obtain rfl : z = z' := Option.some.inj (hz.symm.trans hz')
  have hne : t ≠ P.stakeVault :=
    hplaced.not_held ht hxo (hw.sound.staker hk).1.signable hz hzo
  have hstaked := hw.staked_le hP k
  rw [stakerAt_eq hk ha] at hstaked
  have hvault : P.totalStaked.val ≤ z.amount.val := by
    have htotal := hw.total_le hP
    rwa [vaultBalance_stake hP hz] at htotal
  obtain ⟨tokens, htransfer⟩ := transfer_isOk hz ht hfrozen.symm
    (hle.trans (hstaked.trans hvault)) (hzm.trans hxm.symm)
    (Holding.lets_of_undelegated hzo (hplaced.vault_alone z hz))
    (rt.create_single (Pda.create_of_find hplaced.found)) hroom
  refine ⟨tokens, htransfer, ?_⟩
  obtain ⟨-, -, hmoved⟩ := transfer_moved htransfer hz ht hne.symm
  rw [balance, hmoved, moved_dest]
  rfl

theorem World.Reachable.withdraws (hw : w.Reachable rt) (hP : w.pools p = some P)
    (hk : w.stakers k = some a) (ha : a.pool = p) (ht : w.tokens t = some x)
    (hxo : x.owner = a.owner) (hxm : x.mint = P.stakeMint) (hz : w.tokens P.stakeVault = some z)
    (hfrozen : x.frozen = false ∧ z.frozen = false) (hnow : w.clock.val ≤ now.val)
    (hpos : 0 < a.stakedAmount.val) (hroom : x.amount.val + a.stakedAmount.val < 2 ^ 64) :
    ∃ P' a' tokens, emergencyWithdraw P a = .ok (P', a', a.stakedAmount) ∧
      rt.transfer w.tokens P.stakeVault t p a.stakedAmount = .ok tokens ∧
      balance (custody tokens) t = x.amount.val + a.stakedAmount.val ∧
      w.step rt ((Instruction.emergencyWithdraw (exitAccounts P p k a.owner t)).alone now) =
        .ok { ((w.putPool p P').putStaker k a').putTokens tokens with clock := now } := by
  have hloads := exitAccounts_load hw hP hk ha ht hxo hxm now
  obtain ⟨tokens, htransfer, hbalance⟩ :=
    stakeVault_pays hw hP hk ha ht hxo hxm hz hfrozen le_rfl hroom
  exact ⟨_, _, tokens, rfl, htransfer, hbalance,
    Instruction.step_alone (hw.sound.staker hk).1.signable hnow
      (EmergencyWithdraw.handler_eq_ok_iff.mpr
        ⟨_, _, _, _, tokens, hloads, hpos, rfl, htransfer, rfl⟩)⟩

/-- At any later time the owner of a staker account, signing alone, gets any part of the stake
by `unstake`, given the deposits fit, and all of it by `emergency_withdraw`, without any
condition on the pool: whatever its flags, its streams and its other stakers are. -/
theorem stake_redeemable (h0 : w₀.Initial rt) (r : Run (World.Step rt) w₀ h w)
    (hP : w.pools p = some P) (hk : w.stakers k = some a) (ha : a.pool = p)
    (ht : w.tokens t = some x) (hxo : x.owner = a.owner) (hxm : x.mint = P.stakeMint)
    (hz : w.tokens P.stakeVault = some z) (hfrozen : x.frozen = false ∧ z.frozen = false)
    (hnow : w.clock.val ≤ now.val) :
    (DepositsFit (callsOn rt p h) → ∀ amount : U64, 0 < amount.val →
      amount.val ≤ a.stakedAmount.val → x.amount.val + amount.val < 2 ^ 64 →
      ∃ w' a', w.step rt
          ((Instruction.unstake (exitAccounts P p k a.owner t) amount).alone now) = .ok w' ∧
        balance (custody w'.tokens) t = x.amount.val + amount.val ∧
        w'.stakers k = some a' ∧ a'.stakedAmount.val = a.stakedAmount.val - amount.val) ∧
    (0 < a.stakedAmount.val → x.amount.val + a.stakedAmount.val < 2 ^ 64 →
      ∃ w' a', w.step rt
          ((Instruction.emergencyWithdraw (exitAccounts P p k a.owner t)).alone now) = .ok w' ∧
        balance (custody w'.tokens) t = x.amount.val + a.stakedAmount.val ∧
        w'.stakers k = some a' ∧ a'.stakedAmount = 0) := by
  have hw : w.Reachable rt := ⟨w₀, h, h0, r⟩
  have hloads := exitAccounts_load hw hP hk ha ht hxo hxm now
  constructor
  · intro hfit amount hpos hle hroom
    obtain ⟨s, hs, hb, rfl, hstaker, hclock, -⟩ := h0.bounded r hP hfit
    have hat : s.staker k = a := by
      rw [hstaker]
      exact stakerAt_eq hk ha
    obtain ⟨P', a', hunstake⟩ := hs.unstake_isOk hb (hclock.trans hnow) s.pool.paused
      (v := k) hpos (by rw [hat]; exact hle)
    rw [hat] at hunstake
    obtain ⟨tokens, htransfer, hbalance⟩ :=
      stakeVault_pays hw hP hk ha ht hxo hxm hz hfrozen hle hroom
    refine ⟨_, a', Instruction.step_alone (hw.sound.staker hk).1.signable hnow
      (Unstake.handler_eq_ok_iff.mpr ⟨_, _, P', a', tokens, hloads, hunstake, htransfer, rfl⟩),
      hbalance, Function.update_self _ _ _, ?_⟩
    obtain ⟨-, -, _, a₁, _, _, -, he, ⟨-, hst⟩, -, -, rfl⟩ := unstake_eq_ok_iff.mp hunstake
    rw [hst, settleEntries_staked he]
  · intro hpos hroom
    obtain ⟨P', a', tokens, hexit, -, hbalance, hstep⟩ :=
      hw.withdraws hP hk ha ht hxo hxm hz hfrozen hnow hpos hroom
    simp only [emergencyWithdraw, Except.ok.injEq, Prod.mk.injEq] at hexit
    obtain ⟨-, rfl, -⟩ := hexit
    exact ⟨_, _, hstep, hbalance, Function.update_self _ _ _, rfl⟩

theorem depositsFit_trial : DepositsFit (callsOn World.trialRuntime 100 World.trialHistory) := by
  intro mint
  rw [callsOn_trial]
  have hle : depositsOf mint
      [ ⟨0, .addReward 7 102 100⟩, ⟨0, .stake 111 1 100 255 100⟩, ⟨0, .depositRewards 7 1000⟩,
        ⟨10, .stake 112 2 100 255 300⟩, (⟨50, .claim 111 [102]⟩ : Call Pubkey)] ≤ 1000 := by
    change 0 + (0 + ((if (7 : Pubkey) = mint then 1000 else 0) + (0 + (0 + 0)))) ≤ 1000
    split <;> decide
  exact (Nat.mul_le_mul_right _ hle).trans_lt (by decide)

/-- The second staker of the trial takes 120 of its 300 out, to the 700 it kept. -/
theorem stake_redeemable_trial : ∃ w' P, World.trial.step World.trialRuntime
    ((Instruction.unstake (exitAccounts P 100 112 2 22) 120).alone 60) = .ok w' ∧
      balance (custody w'.tokens) 22 = 820 := by
  obtain ⟨P, hP⟩ := Option.isSome_iff_exists.mp
    (show (World.trial.pools 100).isSome = true by decide +kernel)
  obtain ⟨a, hk⟩ := Option.isSome_iff_exists.mp
    (show (World.trial.stakers 112).isSome = true by decide +kernel)
  have ha : (World.trial.stakers 112).map (fun a => (a.owner, a.pool, a.stakedAmount.val)) =
      some (2, 100, 300) := by decide +kernel
  have hmint : (World.trial.pools 100).map (fun P => (P.stakeMint, P.stakeVault)) =
      some (5, 101) := by decide +kernel
  rw [hk, Option.map_some, Option.some.injEq, Prod.mk.injEq, Prod.mk.injEq] at ha
  rw [hP, Option.map_some, Option.some.injEq, Prod.mk.injEq] at hmint
  have ht : World.trial.tokens 22 = some ⟨⟨2, 5⟩, 700, false, some 2, 300⟩ := by decide +kernel
  have hz : World.trial.tokens 101 = some ⟨⟨100, 5⟩, 400, false, none, 0⟩ := by decide +kernel
  obtain ⟨w', a', hstep, hbalance, -⟩ := (stake_redeemable World.initial_trialStart
    World.trial_run.1 hP hk ha.2.1 ht ha.1.symm hmint.1.symm (by rw [hmint.2]; exact hz) ⟨rfl, rfl⟩
    (by decide +kernel : World.trial.clock.val ≤ (60 : I64).val)).1 depositsFit_trial 120
    (by decide) (by rw [ha.2.2]; decide) (by decide)
  rw [ha.1] at hstep
  exact ⟨w', P, hstep, hbalance⟩

end Exits
end MmStaking
