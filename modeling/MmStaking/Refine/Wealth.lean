import Mathlib.Data.FinEnum
import MmStaking.Refine.Chain

/-! What everybody has of a mint: the tokens in token accounts, and the stakes in staker
accounts. Both are accounts in custody, so one sum counts each. -/
namespace MmStaking
open Words Loops Runs Custody

/-- The stakes as accounts: of the staker, of the mint of the pool. -/
def World.stakes (w : World) : Accounts Pubkey Pubkey Pubkey := fun k =>
  (w.stakers k).bind fun a => (w.pools a.pool).map fun P =>
    { owner := a.owner, kind := P.stakeMint, amount := a.stakedAmount.val }

/-- The tokens of a mint that `u` holds. The sums over all keys are never to be unfolded by a
search. -/
@[irreducible] def World.wallet (u m : Pubkey) (w : World) : ℕ :=
  held (fun o d => o = u ∧ d = m) (custody w.tokens)

/-- What `u` has staked of a mint. -/
@[irreducible] def World.staked (u m : Pubkey) (w : World) : ℕ :=
  held (fun o d => o = u ∧ d = m) w.stakes

/-- What a change from outside does to a quantity; a transaction is none. -/
def World.drift (f : World → ℕ) (w : World) : Event → ℤ
  | .tx _ => 0
  | .outside after => f after - f w

section Holders
variable {rt : Runtime} {token : TokenProgram} {ix : Instruction} {tokens tokens' : Tokens}
  {source dest authority key : Pubkey} {amount : U64} {x y : Holding}
  {c : Pubkey → Pubkey → Prop} [∀ o d, Decidable (c o d)]

theorem transfer_held
    (h : token.transfer tokens source dest authority amount = .ok tokens')
    (hx : tokens source = some x) (hy : tokens dest = some y) (hne : x.owner ≠ y.owner) :
    held c (custody tokens') + (if c x.owner y.mint then amount.val else 0) =
      held c (custody tokens) + if c y.owner y.mint then amount.val else 0 := by
  have hdist : source ≠ dest := by
    rintro rfl
    rw [Option.some.inj (hx.symm.trans hy)] at hne
    exact hne rfl
  obtain ⟨hmint, hle, hmoved⟩ := transfer_moved h hx hy hdist
  have hheld := held_moved (c := c) hdist (custody_eq_some hx) (custody_eq_some hy) hle
  have hkind : x.account.kind = y.account.kind := hmint
  rw [← hmoved, hkind] at hheld
  exact hheld

theorem held_opened (hnone : tokens key = none) (mint owner : Pubkey) :
    held c (custody (Function.update tokens key (some (.opened mint owner)))) =
      held c (custody tokens) := by
  have hupdate := held_update c (custody tokens) key (some (Holding.opened mint owner).account)
  have hbefore : weight c (custody tokens key) = 0 := by
    rw [custody, hnone]
    rfl
  have hafter : weight c (some (Holding.opened mint owner).account) = 0 := ite_self 0
  rw [custody_update]
  omega

theorem transfer_wallet {w : World} {u m : Pubkey} (w' : World)
    (h : token.transfer w.tokens source dest authority amount = .ok w'.tokens)
    (hx : w.tokens source = some x) (hy : w.tokens dest = some y) (hne : x.owner ≠ y.owner) :
    w'.wallet u m + (if x.owner = u ∧ y.mint = m then amount.val else 0) =
      w.wallet u m + if y.owner = u ∧ y.mint = m then amount.val else 0 := by
  unfold World.wallet
  exact transfer_held h hx hy hne

theorem Instruction.Flows.held_le (h : ix.Flows rt tokens tokens')
    (hpayer : ∀ o, ix.payer = some o → ∀ d, ¬ c o d) :
    held c (custody tokens) ≤ held c (custody tokens') := by
  rcases h with hmoves | ⟨seeds, bump, key, mint, -, hnone, rfl⟩
  · exact hmoves.held_le hpayer
  · exact (held_opened hnone mint ix.pool).ge

theorem Instruction.Flows.held_ge (h : ix.Flows rt tokens tokens')
    (hpayee : ∀ o, ix.payee = some o → ∀ d, ¬ c o d) :
    held c (custody tokens') ≤ held c (custody tokens) := by
  rcases h with hmoves | ⟨seeds, bump, key, mint, -, hnone, rfl⟩
  · exact hmoves.held_ge hpayee
  · exact (held_opened hnone mint ix.pool).le

end Holders

section Stakes
variable {env : Env} {w w' : World} {ix : Instruction} {k u m : Pubkey} {P : Pool}
  {a a' : StakerAccount}

theorem stakes_eq_some (hk : w.stakers k = some a) (hP : w.pools a.pool = some P) :
    w.stakes k = some { owner := a.owner, kind := P.stakeMint, amount := a.stakedAmount.val } := by
  rw [World.stakes, hk, Option.bind_some, hP, Option.map_some]

theorem Instruction.Touches.stakes_other (hw : w.Sound env.rt) (hw' : w'.Sound env.rt)
    (h : ix.Touches env w w') (hk : ix.staker ≠ some k) : w'.stakes k = w.stakes k := by
  cases ha : w.stakers k with
  | none => simp only [World.stakes, h.stakers k hk, ha, Option.bind_none]
  | some a =>
      obtain ⟨-, P, hP⟩ := hw.staker ha
      obtain ⟨P₁, hpools⟩ := h.pool
      obtain ⟨P', hP'⟩ : ∃ P', w'.pools a.pool = some P' := by
        by_cases hp : a.pool = ix.pool
        · exact ⟨P₁, by rw [hpools, hp, Function.update_self]⟩
        · exact ⟨P, by rw [hpools, Function.update_of_ne hp, hP]⟩
      rw [stakes_eq_some ha hP, stakes_eq_some ((h.stakers k hk).trans ha) hP',
        hw.stakeMint_eq hw' hP hP']

theorem Instruction.Touches.stakes_eq (hw : w.Sound env.rt) (hw' : w'.Sound env.rt)
    (h : ix.Touches env w w') (hnone : ix.staker = none) : w'.stakes = w.stakes := by
  funext k
  refine h.stakes_other hw hw' ?_
  rw [hnone]
  exact Option.some_ne_none k ∘ Eq.symm

theorem Instruction.Touches.stakes_update (hw : w.Sound env.rt) (hw' : w'.Sound env.rt)
    (h : ix.Touches env w w') (hk : ix.staker = some k) (hP : w.pools ix.pool = some P)
    (ha' : w'.stakers k = some a') : w'.stakes = Function.update w.stakes k
      (some { owner := ix.caller, kind := P.stakeMint, amount := a'.stakedAmount.val }) := by
  funext j
  by_cases hj : j = k
  · subst hj
    obtain ⟨-, b, hb, howner, hpool⟩ := h.staker j hk
    obtain rfl : a' = b := Option.some.inj (ha'.symm.trans hb)
    obtain ⟨P', hpools⟩ := h.pool
    have hP' : w'.pools ix.pool = some P' := by rw [hpools, Function.update_self]
    rw [Function.update_self, stakes_eq_some ha' (by rw [hpool]; exact hP'),
      hw.stakeMint_eq hw' hP hP', howner]
  · rw [Function.update_of_ne hj]
    refine h.stakes_other hw hw' ?_
    rw [hk]
    exact fun hsame => hj (Option.some.inj hsame).symm

theorem wallet_congr (h : w'.tokens = w.tokens) : w'.wallet u m = w.wallet u m := by
  unfold World.wallet
  rw [h]

theorem staked_congr (h : w'.stakes = w.stakes) : w'.staked u m = w.staked u m := by
  unfold World.staked
  rw [h]

/-- The stake under a key, of whoever. -/
def World.stakeAt (w : World) (k : Pubkey) : ℕ :=
  ((w.stakers k).map fun a => a.stakedAmount.val).getD 0

theorem Instruction.Touches.staked_add (hw : w.Sound env.rt) (hw' : w'.Sound env.rt)
    (h : ix.Touches env w w') (hk : ix.staker = some k) (hP : w.pools ix.pool = some P) :
    w'.staked u m + (if ix.caller = u ∧ P.stakeMint = m then w.stakeAt k else 0) =
      w.staked u m + if ix.caller = u ∧ P.stakeMint = m then w'.stakeAt k else 0 := by
  obtain ⟨hold, a', ha', -⟩ := h.staker k hk
  have hupdate := held_update (fun o d => o = u ∧ d = m) w.stakes k
    (some { owner := ix.caller, kind := P.stakeMint, amount := a'.stakedAmount.val })
  rw [← h.stakes_update hw hw' hk hP ha'] at hupdate
  have hbefore : weight (fun o d => o = u ∧ d = m) (w.stakes k) =
      if ix.caller = u ∧ P.stakeMint = m then w.stakeAt k else 0 := by
    cases ha : w.stakers k with
    | none => simp [World.stakes, World.stakeAt, ha, weight]
    | some a =>
        obtain ⟨howner, hpool⟩ := hold a ha
        rw [stakes_eq_some ha (by rw [hpool]; exact hP), howner, World.stakeAt, ha]
        rfl
  rw [hbefore] at hupdate
  have hafter : w'.stakeAt k = a'.stakedAmount.val := by
    rw [World.stakeAt, ha']
    rfl
  unfold World.staked
  rw [hafter]
  exact hupdate

end Stakes

section Payout
variable {env : Env} {ctx : Claim} {stakeMint : Pubkey} {bump : U8} {P : Pool}
  {a a' : StakerAccount} {tokens tokens' : Tokens} {c : Pubkey → Pubkey → Prop}
  [∀ o d, Decidable (c o d)]

theorem Claim.turn_held {vaultAi userAi : Pubkey} (hne : ctx.owner ≠ ctx.pool)
    (hpool : ∀ d, ¬ c ctx.pool d) (hvaults : a.PaidFrom P ctx.pool tokens)
    (h : ctx.turn env stakeMint bump P (a, tokens) (vaultAi, userAi) = .ok (a', tokens'))
    {i : Slot} (hi : findVault P vaultAi = some i) : held c (custody tokens') =
      held c (custody tokens) +
        if c ctx.owner (P.rewards i).mint then (a.entries i).rewardsAccrued.val else 0 := by
  obtain ⟨i', hi', -, heffect⟩ := Claim.turn_eq_ok_iff.mp h
  obtain rfl : i = i' := Option.some.inj (hi.symm.trans hi')
  have hkey : (P.rewards i).vault = vaultAi := (findVault_eq_some_iff.mp hi).1
  split at heffect
  · rename_i hzero
    rw [heffect, hzero, ite_self, add_zero]
  · rename_i hpos
    obtain ⟨x, y, hx, hy, howner, hmint, -, htransfer⟩ := heffect
    obtain ⟨x', hx', hxowner, hxmint⟩ := hvaults i hpos
    rw [hkey] at hx'
    obtain rfl : x = x' := Option.some.inj (hx.symm.trans hx')
    have hauth : x.owner ≠ y.owner := by
      rw [hxowner, howner]
      exact hne.symm
    have hheld := transfer_held (c := c) htransfer hx hy hauth
    rw [hxowner, if_neg (hpool _), add_zero, howner, hmint, hxmint] at hheld
    exact hheld

theorem Claim.loop_held {pairs : List (Pubkey × Pubkey)} (hne : ctx.owner ≠ ctx.pool)
    (hpool : ∀ d, ¬ c ctx.pool d) (hvaults : a.PaidFrom P ctx.pool tokens)
    (h : pairs.foldlM (ctx.turn env stakeMint bump P) (a, tokens) = .ok (a', tokens')) :
    ∃ paid, claimTakeAll P a (pairs.map Prod.fst) = .ok (a', paid) ∧
      held c (custody tokens') = held c (custody tokens) +
        (paid.map fun e => if c ctx.owner (P.rewards e.1).mint then e.2.val else 0).sum := by
  induction pairs generalizing a tokens with
  | nil =>
      rw [List.foldlM_nil, pure_eq_ok_iff, Prod.mk.injEq] at h
      obtain ⟨rfl, rfl⟩ := h
      exact ⟨[], rfl, by rw [List.map_nil, List.sum_nil, add_zero]⟩
  | cons pair pairs ih =>
      obtain ⟨vaultAi, userAi⟩ := pair
      rw [List.foldlM_cons, bind_eq_ok_iff] at h
      obtain ⟨⟨a₁, tokens₁⟩, hturn, hrest⟩ := h
      have hmoves := Claim.turn_moves hvaults hturn
      obtain ⟨i, hi, rfl, -⟩ := Claim.turn_eq_ok_iff.mp hturn
      obtain ⟨paid, htake, hheld⟩ := ih (hvaults.moves hmoves _) hrest
      refine ⟨(i, (a.entries i).rewardsAccrued) :: paid, ?_, ?_⟩
      · simp only [List.map_cons, claimTakeAll, bind_eq_ok_iff, pure_eq_ok_iff]
        exact ⟨_, claimTakeSlot_eq_ok_iff.mpr ⟨i, hi, rfl⟩, _, htake, rfl⟩
      · rw [hheld, Claim.turn_held hne hpool hvaults hturn hi, List.map_cons, List.sum_cons,
          add_assoc]

end Payout

/-- What the logic of a claim pays of a mint. -/
def World.payout (w : World) (now : I64) (ctx : Claim) (m : Pubkey) : ℕ :=
  match w.pools ctx.pool, w.stakers ctx.staker with
  | some pool, some staker =>
      match claimSettleAll pool staker now with
      | .ok (pool, staker) =>
          match claimTakeAll pool staker ((keyPairs ctx.remaining).map Prod.fst) with
          | .ok (_, paid) =>
              (paid.map fun e => if (pool.rewards e.1).mint = m then e.2.val else 0).sum
          | .error _ => 0
      | .error _ => 0
  | _, _ => 0

/-- What a step takes from `u` for the stream of a mint. -/
def Event.spends (u m : Pubkey) : Event → ℕ
  | .outside _ => 0
  | .tx t =>
      match t.instruction with
      | .depositRewards ctx amount => if ctx.keeper = u ∧ ctx.rewardMint = m then amount.val else 0
      | _ => 0

/-- What a step pays `u` in rewards of a mint. -/
def World.earns (u m : Pubkey) (w : World) : Event → ℕ
  | .outside _ => 0
  | .tx t =>
      match t.instruction with
      | .claim ctx => if ctx.owner = u then w.payout t.now ctx m else 0
      | _ => 0

section Wealth
variable {env : Env} {w w' : World} {ix : Instruction} {u m : Pubkey}

theorem Instruction.pool_of_staker {k : Pubkey} (h : ix.handle env w = .ok w')
    (hk : ix.staker = some k) : ∃ P, w.pools ix.pool = some P := by
  cases hP : w.pools ix.pool with
  | some P => exact ⟨P, rfl⟩
  | none =>
      obtain ⟨-, ctx, d, keeper, rfl⟩ := Instruction.opens h hP
      cases hk

theorem Instruction.Touches.pool_ne (h : ix.Touches env w w') (hw' : w'.Sound env.rt)
    (hu : env.rt.signable u = true) : u ≠ ix.pool := by
  obtain ⟨P', hpools⟩ := h.pool
  exact (hw'.pool (by rw [hpools, Function.update_self])).unsignable hu

theorem Instruction.others_kept (hw : w.Sound env.rt)
    (hsign : ∀ key ∈ env.signers, env.rt.signable key = true) (hu : env.rt.signable u = true)
    (hne : ix.caller ≠ u) (h : ix.handle env w = .ok w') :
    w'.wallet u m = w.wallet u m ∧ w'.staked u m = w.staked u m := by
  have hw' := hw.handle hsign h
  have htouch := hw.touches hsign h
  have hnot : ∀ o, o = ix.caller ∨ o = ix.pool → ∀ d, ¬ (o = u ∧ d = m) := by
    rintro o ho d ⟨rfl, -⟩
    rcases ho with ho | ho
    · exact hne ho.symm
    · exact htouch.pool_ne hw' hu ho
  constructor
  · have hle := htouch.flows.held_le (c := fun o d => o = u ∧ d = m)
      fun o ho => hnot o (Instruction.payer_eq ho)
    have hge := htouch.flows.held_ge (c := fun o d => o = u ∧ d = m)
      fun o ho => hnot o (Instruction.payee_eq ho)
    unfold World.wallet
    exact le_antisymm hge hle
  · cases hk : ix.staker with
    | none => exact staked_congr (htouch.stakes_eq hw hw' hk)
    | some k =>
        obtain ⟨P, hP⟩ := Instruction.pool_of_staker h hk
        have hadd := htouch.staked_add (u := u) (m := m) hw hw' hk hP
        have hcase : ¬ (ix.caller = u ∧ P.stakeMint = m) := fun hc => hne hc.1
        rw [if_neg hcase, if_neg hcase, add_zero, add_zero] at hadd
        exact hadd

theorem Instruction.quiet_kept (hw : w.Sound env.rt)
    (hsign : ∀ key ∈ env.signers, env.rt.signable key = true) (hpayer : ix.payer = none)
    (hpayee : ix.payee = none) (hstaker : ix.staker = none) (h : ix.handle env w = .ok w') :
    w'.wallet u m = w.wallet u m ∧ w'.staked u m = w.staked u m := by
  have hw' := hw.handle hsign h
  have htouch := hw.touches hsign h
  constructor
  · have hle := htouch.flows.held_le (c := fun o d => o = u ∧ d = m) (by simp [hpayer])
    have hge := htouch.flows.held_ge (c := fun o d => o = u ∧ d = m) (by simp [hpayee])
    unfold World.wallet
    exact le_antisymm hge hle
  · exact staked_congr (htouch.stakes_eq hw hw' hstaker)

theorem Stake.wealth {ctx : Stake} {amount : U64} (hw : w.Sound env.rt)
    (hsign : ∀ key ∈ env.signers, env.rt.signable key = true) (hu : env.rt.signable u = true)
    (h : Instruction.handle env w (.stake ctx amount) = .ok w') :
    w'.wallet u m + w'.staked u m = w.wallet u m + w.staked u m := by
  have hw' := hw.handle hsign h
  have htouch := hw.touches hsign h
  have hne := htouch.pool_ne hw' hu
  obtain ⟨P, a, bump, P', a', tokens, lamports, hloads, -, hstake, htransfer, rfl⟩ :=
    Stake.handler_eq_ok_iff.mp h
  obtain ⟨x, hx, hxowner, -⟩ := hloads.user
  obtain ⟨y, hy, howner, hmint⟩ := (hw.pool hloads.pool).vault_held
  rw [← hloads.vault_eq] at hy
  have hauth : x.owner ≠ y.owner := by
    rw [hxowner, howner]
    exact (hw.pool hloads.pool).unsignable (hsign _ hloads.signed)
  have hwallet := transfer_wallet (u := u) (m := m)
    ((((w.putPool ctx.pool P').putStaker ctx.staker a').putTokens tokens).putLamports lamports)
    htransfer hx hy hauth
  have hstaked := htouch.staked_add (u := u) (m := m) hw hw' (k := ctx.staker) rfl hloads.pool
  have hbefore : w.stakeAt ctx.staker = a.stakedAmount.val := by
    rcases hloads.staker with hk | ⟨hk, -, rfl⟩
    · rw [World.stakeAt, hk]
      rfl
    · rw [World.stakeAt, hk]
      rfl
  have hafter : ((((w.putPool ctx.pool P').putStaker ctx.staker a').putTokens
      tokens).putLamports lamports).stakeAt ctx.staker = a.stakedAmount.val + amount.val := by
    obtain ⟨-, -, _, a₁, staked, _, -, he, hst, -, -, rfl⟩ := stake_eq_ok_iff.mp hstake
    rw [settleEntries_staked he, StakerAccount.opened_staked] at hst
    simp [World.stakeAt, World.putLamports, World.putTokens, World.putStaker, hst]
  have hpaid : ¬ (y.owner = u ∧ y.mint = m) := fun hc => hne (hc.1.symm.trans howner)
  rw [if_neg hpaid, hxowner, hmint] at hwallet
  rw [hbefore, hafter] at hstaked
  by_cases hmine : ctx.owner = u ∧ P.stakeMint = m
  · rw [if_pos hmine] at hwallet
    rw [Instruction.caller, if_pos hmine, if_pos hmine] at hstaked
    omega
  · rw [if_neg hmine] at hwallet
    rw [Instruction.caller, if_neg hmine, if_neg hmine] at hstaked
    omega

theorem Unstake.wealth {ctx : Unstake} {ix : Instruction} {amount : U64} {P P' : Pool}
    {a a' : StakerAccount} {tokens : Tokens} (hw : w.Sound env.rt)
    (hsign : ∀ key ∈ env.signers, env.rt.signable key = true) (hu : env.rt.signable u = true)
    (hcaller : ix.caller = ctx.owner) (hstaker : ix.staker = some ctx.staker)
    (hpool : ix.pool = ctx.pool)
    (h : ix.handle env w = .ok (((w.putPool ctx.pool P').putStaker ctx.staker a').putTokens tokens))
    (hloads : ctx.Loads env w P a)
    (htransfer : env.rt.transfer w.tokens ctx.stakeVault ctx.userTokenAccount ctx.pool amount =
      .ok tokens) (hst : a'.stakedAmount.val + amount.val = a.stakedAmount.val) :
    (((w.putPool ctx.pool P').putStaker ctx.staker a').putTokens tokens).wallet u m +
        (((w.putPool ctx.pool P').putStaker ctx.staker a').putTokens tokens).staked u m =
      w.wallet u m + w.staked u m := by
  have hw' := hw.handle hsign h
  have htouch := hw.touches hsign h
  have hne := htouch.pool_ne hw' hu
  obtain ⟨x, hx, hxowner, -⟩ := hloads.vault_held hw
  obtain ⟨y, hy, howner, hmint⟩ := hloads.user
  have hauth : x.owner ≠ y.owner := by
    rw [hxowner, howner]
    exact ((hw.pool hloads.pool).unsignable (hsign _ hloads.signed)).symm
  have hwallet := transfer_wallet (u := u) (m := m)
    (((w.putPool ctx.pool P').putStaker ctx.staker a').putTokens tokens) htransfer hx hy hauth
  have hP : w.pools ix.pool = some P := by
    rw [hpool]
    exact hloads.pool
  have hstaked := htouch.staked_add (u := u) (m := m) hw hw' hstaker hP
  have hbefore : w.stakeAt ctx.staker = a.stakedAmount.val := by
    rw [World.stakeAt, hloads.staker]
    rfl
  have hafter : (((w.putPool ctx.pool P').putStaker ctx.staker a').putTokens tokens).stakeAt
      ctx.staker = a'.stakedAmount.val := by
    simp [World.stakeAt, World.putTokens, World.putStaker]
  have hpays : ¬ (ctx.pool = u ∧ y.mint = m) := fun hc => hne (hc.1.symm.trans hpool.symm)
  rw [hxowner, if_neg hpays, howner, hmint, hloads.mint_eq] at hwallet
  rw [hbefore, hafter, hcaller] at hstaked
  by_cases hmine : ctx.owner = u ∧ P.stakeMint = m
  · rw [if_pos hmine] at hwallet
    rw [if_pos hmine, if_pos hmine] at hstaked
    omega
  · rw [if_neg hmine] at hwallet
    rw [if_neg hmine, if_neg hmine] at hstaked
    omega

theorem DepositRewards.wealth {ctx : DepositRewards} {amount : U64} (hw : w.Sound env.rt)
    (hsign : ∀ key ∈ env.signers, env.rt.signable key = true) (hu : env.rt.signable u = true)
    (h : Instruction.handle env w (.depositRewards ctx amount) = .ok w') :
    w'.wallet u m + (if ctx.keeper = u ∧ ctx.rewardMint = m then amount.val else 0) =
      w.wallet u m ∧
      w'.staked u m = w.staked u m := by
  have hw' := hw.handle hsign h
  have htouch := hw.touches hsign h
  have hne := htouch.pool_ne hw' hu
  refine ⟨?_, staked_congr (htouch.stakes_eq hw hw' rfl)⟩
  obtain ⟨P, vault, tokens, _, received, P', hloads, -, htransfer, -, -, hdeposit, rfl⟩ :=
    DepositRewards.handler_eq_ok_iff.mp h
  obtain ⟨-, -, -, -, howner⟩ := hloads.held_by_pool hw hdeposit
  obtain ⟨x, hx, hxowner, -⟩ := hloads.keeper
  have hauth : x.owner ≠ vault.owner := by
    rw [hxowner, howner]
    exact (hw.pool hloads.pool).unsignable (hsign _ hloads.signed)
  have hwallet := transfer_wallet (u := u) (m := m) ((w.putPool ctx.pool P').putTokens tokens)
    htransfer hx hloads.held hauth
  have hpaid : ¬ (vault.owner = u ∧ vault.mint = m) := fun hc => hne (hc.1.symm.trans howner)
  rw [if_neg hpaid, hxowner, hloads.vault_mint, add_zero] at hwallet
  exact hwallet

theorem Claim.wealth {ctx : Claim} (hw : w.Sound env.rt)
    (hsign : ∀ key ∈ env.signers, env.rt.signable key = true) (hu : env.rt.signable u = true)
    (h : Instruction.handle env w (.claim ctx) = .ok w') :
    w'.wallet u m = w.wallet u m + (if ctx.owner = u then w.payout env.now ctx m else 0) ∧
      w'.staked u m = w.staked u m := by
  have hw' := hw.handle hsign h
  have htouch := hw.touches hsign h
  have hne := htouch.pool_ne hw' hu
  obtain ⟨P, a, P', a₁, a', tokens, hloads, hset, -, hloop, rfl⟩ := Claim.handler_eq_ok_iff.mp h
  have hplaced := hw.pool hloads.pool
  have hcount : ∀ d, ¬ (ctx.pool = u ∧ d = m) := fun d hc => hne hc.1.symm
  obtain ⟨paid, htake, hheld⟩ := Claim.loop_held (c := fun o d => o = u ∧ d = m)
    (hplaced.unsignable (hsign _ hloads.signed)) hcount (hloads.paidFrom hw hset).2 hloop
  constructor
  · have hpayout : w.payout env.now ctx m =
        (paid.map fun e => if (P'.rewards e.1).mint = m then e.2.val else 0).sum := by
      simp only [World.payout, hloads.pool, hloads.staker, hset, htake]
    have hsum : (paid.map fun e =>
        if ctx.owner = u ∧ (P'.rewards e.1).mint = m then e.2.val else 0).sum =
          if ctx.owner = u then w.payout env.now ctx m else 0 := by
      rw [hpayout]
      by_cases hmine : ctx.owner = u
      · simp only [hmine, true_and, if_true]
      · simp [hmine]
    rw [hsum] at hheld
    unfold World.wallet
    exact hheld
  · have hadd := htouch.staked_add (u := u) (m := m) hw hw' (k := ctx.staker) rfl hloads.pool
    have hbefore : w.stakeAt ctx.staker = a.stakedAmount.val := by
      rw [World.stakeAt, hloads.staker]
      rfl
    have hafter : (((w.putPool ctx.pool P').putStaker ctx.staker a').putTokens tokens).stakeAt
        ctx.staker = a.stakedAmount.val := by
      simp [World.stakeAt, World.putTokens, World.putStaker, claimTakeAll_staked htake,
        settleEntries_staked (claimSettleAll_eq_ok_iff.mp hset).2]
    rw [hbefore, hafter] at hadd
    omega

/-- What one transaction does to what `u` has. -/
theorem World.Sound.wealth_add {rt : Runtime} {tx : Tx} (hw : w.Sound rt)
    (hu : rt.signable u = true) (h : w.step rt tx = .ok w') :
    w'.wallet u m + w'.staked u m + Event.spends u m (.tx tx) =
      w.wallet u m + w.staked u m + w.earns u m (.tx tx) := by
  obtain ⟨-, hsign, t, ht, rfl⟩ := World.step_eq_ok_iff.mp h
  have hw : w.Sound (tx.env rt).rt := hw
  have hwallet : World.wallet u m { t with clock := tx.now } = t.wallet u m := wallet_congr rfl
  have hstaked : World.staked u m { t with clock := tx.now } = t.staked u m := staked_congr rfl
  rw [hwallet, hstaked]
  have hquiet : tx.instruction.payer = none → tx.instruction.payee = none →
      tx.instruction.staker = none →
      t.wallet u m + t.staked u m = w.wallet u m + w.staked u m := by
    intro hpayer hpayee hstaker
    obtain ⟨hwallet, hstaked⟩ :=
      Instruction.quiet_kept (u := u) (m := m) hw hsign hpayer hpayee hstaker ht
    rw [hwallet, hstaked]
  cases hix : tx.instruction with
  | stake ctx amount =>
      rw [hix] at ht
      simp only [Event.spends, World.earns, hix, add_zero]
      exact Stake.wealth hw hsign hu ht
  | unstake ctx amount =>
      rw [hix] at ht
      simp only [Event.spends, World.earns, hix, add_zero]
      obtain ⟨P, a, P', a', tokens, hloads, hunstake, htransfer, rfl⟩ :=
        Unstake.handler_eq_ok_iff.mp ht
      obtain ⟨-, hle, _, a₁, staked, _, -, he, ⟨-, hst⟩, -, -, rfl⟩ :=
        unstake_eq_ok_iff.mp hunstake
      have hsum : staked.val + amount.val = a.stakedAmount.val := by
        rw [hst, settleEntries_staked he, Nat.sub_add_cancel hle]
      exact Unstake.wealth hw hsign hu rfl rfl rfl ht hloads htransfer hsum
  | emergencyWithdraw ctx =>
      rw [hix] at ht
      simp only [Event.spends, World.earns, hix, add_zero]
      obtain ⟨P, a, P', a', tokens, hloads, -, hexit, htransfer, rfl⟩ :=
        EmergencyWithdraw.handler_eq_ok_iff.mp ht
      have hst : a'.stakedAmount.val + a.stakedAmount.val = a.stakedAmount.val := by
        simp only [emergencyWithdraw, Except.ok.injEq, Prod.mk.injEq] at hexit
        rw [← hexit.2.1]
        exact Nat.zero_add _
      exact Unstake.wealth hw hsign hu rfl rfl rfl ht hloads htransfer hst
  | depositRewards ctx amount =>
      rw [hix] at ht
      obtain ⟨hwallet, hstaked⟩ := DepositRewards.wealth (m := m) hw hsign hu ht
      simp only [Event.spends, World.earns, hix, add_zero]
      rw [hstaked, add_right_comm, hwallet]
  | claim ctx =>
      rw [hix] at ht
      obtain ⟨hwallet, hstaked⟩ := Claim.wealth (m := m) hw hsign hu ht
      simp only [Event.spends, World.earns, hix, add_zero]
      rw [hstaked, hwallet, add_right_comm]
      rfl
  | initializePool _ _ _ | addReward _ _ | setRewardActive _ _ _ | setPaused _ _
  | setKeeperAuthority _ _ | setAdmin _ _ | setDuration _ _ _ =>
      rw [hix] at hquiet
      simp only [Event.spends, World.earns, hix, add_zero]
      exact hquiet rfl rfl rfl

end Wealth
end MmStaking
