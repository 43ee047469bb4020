import MmStaking.Refine.Placed

/-! What one transaction touches: the pool it is about, at most one staker account, which is
the caller's, and tokens that move between the caller and the pool. -/
namespace MmStaking
open Words Loops Runs Custody

/-- Who has to sign. -/
def Instruction.caller : Instruction → Pubkey
  | .initializePool ctx _ _ => ctx.admin
  | .addReward ctx _ => ctx.admin
  | .setRewardActive ctx _ _ => ctx.admin
  | .stake ctx _ => ctx.owner
  | .unstake ctx _ => ctx.owner
  | .depositRewards ctx _ => ctx.keeper
  | .claim ctx => ctx.owner
  | .emergencyWithdraw ctx => ctx.owner
  | .setPaused ctx _ => ctx.admin
  | .setKeeperAuthority ctx _ => ctx.admin
  | .setAdmin ctx _ => ctx.admin
  | .setDuration ctx _ _ => ctx.admin

/-- The staker account an instruction writes. -/
def Instruction.staker : Instruction → Option Pubkey
  | .stake ctx _ => some ctx.staker
  | .unstake ctx _ | .claim ctx | .emergencyWithdraw ctx => some ctx.staker
  | .initializePool _ _ _ | .addReward _ _ | .setRewardActive _ _ _ | .depositRewards _ _
  | .setPaused _ _ | .setKeeperAuthority _ _ | .setAdmin _ _ | .setDuration _ _ _ => none

/-- Whose token accounts pay. -/
def Instruction.payer : Instruction → Option Pubkey
  | .stake ctx _ => some ctx.owner
  | .depositRewards ctx _ => some ctx.keeper
  | .unstake ctx _ => some ctx.pool
  | .claim ctx => some ctx.pool
  | .emergencyWithdraw ctx => some ctx.pool
  | .initializePool _ _ _ | .addReward _ _ | .setRewardActive _ _ _ | .setPaused _ _
  | .setKeeperAuthority _ _ | .setAdmin _ _ | .setDuration _ _ _ => none

/-- Whose token accounts are paid. -/
def Instruction.payee : Instruction → Option Pubkey
  | .stake ctx _ => some ctx.pool
  | .depositRewards ctx _ => some ctx.pool
  | .unstake ctx _ => some ctx.owner
  | .claim ctx => some ctx.owner
  | .emergencyWithdraw ctx => some ctx.owner
  | .initializePool _ _ _ | .addReward _ _ | .setRewardActive _ _ _ | .setPaused _ _
  | .setKeeperAuthority _ _ | .setAdmin _ _ | .setDuration _ _ _ => none

theorem Instruction.payer_eq {ix : Instruction} {u : Pubkey} (h : ix.payer = some u) :
    u = ix.caller ∨ u = ix.pool := by
  cases ix <;> simp_all [payer, caller, pool]

theorem Instruction.payee_eq {ix : Instruction} {u : Pubkey} (h : ix.payee = some u) :
    u = ix.caller ∨ u = ix.pool := by
  cases ix <;> simp_all [payee, caller, pool]

/-- The token account an instruction opens, by its seeds, and its mint. -/
def Instruction.opening : Instruction → Option (Seeds × Pubkey)
  | .initializePool ctx _ _ => some (.stakeVault ctx.pool, ctx.stakeMint)
  | .addReward ctx _ => some (.rewardVault ctx.pool ctx.rewardMint, ctx.rewardMint)
  | .setRewardActive _ _ _ | .stake _ _ | .unstake _ _ | .depositRewards _ _ | .claim _
  | .emergencyWithdraw _ | .setPaused _ _ | .setKeeperAuthority _ _ | .setAdmin _ _
  | .setDuration _ _ _ => none

/-- Tokens move from payer to payee, or a token account of the pool is opened at a derived
address that was free. -/
def Instruction.Flows (rt : Runtime) (ix : Instruction) (tokens tokens' : Tokens) : Prop :=
  Moves {u | ix.payer = some u} {u | ix.payee = some u} (custody tokens) (custody tokens') ∨
    ∃ seeds bump key mint, (ix.opening = some (seeds, mint) ∧ rt.find seeds = some (key, bump)) ∧
      tokens key = none ∧ tokens' = Function.update tokens key (some (.opened mint ix.pool))

/-- A staker account of the caller in the pool of the instruction. -/
def Instruction.Owns (ix : Instruction) (a : StakerAccount) : Prop :=
  a.owner = ix.caller ∧ a.pool = ix.pool

structure Instruction.Touches (env : Env) (ix : Instruction) (w w' : World) : Prop where
  signed : ix.caller ∈ env.signers
  pool : ∃ P', w'.pools = Function.update w.pools ix.pool (some P')
  stakers : ∀ k, ix.staker ≠ some k → w'.stakers k = w.stakers k
  staker : ∀ k, ix.staker = some k →
    (∀ a, w.stakers k = some a → ix.Owns a) ∧ ∃ a', w'.stakers k = some a' ∧ ix.Owns a'
  flows : ix.Flows env.rt w.tokens w'.tokens
  mints : w'.mints = w.mints

section Touches
variable {env : Env} {w w' : World}

theorem AdminOnly.touches {ctx : AdminOnly} {logic : Pool → Result Pool} {ix : Instruction}
    (hcaller : ix.caller = ctx.admin) (hpool : ix.pool = ctx.pool) (hstaker : ix.staker = none)
    (h : ctx.run env w logic = .ok w') : ix.Touches env w w' := by
  obtain ⟨hsigned, P, P', -, -, -, -, rfl⟩ := AdminOnly.run_eq_ok_iff.mp h
  refine ⟨hcaller ▸ hsigned, ⟨P', by rw [hpool]; rfl⟩, fun _ _ => rfl, ?_, .inl .refl, rfl⟩
  intro k hk
  rw [hstaker] at hk
  cases hk

theorem touches_putBoth {ix : Instruction} {k : Pubkey} {P' : Pool} {a' : StakerAccount}
    {tokens : Tokens} (hsigned : ix.caller ∈ env.signers) (hstaker : ix.staker = some k)
    (hold : ∀ a, w.stakers k = some a → ix.Owns a) (hnew : ix.Owns a')
    (hflows : ix.Flows env.rt w.tokens tokens) :
    ix.Touches env w (((w.putPool ix.pool P').putStaker k a').putTokens tokens) := by
  refine ⟨hsigned, ⟨P', rfl⟩, ?_, ?_, hflows, rfl⟩
  · intro j hj
    have hne : j ≠ k := by
      rintro rfl
      exact hj hstaker
    simp [World.putTokens, World.putStaker, World.putPool, hne]
  · intro j hj
    obtain rfl : k = j := Option.some.inj (hstaker.symm.trans hj)
    refine ⟨hold, a', ?_, hnew⟩
    simp [World.putTokens, World.putStaker]

theorem Instruction.Touches.putLamports {ix : Instruction} (h : ix.Touches env w w')
    (lamports : Lamports) : ix.Touches env w (w'.putLamports lamports) :=
  ⟨h.signed, h.pool, h.stakers, h.staker, h.flows, h.mints⟩

theorem Instruction.flows_of_moves {ix : Instruction} {A B : Pubkey} {tokens tokens' : Tokens}
    (hpayer : ix.payer = some A) (hpayee : ix.payee = some B)
    (h : Moves {A} {B} (custody tokens) (custody tokens')) : ix.Flows env.rt tokens tokens' := by
  refine .inl (h.mono ?_ ?_)
  · rintro _ rfl
    exact hpayer
  · rintro _ rfl
    exact hpayee

theorem Unstake.Loads.vault_held (hw : w.Sound env.rt) {ctx : Unstake} {P : Pool}
    {a : StakerAccount} (h : ctx.Loads env w P a) :
    ∃ x, w.tokens ctx.stakeVault = some x ∧ x.owner = ctx.pool ∧ x.mint = P.stakeMint := by
  rw [h.vault_eq]
  exact (hw.pool h.pool).vault_held

theorem DepositRewards.Loads.held_by_pool (hw : w.Sound env.rt) {ctx : DepositRewards}
    {P P' : Pool} {vault : Holding} {received : U64} (h : ctx.Loads env w P vault)
    (hdeposit : depositRewards P ctx.rewardMint received env.now = .ok P') :
    ∃ i, findSlot P ctx.rewardMint = some i ∧ P.Registered i ∧
      (P.rewards i).vault = ctx.rewardVault ∧ vault.owner = ctx.pool := by
  obtain ⟨i, hi, hvault⟩ := h.slot
  obtain ⟨j, hj, hactive, -⟩ := depositRewards_eq_ok_iff.mp hdeposit
  obtain rfl : i = j := Option.some.inj (hi.symm.trans hj)
  have hreg := registered_of_active (hw.empty h.pool) hactive
  obtain ⟨x, hx, howner, -⟩ := (hw.pool h.pool).reward_held i hreg
  rw [hvault] at hx
  obtain rfl : vault = x := Option.some.inj (h.held.symm.trans hx)
  exact ⟨i, hi, hreg, hvault, howner⟩

/-- The one inversion of all handlers. -/
theorem World.Sound.touches (hw : w.Sound env.rt)
    (hsign : ∀ key ∈ env.signers, env.rt.signable key = true) {ix : Instruction}
    (h : ix.handle env w = .ok w') : ix.Touches env w w' := by
  cases ix with
  | initializePool ctx d keeper =>
      obtain ⟨hsigned, -, bump, vaultBump, pool, _, -, -, hvault, hvacant, -, -, rfl⟩ :=
        InitializePool.handler_eq_ok_iff.mp h
      obtain ⟨-, -, htoken, -⟩ := World.vacant_iff.mp hvacant
      refine ⟨hsigned, ⟨pool, rfl⟩, fun _ _ => rfl, ?_, ?_, rfl⟩
      · intro k hk
        cases hk
      · exact .inr ⟨_, _, _, _, ⟨rfl, hvault⟩, htoken, rfl⟩
  | addReward ctx d =>
      obtain ⟨hsigned, -, P, P', bump, _, -, -, -, hfound, hvacant, -, -, rfl⟩ :=
        AddReward.handler_eq_ok_iff.mp h
      obtain ⟨-, -, htoken, -⟩ := World.vacant_iff.mp hvacant
      refine ⟨hsigned, ⟨P', rfl⟩, fun _ _ => rfl, ?_, ?_, rfl⟩
      · intro k hk
        cases hk
      · exact .inr ⟨_, _, _, _, ⟨rfl, hfound⟩, htoken, rfl⟩
  | setRewardActive ctx slot active => exact AdminOnly.touches rfl rfl rfl h
  | setPaused ctx paused => exact AdminOnly.touches rfl rfl rfl h
  | setKeeperAuthority ctx keeper => exact AdminOnly.touches rfl rfl rfl h
  | setAdmin ctx newAdmin => exact AdminOnly.touches rfl rfl rfl h
  | setDuration ctx slot d => exact AdminOnly.touches rfl rfl rfl h
  | stake ctx amount =>
      obtain ⟨P, a, bump, P', a', tokens, _, hloads, -, hstake, htransfer, rfl⟩ :=
        Stake.handler_eq_ok_iff.mp h
      obtain ⟨-, hpool, howner⟩ := hloads.placed hw hsign
      have hidentity := (stake_keeps hstake).2
      simp only [StakerAccount.identity, Prod.mk.injEq] at hidentity
      obtain ⟨x, hx, hxo, -⟩ := hloads.user
      obtain ⟨y, hy, hyo, -⟩ := (hw.pool hloads.pool).vault_held
      rw [← hloads.vault_eq] at hy
      refine Instruction.Touches.putLamports ?_ _
      refine touches_putBoth (k := ctx.staker) hloads.signed rfl ?_ ?_ ?_
      · intro b hb
        exact (hw.staker_pool hb (Pda.create_of_find hloads.found)).symm
      · exact ⟨hidentity.1.trans howner, hidentity.2.1.trans hpool⟩
      · have hmoves := transfer_moves htransfer hx hy
        rw [hxo, hyo] at hmoves
        exact Instruction.flows_of_moves rfl rfl hmoves
  | unstake ctx amount =>
      obtain ⟨P, a, P', a', tokens, hloads, hunstake, htransfer, rfl⟩ :=
        Unstake.handler_eq_ok_iff.mp h
      have hidentity := (unstake_keeps hunstake).2
      simp only [StakerAccount.identity, Prod.mk.injEq] at hidentity
      have hown : ∀ b, w.stakers ctx.staker = some b →
          Instruction.Owns (.unstake ctx amount) b := by
        intro b hb
        exact (hw.staker_pool hb hloads.derived_staker).symm
      obtain ⟨howner, hpool⟩ := hown a hloads.staker
      obtain ⟨x, hx, hxo, -⟩ := hloads.vault_held hw
      obtain ⟨y, hy, hyo, -⟩ := hloads.user
      refine touches_putBoth (k := ctx.staker) hloads.signed rfl hown ?_ ?_
      · exact ⟨hidentity.1.trans howner, hidentity.2.1.trans hpool⟩
      · have hmoves := transfer_moves htransfer hx hy
        rw [hxo, hyo] at hmoves
        exact Instruction.flows_of_moves rfl rfl hmoves
  | emergencyWithdraw ctx =>
      obtain ⟨P, a, P', a', tokens, hloads, -, hexit, htransfer, rfl⟩ :=
        EmergencyWithdraw.handler_eq_ok_iff.mp h
      have hidentity := (emergencyWithdraw_keeps hexit).2
      simp only [StakerAccount.identity, Prod.mk.injEq] at hidentity
      have hown : ∀ b, w.stakers ctx.staker = some b →
          Instruction.Owns (.emergencyWithdraw ctx) b := by
        intro b hb
        exact (hw.staker_pool hb hloads.derived_staker).symm
      obtain ⟨howner, hpool⟩ := hown a hloads.staker
      obtain ⟨x, hx, hxo, -⟩ := hloads.vault_held hw
      obtain ⟨y, hy, hyo, -⟩ := hloads.user
      refine touches_putBoth (k := ctx.staker) hloads.signed rfl hown ?_ ?_
      · exact ⟨hidentity.1.trans howner, hidentity.2.1.trans hpool⟩
      · have hmoves := transfer_moves htransfer hx hy
        rw [hxo, hyo] at hmoves
        exact Instruction.flows_of_moves rfl rfl hmoves
  | depositRewards ctx amount =>
      obtain ⟨P, vault, tokens, _, received, P', hloads, -, htransfer, -, -, hdeposit, rfl⟩ :=
        DepositRewards.handler_eq_ok_iff.mp h
      obtain ⟨-, -, -, -, howner⟩ := hloads.held_by_pool hw hdeposit
      obtain ⟨x, hx, hxo, -⟩ := hloads.keeper
      refine ⟨hloads.signed, ⟨P', rfl⟩, fun _ _ => rfl, ?_, ?_, rfl⟩
      · intro k hk
        cases hk
      · have hmoves := transfer_moves htransfer hx hloads.held
        rw [hxo, howner] at hmoves
        exact Instruction.flows_of_moves rfl rfl hmoves
  | claim ctx =>
      obtain ⟨P, a, P', a₁, a', tokens, hloads, hset, -, hloop, rfl⟩ :=
        Claim.handler_eq_ok_iff.mp h
      obtain ⟨-, he⟩ := claimSettleAll_eq_ok_iff.mp hset
      obtain ⟨hidentity, hmoves⟩ := Claim.loop_moves (hloads.paidFrom hw hset).2 hloop
      have hidentity := hidentity.trans (settleEntries_identity he)
      simp only [StakerAccount.identity, Prod.mk.injEq] at hidentity
      have hown : ∀ b, w.stakers ctx.staker = some b → Instruction.Owns (.claim ctx) b := by
        intro b hb
        exact (hw.staker_pool hb hloads.derived_staker).symm
      obtain ⟨howner, hpool⟩ := hown a hloads.staker
      refine touches_putBoth (k := ctx.staker) hloads.signed rfl hown ?_ ?_
      · exact ⟨hidentity.1.trans howner, hidentity.2.1.trans hpool⟩
      · exact Instruction.flows_of_moves rfl rfl hmoves

theorem World.Sound.step_touches {rt : Runtime} {tx : Tx} (hw : w.Sound rt)
    (h : w.step rt tx = .ok w') : tx.instruction.Touches (tx.env rt) w w' := by
  obtain ⟨-, hsign, t, ht, rfl⟩ := World.step_eq_ok_iff.mp h
  have hw : w.Sound (tx.env rt).rt := hw
  have htouch := hw.touches hsign ht
  exact ⟨htouch.signed, htouch.pool, htouch.stakers, htouch.staker, htouch.flows, htouch.mints⟩

end Touches
end MmStaking
