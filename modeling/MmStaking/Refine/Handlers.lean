import MmStaking.Program.Handlers
import MmStaking.Refine.Calls

/-! What each handler checks and does when it succeeds, with its logic and its transfer kept
folded. -/
namespace MmStaking
open Words Loops

section Checks
variable {env : Env} {w w' : World} {key payer mint authority : Pubkey} {seeds : Seeds}
  {bump : U8} {u : Unit}

@[simp] theorem ofLogic_eq_ok_iff {α : Type} {x : Result α} {a : α} :
    ofLogic x = .ok a ↔ x = .ok a := by
  cases x <;> simp [ofLogic]

@[simp] theorem ensure_eq_ok_iff {c : Prop} [Decidable c] {e : TxError} :
    ensure c e = .ok u ↔ c := by
  simp [ensure]

@[simp] theorem loaded_eq_ok_iff {α : Type} {o : Option α} {a : α} :
    loaded o = .ok a ↔ o = some a := by
  cases o <;> simp [loaded]

@[simp] theorem signer_eq_ok_iff : signer env key = .ok u ↔ key ∈ env.signers := by
  simp [signer]

@[simp] theorem loadMint_eq_ok_iff : loadMint w key = .ok u ↔ w.mints key = true := by
  simp [loadMint]

@[simp] theorem seedsMatch_eq_ok_iff :
    seedsMatch env seeds bump key = .ok u ↔ env.rt.create seeds bump = some key := by
  simp [seedsMatch]

@[simp] theorem seedsFound_eq_ok_iff :
    seedsFound env seeds key = .ok bump ↔ env.rt.find seeds = some (key, bump) := by
  unfold seedsFound
  cases hfind : env.rt.find seeds with
  | none => simp
  | some found =>
      obtain ⟨key', bump'⟩ := found
      by_cases h : key' = key <;> simp [h]

theorem createAccount_eq_ok_iff : createAccount env w payer seeds key = .ok w' ↔
    w.vacant key = true ∧ ∃ lamports,
      env.rt.payRent w.lamports payer seeds key = some lamports ∧
        w' = w.putLamports lamports := by
  simp only [createAccount, bind_eq_ok_iff, ensure_eq_ok_iff]
  cases hpay : env.rt.payRent w.lamports payer seeds key with
  | none => simp
  | some lamports =>
      simp only [Except.ok.injEq, Option.some.injEq, exists_eq_left', exists_const, eq_comm]

theorem initAt_eq_ok_iff : initAt env w payer seeds key = .ok (bump, w') ↔
    env.rt.find seeds = some (key, bump) ∧ w.vacant key = true ∧ ∃ lamports,
      env.rt.payRent w.lamports payer seeds key = some lamports ∧
        w' = w.putLamports lamports := by
  simp only [initAt, bind_eq_ok_iff, seedsFound_eq_ok_iff, createAccount_eq_ok_iff,
    pure_eq_ok_iff, Prod.mk.injEq]
  constructor
  · rintro ⟨_, hfind, _, ⟨hvacant, lamports, hpay, hput⟩, rfl, rfl⟩
    exact ⟨hfind, hvacant, lamports, hpay, hput⟩
  · rintro ⟨hfind, hvacant, lamports, hpay, hput⟩
    exact ⟨bump, hfind, w', ⟨hvacant, lamports, hpay, hput⟩, rfl, rfl⟩

@[simp] theorem tokenMatches_eq_ok_iff {holding : Holding} :
    tokenMatches holding mint authority = .ok u ↔
      holding.owner = authority ∧ holding.mint = mint := by
  simp [tokenMatches]

theorem Pda.create_of_find {pda : Pda} (h : pda.find seeds = some (key, bump)) :
    pda.create seeds bump = some key := by
  obtain ⟨n, -, hn⟩ := List.exists_of_findSome?_eq_some h
  simp only [Option.map_eq_some_iff, Prod.mk.injEq] at hn
  obtain ⟨key', hkey, rfl, rfl⟩ := hn
  exact hkey

theorem World.vacant_iff : w.vacant key = true ↔
    w.pools key = none ∧ w.stakers key = none ∧ w.tokens key = none ∧ w.mints key = false := by
  simp [World.vacant, and_assoc]

theorem stakerOrInit_eq_ok_iff {staker : StakerAccount} :
    stakerOrInit env w payer seeds key = .ok (staker, w') ↔
      (w.stakers key = some staker ∧ w' = w) ∨
        w.stakers key = none ∧ staker = .zeroed ∧
          createAccount env w payer seeds key = .ok w' := by
  unfold stakerOrInit
  cases h : w.stakers key with
  | none =>
      simp only [bind_eq_ok_iff, pure_eq_ok_iff, Prod.mk.injEq, reduceCtorEq, false_and, false_or,
        true_and]
      constructor
      · rintro ⟨_, hcreate, rfl, rfl⟩
        exact ⟨rfl, hcreate⟩
      · rintro ⟨rfl, hcreate⟩
        exact ⟨w', hcreate, rfl, rfl⟩
  | some found => simp [eq_comm (a := w')]

theorem findRewardVault_eq_ok_iff {pool : Pool} {vault : Pubkey} :
    findRewardVault pool mint = .ok vault ↔
      ∃ i, findSlot pool mint = some i ∧ (pool.rewards i).vault = vault := by
  simp only [findRewardVault, bind_eq_ok_iff, okOr_eq_ok_iff, pure_eq_ok_iff]

end Checks

section Transfer
variable {env : Env} {tokens tokens' : Tokens} {source dest authority : Pubkey} {amount : U64}

theorem transferTokens_eq_ok_iff :
    transferTokens env tokens source dest authority amount = .ok tokens' ↔
      env.rt.transfer tokens source dest authority amount = .ok tokens' := by
  unfold transferTokens
  cases env.rt.transfer tokens source dest authority amount <;> simp [Except.mapError]

theorem transferSigned_eq_ok_iff {stakeMint : Pubkey} {bump : U8} :
    transferSigned env tokens source dest authority stakeMint bump amount = .ok tokens' ↔
      env.rt.create (.pool stakeMint) bump = some authority ∧
        env.rt.transfer tokens source dest authority amount = .ok tokens' := by
  simp [transferSigned, transferTokens_eq_ok_iff]

end Transfer

section Handlers
variable {env : Env} {w w' : World}

/-- The admin pays the rent of the pool, and then that of its stake vault. -/
def InitializePool.Pays (rt : Runtime) (w : World) (ctx : InitializePool) (lamports : Lamports) :
    Prop :=
  ∃ between, rt.payRent w.lamports ctx.admin (.pool ctx.stakeMint) ctx.pool = some between ∧
    rt.payRent between ctx.admin (.stakeVault ctx.pool) ctx.stakeVault = some lamports

/-- The admin pays the rent of the vault of the new slot. -/
def AddReward.Pays (rt : Runtime) (w : World) (ctx : AddReward) (lamports : Lamports) : Prop :=
  rt.payRent w.lamports ctx.admin (.rewardVault ctx.pool ctx.rewardMint) ctx.rewardVault =
    some lamports

theorem InitializePool.handler_eq_ok_iff {ctx : InitializePool} {d : I64} {keeper : Pubkey} :
    ctx.handler env w d keeper = .ok w' ↔
      ctx.admin ∈ env.signers ∧ w.mints ctx.stakeMint = true ∧ ∃ bump vaultBump pool lamports,
        env.rt.find (.pool ctx.stakeMint) = some (ctx.pool, bump) ∧ w.vacant ctx.pool = true ∧
        env.rt.find (.stakeVault ctx.pool) = some (ctx.stakeVault, vaultBump) ∧
        (w.putPool ctx.pool .zeroed).vacant ctx.stakeVault = true ∧
        initPool .zeroed ctx.admin keeper ctx.stakeMint ctx.stakeVault d bump = .ok pool ∧
        ctx.Pays env.rt w lamports ∧
        w' = ((w.putPool ctx.pool pool).putToken ctx.stakeVault
          (.opened ctx.stakeMint ctx.pool)).putLamports lamports := by
  simp only [InitializePool.handler, bind_eq_ok_iff, signer_eq_ok_iff, loadMint_eq_ok_iff,
    Prod.exists, initAt_eq_ok_iff, ofLogic_eq_ok_iff, pure_eq_ok_iff, InitializePool.Pays]
  have hput : ∀ l l' pool, (((((w.putLamports l).putPool ctx.pool .zeroed).putLamports l').putToken
      ctx.stakeVault (.opened ctx.stakeMint ctx.pool)).putPool ctx.pool pool) =
        ((w.putPool ctx.pool pool).putToken ctx.stakeVault
          (.opened ctx.stakeMint ctx.pool)).putLamports l' := by
    intro l l' pool
    simp [World.putPool, World.putToken, World.putLamports]
  constructor
  · rintro ⟨-, hsigner, -, hmint, bump, _, ⟨hfind, hvacant, lamports, hpay, rfl⟩, vaultBump, _,
      ⟨hfind', hvacant', lamports', hpay', rfl⟩, pool, hpool, rfl⟩
    exact ⟨hsigner, hmint, bump, vaultBump, pool, lamports', hfind, hvacant, hfind', hvacant',
      hpool, ⟨lamports, hpay, hpay'⟩, hput lamports lamports' pool⟩
  · rintro ⟨hsigner, hmint, bump, vaultBump, pool, lamports', hfind, hvacant, hfind', hvacant',
      hpool, ⟨lamports, hpay, hpay'⟩, rfl⟩
    exact ⟨(), hsigner, (), hmint, bump, _, ⟨hfind, hvacant, lamports, hpay, rfl⟩, vaultBump, _,
      ⟨hfind', hvacant', lamports', hpay', rfl⟩, pool, hpool, hput lamports lamports' pool⟩

theorem AddReward.handler_eq_ok_iff {ctx : AddReward} {d : I64} :
    ctx.handler env w d = .ok w' ↔
      ctx.admin ∈ env.signers ∧ w.mints ctx.rewardMint = true ∧ ∃ P P' bump lamports,
        w.pools ctx.pool = some P ∧ ctx.admin = P.admin ∧
        env.rt.create (.pool P.stakeMint) P.bump = some ctx.pool ∧
        env.rt.find (.rewardVault ctx.pool ctx.rewardMint) = some (ctx.rewardVault, bump) ∧
        w.vacant ctx.rewardVault = true ∧
        addReward P ctx.rewardMint ctx.rewardVault d env.now = .ok P' ∧
        ctx.Pays env.rt w lamports ∧
        w' = ((w.putPool ctx.pool P').putToken ctx.rewardVault
          (.opened ctx.rewardMint ctx.pool)).putLamports lamports := by
  simp only [AddReward.handler, bind_eq_ok_iff, signer_eq_ok_iff, loadMint_eq_ok_iff,
    loaded_eq_ok_iff, Prod.exists, initAt_eq_ok_iff, ofLogic_eq_ok_iff, require_eq_ok_iff,
    seedsMatch_eq_ok_iff, pure_eq_ok_iff]
  constructor
  · rintro ⟨-, hsigner, P, hP, -, hmint, bump, _, ⟨hfind, hvacant, lamports, hpay, rfl⟩, -, hadmin,
      -, hcreate, P', hP', rfl⟩
    exact ⟨hsigner, hmint, P, P', bump, lamports, hP, hadmin, hcreate, hfind, hvacant, hP', hpay,
      rfl⟩
  · rintro ⟨hsigner, hmint, P, P', bump, lamports, hP, hadmin, hcreate, hfind, hvacant, hP', hpay,
      rfl⟩
    exact ⟨(), hsigner, P, hP, (), hmint, bump, _, ⟨hfind, hvacant, lamports, hpay, rfl⟩, (),
      hadmin, (), hcreate, P', hP', rfl⟩

theorem AdminOnly.run_eq_ok_iff {ctx : AdminOnly} {logic : Pool → Result Pool} :
    ctx.run env w logic = .ok w' ↔
      ctx.admin ∈ env.signers ∧ ∃ P P', w.pools ctx.pool = some P ∧ ctx.admin = P.admin ∧
        env.rt.create (.pool P.stakeMint) P.bump = some ctx.pool ∧ logic P = .ok P' ∧
        w' = w.putPool ctx.pool P' := by
  simp only [AdminOnly.run, AdminOnly.tryAccounts, bind_eq_ok_iff, signer_eq_ok_iff,
    loaded_eq_ok_iff, ofLogic_eq_ok_iff, require_eq_ok_iff, seedsMatch_eq_ok_iff, pure_eq_ok_iff]
  constructor
  · rintro ⟨_, ⟨-, hsigner, P, hP, -, hadmin, -, hcreate, rfl⟩, P', hP', rfl⟩
    exact ⟨hsigner, P, P', hP, hadmin, hcreate, hP', rfl⟩
  · rintro ⟨hsigner, P, P', hP, hadmin, hcreate, hP', rfl⟩
    exact ⟨P, ⟨(), hsigner, P, hP, (), hadmin, (), hcreate, rfl⟩, P', hP', rfl⟩

/-- The accounts a stake is made with. -/
structure Stake.Loads (env : Env) (w : World) (ctx : Stake) (P : Pool) (a : StakerAccount)
    (bump : U8) : Prop where
  signed : ctx.owner ∈ env.signers
  pool : w.pools ctx.pool = some P
  mint : w.mints ctx.stakeMint = true
  user : ∃ x, w.tokens ctx.userTokenAccount = some x ∧ x.owner = ctx.owner ∧
    x.mint = ctx.stakeMint
  vault : ∃ y, w.tokens ctx.stakeVault = some y
  found : env.rt.find (.staker ctx.pool ctx.owner) = some (ctx.staker, bump)
  staker : w.stakers ctx.staker = some a ∨
    w.stakers ctx.staker = none ∧ w.vacant ctx.staker = true ∧ a = .zeroed
  derived : env.rt.create (.pool ctx.stakeMint) P.bump = some ctx.pool
  mint_eq : ctx.stakeMint = P.stakeMint
  vault_eq : ctx.stakeVault = P.stakeVault

/-- The owner pays the rent of its staker account when it has none yet. -/
def Stake.Pays (rt : Runtime) (w : World) (ctx : Stake) (lamports : Lamports) : Prop :=
  if w.stakers ctx.staker = none then
    rt.payRent w.lamports ctx.owner (.staker ctx.pool ctx.owner) ctx.staker = some lamports
  else lamports = w.lamports

theorem Stake.opens_iff {ctx : Stake} {a : StakerAccount} :
    stakerOrInit env w ctx.owner (.staker ctx.pool ctx.owner) ctx.staker = .ok (a, w') ↔
      (w.stakers ctx.staker = some a ∨
        w.stakers ctx.staker = none ∧ w.vacant ctx.staker = true ∧ a = .zeroed) ∧
      ∃ lamports, ctx.Pays env.rt w lamports ∧ w' = w.putLamports lamports := by
  rw [stakerOrInit_eq_ok_iff, createAccount_eq_ok_iff]
  unfold Stake.Pays
  constructor
  · rintro (⟨ha, rfl⟩ | ⟨hnone, rfl, hvacant, lamports, hpay, hput⟩)
    · exact ⟨.inl ha, w'.lamports, by simp [ha], rfl⟩
    · exact ⟨.inr ⟨hnone, hvacant, rfl⟩, lamports, by rwa [if_pos hnone], hput⟩
  · rintro ⟨ha | ⟨hnone, hvacant, rfl⟩, lamports, hpay, rfl⟩
    · rw [if_neg (by simp [ha])] at hpay
      exact .inl ⟨ha, by rw [hpay]; rfl⟩
    · rw [if_pos hnone] at hpay
      exact .inr ⟨hnone, rfl, hvacant, lamports, hpay, rfl⟩

theorem Stake.tryAccounts_eq_ok_iff {ctx : Stake} {P : Pool} {a : StakerAccount} {bump : U8} :
    ctx.tryAccounts env w = .ok (P, a, bump, w') ↔ ctx.Loads env w P a bump ∧
      ∃ lamports, ctx.Pays env.rt w lamports ∧ w' = w.putLamports lamports := by
  simp only [Stake.tryAccounts, bind_eq_ok_iff, Prod.exists, signer_eq_ok_iff, loaded_eq_ok_iff,
    loadMint_eq_ok_iff, seedsFound_eq_ok_iff, Stake.opens_iff, seedsMatch_eq_ok_iff,
    ensure_eq_ok_iff, tokenMatches_eq_ok_iff, pure_eq_ok_iff, Prod.mk.injEq]
  constructor
  · rintro ⟨-, hsigned, P, hP, -, hmint, x, hx, y, hy, bump, hfound, a, w₁, ⟨ha, hpays⟩, -,
      hderived, -, hmeq, -, hmatch, -, hveq, rfl, rfl, rfl, rfl⟩
    exact ⟨⟨hsigned, hP, hmint, ⟨x, hx, hmatch⟩, ⟨y, hy⟩, hfound, ha, hderived, hmeq, hveq⟩, hpays⟩
  · rintro ⟨⟨hsigned, hP, hmint, ⟨x, hx, hmatch⟩, ⟨y, hy⟩, hfound, ha, hderived, hmeq, hveq⟩, hpays⟩
    exact ⟨(), hsigned, P, hP, (), hmint, x, hx, y, hy, bump, hfound, a, w', ⟨ha, hpays⟩, (),
      hderived, (), hmeq, (), hmatch, (), hveq, rfl, rfl, rfl, rfl⟩

theorem Stake.handler_eq_ok_iff {ctx : Stake} {amount : U64} :
    ctx.handler env w amount = .ok w' ↔ ∃ P a bump P' a' tokens lamports,
      ctx.Loads env w P a bump ∧ ctx.Pays env.rt w lamports ∧
      stake P a ctx.owner ctx.pool bump amount env.now = .ok (P', a') ∧
      env.rt.transfer w.tokens ctx.userTokenAccount ctx.stakeVault ctx.owner amount =
        .ok tokens ∧
      w' = (((w.putPool ctx.pool P').putStaker ctx.staker a').putTokens tokens).putLamports
        lamports := by
  simp only [Stake.handler, bind_eq_ok_iff, Prod.exists, Stake.tryAccounts_eq_ok_iff,
    ofLogic_eq_ok_iff, require_eq_ok_iff, transferTokens_eq_ok_iff, pure_eq_ok_iff]
  constructor
  · rintro ⟨P, a, bump, _, ⟨hloads, lamports, hpays, rfl⟩, -, -, -, -, P', a', hstake, tokens,
      htransfer, rfl⟩
    exact ⟨P, a, bump, P', a', tokens, lamports, hloads, hpays, hstake, htransfer, rfl⟩
  · rintro ⟨P, a, bump, P', a', tokens, lamports, hloads, hpays, hstake, htransfer, rfl⟩
    obtain ⟨hpos, hpaused, -⟩ := stake_eq_ok_iff.mp hstake
    exact ⟨P, a, bump, _, ⟨hloads, lamports, hpays, rfl⟩, (), hpos, (), hpaused, P', a', hstake,
      tokens, htransfer, rfl⟩

structure Unstake.Loads (env : Env) (w : World) (ctx : Unstake) (P : Pool)
    (a : StakerAccount) : Prop where
  signed : ctx.owner ∈ env.signers
  pool : w.pools ctx.pool = some P
  staker : w.stakers ctx.staker = some a
  mint : w.mints ctx.stakeMint = true
  user : ∃ x, w.tokens ctx.userTokenAccount = some x ∧ x.owner = ctx.owner ∧
    x.mint = ctx.stakeMint
  vault : ∃ y, w.tokens ctx.stakeVault = some y
  derived : env.rt.create (.pool ctx.stakeMint) P.bump = some ctx.pool
  derived_staker : env.rt.create (.staker ctx.pool ctx.owner) a.bump = some ctx.staker
  owner_eq : a.owner = ctx.owner
  mint_eq : ctx.stakeMint = P.stakeMint
  vault_eq : ctx.stakeVault = P.stakeVault

theorem Unstake.tryAccounts_eq_ok_iff {ctx : Unstake} {P : Pool} {a : StakerAccount} :
    ctx.tryAccounts env w = .ok (P, a) ↔ ctx.Loads env w P a := by
  simp only [Unstake.tryAccounts, bind_eq_ok_iff, signer_eq_ok_iff, loaded_eq_ok_iff,
    loadMint_eq_ok_iff, seedsMatch_eq_ok_iff, ofLogic_eq_ok_iff, require_eq_ok_iff,
    ensure_eq_ok_iff, tokenMatches_eq_ok_iff, pure_eq_ok_iff, Prod.mk.injEq]
  constructor
  · rintro ⟨-, hsigned, P, hP, a, ha, -, hmint, x, hx, y, hy, -, hderived, -, hstaker, -, howner, -,
      hmeq, -, hmatch, -, hveq, rfl, rfl⟩
    exact ⟨hsigned, hP, ha, hmint, ⟨x, hx, hmatch⟩, ⟨y, hy⟩, hderived, hstaker, howner, hmeq, hveq⟩
  · rintro ⟨hsigned, hP, ha, hmint, ⟨x, hx, hmatch⟩, ⟨y, hy⟩, hderived, hstaker, howner, hmeq, hveq⟩
    exact ⟨(), hsigned, P, hP, a, ha, (), hmint, x, hx, y, hy, (), hderived, (), hstaker, (),
      howner, (), hmeq, (), hmatch, (), hveq, rfl, rfl⟩

theorem Unstake.handler_eq_ok_iff {ctx : Unstake} {amount : U64} :
    ctx.handler env w amount = .ok w' ↔ ∃ P a P' a' tokens, ctx.Loads env w P a ∧
      unstake P a amount env.now = .ok (P', a') ∧
      env.rt.transfer w.tokens ctx.stakeVault ctx.userTokenAccount ctx.pool amount = .ok tokens ∧
      w' = ((w.putPool ctx.pool P').putStaker ctx.staker a').putTokens tokens := by
  simp only [Unstake.handler, bind_eq_ok_iff, Prod.exists, Unstake.tryAccounts_eq_ok_iff,
    ofLogic_eq_ok_iff, transferSigned_eq_ok_iff, pure_eq_ok_iff]
  constructor
  · rintro ⟨P, a, hloads, P', a', hunstake, tokens, ⟨-, htransfer⟩, rfl⟩
    exact ⟨P, a, P', a', tokens, hloads, hunstake, htransfer, rfl⟩
  · rintro ⟨P, a, P', a', tokens, hloads, hunstake, htransfer, rfl⟩
    exact ⟨P, a, hloads, P', a', hunstake, tokens, ⟨hloads.derived, htransfer⟩, rfl⟩

theorem EmergencyWithdraw.handler_eq_ok_iff {ctx : EmergencyWithdraw} :
    EmergencyWithdraw.handler env w ctx = .ok w' ↔ ∃ P a P' a' tokens, ctx.Loads env w P a ∧
      0 < a.stakedAmount.val ∧ emergencyWithdraw P a = .ok (P', a', a.stakedAmount) ∧
      env.rt.transfer w.tokens ctx.stakeVault ctx.userTokenAccount ctx.pool a.stakedAmount =
        .ok tokens ∧
      w' = ((w.putPool ctx.pool P').putStaker ctx.staker a').putTokens tokens := by
  simp only [EmergencyWithdraw.handler, bind_eq_ok_iff, Prod.exists,
    Unstake.tryAccounts_eq_ok_iff, ofLogic_eq_ok_iff, require_eq_ok_iff,
    transferSigned_eq_ok_iff, pure_eq_ok_iff]
  constructor
  · rintro ⟨P, a, hloads, P', a', amount, hexit, -, hpos, tokens, ⟨-, htransfer⟩, rfl⟩
    obtain rfl : a.stakedAmount = amount := by
      simp only [emergencyWithdraw, Except.ok.injEq, Prod.mk.injEq] at hexit
      exact hexit.2.2
    exact ⟨P, a, P', a', tokens, hloads, hpos, hexit, htransfer, rfl⟩
  · rintro ⟨P, a, P', a', tokens, hloads, hpos, hexit, htransfer, rfl⟩
    exact ⟨P, a, hloads, P', a', a.stakedAmount, hexit, (), hpos, tokens,
      ⟨hloads.derived, htransfer⟩, rfl⟩

structure DepositRewards.Loads (env : Env) (w : World) (ctx : DepositRewards) (P : Pool)
    (vault : Holding) : Prop where
  signed : ctx.keeper ∈ env.signers
  pool : w.pools ctx.pool = some P
  mint : w.mints ctx.rewardMint = true
  keeper : ∃ x, w.tokens ctx.keeperTokenAccount = some x ∧ x.owner = ctx.keeper ∧
    x.mint = ctx.rewardMint
  held : w.tokens ctx.rewardVault = some vault
  keeper_eq : ctx.keeper = P.keeperAuthority
  derived : env.rt.create (.pool P.stakeMint) P.bump = some ctx.pool
  slot : ∃ i, findSlot P ctx.rewardMint = some i ∧ (P.rewards i).vault = ctx.rewardVault
  vault_mint : vault.mint = ctx.rewardMint

theorem DepositRewards.tryAccounts_eq_ok_iff {ctx : DepositRewards} {P : Pool} {vault : Holding} :
    ctx.tryAccounts env w = .ok (P, vault) ↔ ctx.Loads env w P vault := by
  simp only [DepositRewards.tryAccounts, bind_eq_ok_iff, signer_eq_ok_iff, loaded_eq_ok_iff,
    loadMint_eq_ok_iff, ofLogic_eq_ok_iff, require_eq_ok_iff, seedsMatch_eq_ok_iff,
    tokenMatches_eq_ok_iff, findRewardVault_eq_ok_iff, ensure_eq_ok_iff, pure_eq_ok_iff,
    Prod.mk.injEq]
  constructor
  · rintro ⟨-, hsigned, P, hP, -, hmint, x, hx, vault, hvault, -, hkeeper, -, hderived, -, hmatch,
      _, ⟨i, hi, rfl⟩, -, heq, -, hvmint, rfl, rfl⟩
    exact ⟨hsigned, hP, hmint, ⟨x, hx, hmatch⟩, hvault, hkeeper, hderived, ⟨i, hi, heq.symm⟩,
      hvmint⟩
  · rintro ⟨hsigned, hP, hmint, ⟨x, hx, hmatch⟩, hvault, hkeeper, hderived, ⟨i, hi, heq⟩, hvmint⟩
    exact ⟨(), hsigned, P, hP, (), hmint, x, hx, vault, hvault, (), hkeeper, (), hderived, (),
      hmatch, _, ⟨i, hi, rfl⟩, (), heq.symm, (), hvmint, rfl, rfl⟩

theorem DepositRewards.handler_eq_ok_iff {ctx : DepositRewards} {amount : U64} :
    ctx.handler env w amount = .ok w' ↔ ∃ P vault tokens reloaded received P',
      ctx.Loads env w P vault ∧ 0 < amount.val ∧
      env.rt.transfer w.tokens ctx.keeperTokenAccount ctx.rewardVault ctx.keeper amount =
        .ok tokens ∧
      tokens ctx.rewardVault = some reloaded ∧
      (vault.amount.val ≤ reloaded.amount.val ∧
        received.val = reloaded.amount.val - vault.amount.val) ∧
      depositRewards P ctx.rewardMint received env.now = .ok P' ∧
      w' = (w.putPool ctx.pool P').putTokens tokens := by
  simp only [DepositRewards.handler, bind_eq_ok_iff, Prod.exists,
    DepositRewards.tryAccounts_eq_ok_iff, ofLogic_eq_ok_iff, require_eq_ok_iff, okOr_eq_ok_iff,
    loaded_eq_ok_iff, transferTokens_eq_ok_iff, Unsigned.checkedSub_eq_some_iff, pure_eq_ok_iff]
  constructor
  · rintro ⟨P, vault, hloads, -, hpos, tokens, htransfer, reloaded, hreload, received, hreceived,
      P', hP', rfl⟩
    exact ⟨P, vault, tokens, reloaded, received, P', hloads, hpos, htransfer, hreload, hreceived,
      hP', rfl⟩
  · rintro ⟨P, vault, tokens, reloaded, received, P', hloads, hpos, htransfer, hreload, hreceived,
      hP', rfl⟩
    exact ⟨P, vault, hloads, (), hpos, tokens, htransfer, reloaded, hreload, received, hreceived,
      P', hP', rfl⟩

structure Claim.Loads (env : Env) (w : World) (ctx : Claim) (P : Pool)
    (a : StakerAccount) : Prop where
  signed : ctx.owner ∈ env.signers
  pool : w.pools ctx.pool = some P
  staker : w.stakers ctx.staker = some a
  derived : env.rt.create (.pool P.stakeMint) P.bump = some ctx.pool
  derived_staker : env.rt.create (.staker ctx.pool ctx.owner) a.bump = some ctx.staker
  owner_eq : a.owner = ctx.owner

theorem Claim.tryAccounts_eq_ok_iff {ctx : Claim} {P : Pool} {a : StakerAccount} :
    ctx.tryAccounts env w = .ok (P, a) ↔ ctx.Loads env w P a := by
  simp only [Claim.tryAccounts, bind_eq_ok_iff, signer_eq_ok_iff, loaded_eq_ok_iff,
    seedsMatch_eq_ok_iff, ofLogic_eq_ok_iff, require_eq_ok_iff, pure_eq_ok_iff, Prod.mk.injEq]
  constructor
  · rintro ⟨-, hsigned, P, hP, a, ha, -, hderived, -, hstaker, -, howner, rfl, rfl⟩
    exact ⟨hsigned, hP, ha, hderived, hstaker, howner⟩
  · rintro ⟨hsigned, hP, ha, hderived, hstaker, howner⟩
    exact ⟨(), hsigned, P, hP, a, ha, (), hderived, (), hstaker, (), howner, rfl, rfl⟩

theorem Claim.handler_eq_ok_iff {ctx : Claim} :
    ctx.handler env w = .ok w' ↔ ∃ P a P' a₁ a' tokens, ctx.Loads env w P a ∧
      claimSettleAll P a env.now = .ok (P', a₁) ∧ ctx.remaining.length % 2 = 0 ∧
      (keyPairs ctx.remaining).foldlM (ctx.turn env P.stakeMint P.bump P') (a₁, w.tokens) =
        .ok (a', tokens) ∧
      w' = ((w.putPool ctx.pool P').putStaker ctx.staker a').putTokens tokens := by
  simp only [Claim.handler, bind_eq_ok_iff, Prod.exists, Claim.tryAccounts_eq_ok_iff,
    ofLogic_eq_ok_iff, require_eq_ok_iff, pure_eq_ok_iff]
  constructor
  · rintro ⟨P, a, hloads, P', a₁, hset, -, heven, a', tokens, hloop, rfl⟩
    exact ⟨P, a, P', a₁, a', tokens, hloads, hset, heven, hloop, rfl⟩
  · rintro ⟨P, a, P', a₁, a', tokens, hloads, hset, heven, hloop, rfl⟩
    exact ⟨P, a, hloads, P', a₁, hset, (), heven, a', tokens, hloop, rfl⟩

end Handlers
end MmStaking
