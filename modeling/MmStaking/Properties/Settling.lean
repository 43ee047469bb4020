import MmStaking.Properties.Exit
import MmStaking.Refine.Packed

/-! Settling: with a staker a pool always settles, and without one unless it rolls a slot out
of the range of a timestamp. Where the pool settles so does every staker of it, and a stake or
a deposit meets only the checks its own arguments can fail. -/
namespace MmStaking
open Words Loops Accrual

/-- No slot of an empty pool rolls its period out of the range of a timestamp. -/
def Pool.RollsBy (pool : Pool) (now : I64) : Prop :=
  pool.totalStaked.val = 0 → ∀ i, pool.Registered i →
    (pool.rewards i).lastUpdateTime.val < now.val → now.val < (pool.rewards i).periodFinish.val →
    (pool.rewards i).periodFinish.val + (now.val - (pool.rewards i).lastUpdateTime.val) < 2 ^ 63

variable {ι : Type} [Fintype ι] [DecidableEq ι] {s : Sys ι} {now : I64}

theorem Sys.Reachable.settleSlots_isOk_iff (hs : s.Reachable) (hb : s.Bounded)
    (hnow : s.NotBefore now) :
    (∃ pool, settleSlots s.pool now = .ok pool) ↔ s.pool.RollsBy now := by
  rw [MmStaking.settleSlots_isOk_iff hs.inv.tidy.last_nonneg]
  constructor
  · intro hfit h0 i hi hlast hfinish
    exact (hfit i hi).2 h0 hfinish hlast
  · intro hroll i hi
    rcases Nat.eq_zero_or_pos s.pool.totalStaked.val with h0 | hT
    · exact ⟨fun hT => absurd h0 hT.ne', fun _ hfinish hlast => hroll h0 i hi hlast hfinish⟩
    · exact hs.fits hb hnow hT i hi

theorem Sys.Reachable.settlement_isOk_iff (hs : s.Reachable) (hb : s.Bounded)
    (hnow : s.NotBefore now) :
    (∃ pool, updateReward s.pool none now = .ok (pool, none)) ↔ s.pool.RollsBy now := by
  simp only [updateReward_none_eq_ok_iff, and_true]
  exact hs.settleSlots_isOk_iff hb hnow

theorem Sys.Reachable.settles (hs : s.Reachable) (hb : s.Bounded)
    (hnow : s.clock.val ≤ now.val) (hroll : s.pool.RollsBy now) (v : ι) :
    ∃ pool account, claimSettleAll s.pool (s.staker v) now = .ok (pool, account) := by
  have hafter := hs.inv.notBefore_of_le hnow
  obtain ⟨pool, hp⟩ := (hs.settleSlots_isOk_iff hb hafter).mpr hroll
  obtain ⟨account, he⟩ := hs.settleEntries_isOk hb hafter hp v
  exact ⟨pool, account, claimSettleAll_eq_ok_iff.mpr ⟨hp, he⟩⟩

theorem settleEntries_opened {pool : Pool} {a b : StakerAccount} {owner poolKey : Pubkey}
    {bump : U8} (h : settleEntries pool a = .ok b) :
    settleEntries pool (a.opened owner poolKey bump) = .ok (b.opened owner poolKey bump) := by
  simp only [settleEntries, bind_eq_ok_iff, pure_eq_ok_iff] at h ⊢
  obtain ⟨entries, he, rfl⟩ := h
  refine ⟨entries, ?_, ?_⟩
  · rw [StakerAccount.opened_entries, StakerAccount.opened_staked]
    exact he
  · unfold StakerAccount.opened
    by_cases howner : a.owner = 0
    · rw [if_pos howner, if_pos howner]
    · rw [if_neg howner, if_neg howner]

theorem Sys.Reachable.stake_isOk_iff (hs : s.Reachable) (hb : s.Bounded)
    (hnow : s.clock.val ≤ now.val) (v : ι) (owner poolKey : Pubkey) (bump : U8) {amount : U64}
    (hroom : s.pool.totalStaked.val + amount.val < 2 ^ 64) :
    (∃ pool account, stake s.pool (s.staker v) owner poolKey bump amount now =
      .ok (pool, account)) ↔
      0 < amount.val ∧ s.pool.paused.val = 0 ∧ s.pool.RollsBy now := by
  rw [← hs.settleSlots_isOk_iff hb (hs.inv.notBefore_of_le hnow)]
  constructor
  · rintro ⟨pool, account, hstake⟩
    obtain ⟨hpos, hpaused, pool₁, _, _, _, hp, -⟩ := stake_eq_ok_iff.mp hstake
    exact ⟨hpos, hpaused, pool₁, hp⟩
  · rintro ⟨hpos, hpaused, pool₁, hp⟩
    obtain ⟨account, he⟩ := hs.settleEntries_isOk hb (hs.inv.notBefore_of_le hnow) hp v
    have htotal := settleSlots_totalStaked hp
    have hstaked := settleEntries_staked he
    have hle := hs.inv.staked_le v
    obtain ⟨staked, hst⟩ : ∃ c : U64, c.val =
        (account.opened owner poolKey bump).stakedAmount.val + amount.val := by
      refine Unsigned.exists_val ?_
      rw [StakerAccount.opened_staked, hstaked]
      omega
    obtain ⟨total, htot⟩ : ∃ c : U64, c.val = pool₁.totalStaked.val + amount.val := by
      refine Unsigned.exists_val ?_
      rw [htotal]
      exact hroom
    exact ⟨_, _, stake_eq_ok_iff.mpr ⟨hpos, hpaused, pool₁, _, staked, total, hp,
      settleEntries_opened he, hst, htot, rfl, rfl⟩⟩

theorem Sys.Reachable.remaining_le (hs : s.Reachable) (hnow : s.NotBefore now) {pool : Pool}
    (h : settleSlots s.pool now = .ok pool) (i : Slot) :
    ((pool.rewards i).stream.remaining : ℤ) ≤ P * s.ledger.rewardVault i := by
  obtain ⟨-, hslack⟩ := hs.settled hnow h i
  have howing : 0 ≤ (bookOf pool s.staker s.ledger i).owing P :=
    Finset.sum_nonneg fun _ _ => Nat.cast_nonneg _
  change 0 ≤ (P : ℤ) * s.ledger.rewardVault i - _ - ((pool.rewards i).stream.remaining : ℤ)
    at hslack
  linarith

theorem Sys.Reachable.deposit_isOk_iff (hs : s.Reachable) (hb : s.Bounded)
    (hnow : s.clock.val ≤ now.val) {i : Slot} (hi : s.pool.Registered i) {received : U64}
    (hroom : s.ledger.rewardVault i + received.val < 2 ^ 64) :
    (∃ pool, depositRewards s.pool (s.pool.rewards i).mint received now = .ok pool) ↔
      (s.pool.rewards i).active.val = 1 ∧ s.pool.RollsBy now ∧
        now.val + (s.pool.rewards i).duration.val < 2 ^ 63 := by
  obtain ⟨htidy, hpacked⟩ := hs.registry
  have hlast := htidy.last_nonneg
  have hafter := hs.inv.notBefore_of_le hnow
  have hfind : findSlot s.pool (s.pool.rewards i).mint = some i :=
    (hpacked.findSlot_iff hi).mpr rfl
  have hkept : ∀ {pool}, settleSlots s.pool now = .ok pool →
      (pool.rewards i).duration = (s.pool.rewards i).duration := by
    intro pool hp
    exact congrArg (fun t => t.2.2.1) (settleSlots_terms hlast hp i)
  rw [← hs.settleSlots_isOk_iff hb (hs.inv.notBefore_of_le hnow)]
  constructor
  · rintro ⟨pool, hdeposit⟩
    obtain ⟨j, hj, hactive, pool₁, _, finish, hp, -, hfinish, -⟩ :=
      depositRewards_eq_ok_iff.mp hdeposit
    rw [hfind, Option.some.injEq] at hj
    subst hj
    rw [hkept hp] at hfinish
    exact ⟨hactive, ⟨pool₁, hp⟩, hfinish ▸ finish.upper⟩
  · rintro ⟨hactive, ⟨pool₁, hp⟩, hupper⟩
    have hdur := htidy.duration_pos i hi
    have hnow0 := hafter.1
    have hsettled := settleSlots_settledAt hlast hp i ((settleSlots_registered hlast hp i).mpr hi)
    -- the leftover and the deposit are below what a vault can hold, scaled
    have hleft : received.val * P + ((pool₁.rewards i).periodFinish.val - now.val).toNat *
        (pool₁.rewards i).rewardRate.val < 2 ^ 128 := by
      have hle := hs.remaining_le hafter hp i
      have hrem : (pool₁.rewards i).stream.remaining = ((pool₁.rewards i).periodFinish.val -
          now.val).toNat * (pool₁.rewards i).rewardRate.val := by
        rw [← hsettled]
        rfl
      rw [hrem] at hle
      have hlt : (P : ℤ) * (s.ledger.rewardVault i + received.val) < P * 2 ^ 64 :=
        mul_lt_mul_of_pos_left hroom (by exact_mod_cast P_pos)
      have hsum : ((received.val * P + ((pool₁.rewards i).periodFinish.val - now.val).toNat *
          (pool₁.rewards i).rewardRate.val : ℕ) : ℤ) ≤
          P * (s.ledger.rewardVault i + received.val) := by
        rw [Nat.cast_add, Nat.cast_mul]
        linarith
      have htop : (P : ℤ) * 2 ^ 64 < ((2 ^ 128 : ℕ) : ℤ) := by decide
      exact_mod_cast (hsum.trans_lt hlt).trans htop
    obtain ⟨rate, hrate⟩ : ∃ c : U128, c.val = (received.val * P +
        ((pool₁.rewards i).periodFinish.val - now.val).toNat * (pool₁.rewards i).rewardRate.val) /
          (pool₁.rewards i).duration.val.toNat :=
      Unsigned.exists_val ((Nat.div_le_self _ _).trans_lt hleft)
    obtain ⟨finish, hfinish⟩ : ∃ c : I64, c.val = now.val + (s.pool.rewards i).duration.val :=
      Signed.exists_val (by omega) hupper
    refine ⟨_, depositRewards_eq_ok_iff.mpr ⟨i, hfind, hactive, pool₁, rate, finish, hp, ?_, ?_,
      rfl⟩⟩
    · rw [notifyRate_eq_ok_iff hnow0, hkept hp]
      rw [hkept hp] at hrate
      exact ⟨hdur, hleft, hrate⟩
    · rw [hkept hp]
      exact hfinish

theorem claimTakeAll_isOk (pool : Pool) (account : StakerAccount) (slots : List Slot) :
    ∃ r, claimTakeAll pool account (slots.map fun i => (pool.rewards i).vault) = .ok r := by
  induction slots generalizing account with
  | nil => exact ⟨_, rfl⟩
  | cons i slots ih =>
      obtain ⟨j, hj⟩ : ∃ j, findVault pool (pool.rewards i).vault = some j := by
        refine Option.ne_none_iff_exists'.mp ?_
        intro hnone
        exact findVault_eq_none_iff.mp hnone i rfl
      obtain ⟨r, hr⟩ := ih { account with
        entries := Function.update account.entries j
          { account.entries j with rewardsAccrued := 0 } }
      refine ⟨(r.1, (j, (account.entries j).rewardsAccrued) :: r.2), ?_⟩
      simp only [List.map_cons, claimTakeAll, claimTakeSlot, hj, okOr]
      change (claimTakeAll pool _ _ >>= _) = _
      rw [hr]
      rfl

/-- Nothing but its own arguments refuses a call at `now`: anyone claims from the vaults of any
slots, stakes what the total has room for while the pool is not paused, and every active slot
takes a deposit its vault has room for. -/
structure Sys.Serves (s : Sys ι) (now : I64) : Prop where
  settle : ∃ pool, updateReward s.pool none now = .ok (pool, none)
  claim : ∀ (v : ι) (slots : List Slot),
    ∃ s', s.step ⟨now, .claim v (slots.map fun i => (s.pool.rewards i).vault)⟩ = .ok s'
  stake : ∀ (v : ι) (owner poolKey : Pubkey) (stakerBump : U8) (amount : U64),
    0 < amount.val → s.pool.paused.val = 0 → s.pool.totalStaked.val + amount.val < 2 ^ 64 →
    ∃ s', s.step ⟨now, .stake v owner poolKey stakerBump amount⟩ = .ok s'
  deposit : ∀ (i : Slot) (received : U64), s.pool.Registered i →
    (s.pool.rewards i).active.val = 1 → s.ledger.rewardVault i + received.val < 2 ^ 64 →
    ∃ s', s.step ⟨now, .depositRewards (s.pool.rewards i).mint received⟩ = .ok s'

theorem Sys.Reachable.serves (hs : s.Reachable) (hb : s.Bounded) (hnow : s.clock.val ≤ now.val)
    (hroll : s.pool.RollsBy now)
    (hends : ∀ i, s.pool.Registered i → now.val + (s.pool.rewards i).duration.val < 2 ^ 63) :
    s.Serves now := by
  have hafter := hs.inv.notBefore_of_le hnow
  refine ⟨(hs.settlement_isOk_iff hb hafter).mpr hroll, ?_, ?_, ?_⟩
  · intro v slots
    obtain ⟨pool, account, hset⟩ := hs.settles hb hnow hroll v
    obtain ⟨hp, he⟩ := claimSettleAll_eq_ok_iff.mp hset
    have hvaults : (slots.map fun i => (s.pool.rewards i).vault) =
        slots.map fun i => (pool.rewards i).vault := by
      refine List.map_congr_left ?_
      intro i _
      exact congrArg (fun t => t.2.1) (settleSlots_terms hs.inv.tidy.last_nonneg hp i).symm
    obtain ⟨⟨account', paid⟩, htake⟩ := claimTakeAll_isOk pool account slots
    rw [← hvaults] at htake
    exact ⟨_, Sys.step_eq_ok_iff.mpr ⟨hnow, _, perform_claim_eq_ok_iff.mpr
      ⟨pool, account, account', paid, hp, he, htake, rfl⟩, rfl⟩⟩
  · intro v owner poolKey stakerBump amount hpos hpaused hroom
    obtain ⟨pool, account, hstake⟩ := (hs.stake_isOk_iff hb hnow v owner poolKey
      stakerBump hroom).mpr ⟨hpos, hpaused, hroll⟩
    refine ⟨_, Sys.step_eq_ok_iff.mpr ⟨hnow, { s.put pool v account with
      ledger := s.ledger.recordStake v amount }, ?_, rfl⟩⟩
    simp only [Sys.perform, hstake]
    rfl
  · intro i received hi hactive hroom
    obtain ⟨pool, hdeposit⟩ :=
      (hs.deposit_isOk_iff hb hnow hi hroom).mpr ⟨hactive, hroll, hends i hi⟩
    have hfind : findSlot s.pool (s.pool.rewards i).mint = some i :=
      (hs.registry.2.findSlot_iff hi).mpr rfl
    refine ⟨_, Sys.step_eq_ok_iff.mpr ⟨hnow, { s with
      pool := pool, ledger := s.ledger.recordDeposit i received }, ?_, rfl⟩⟩
    simp only [Sys.perform, hfind, okOr, hdeposit]
    rfl

end MmStaking
