import MmStaking.Lib.Repeated
import MmStaking.Properties.Solvency
import MmStaking.Refine.Packed

/-! Idle time: a pool nobody has staked in, settled again and again. The zero-stake
branch rolls a slot forward so that its remainder is kept, but its guard also turns
down a settlement at or past the finish, and then the remainder is gone. The stake or the
deposit that ends the idle time settles first, so that its own time counts as well. -/
namespace MmStaking
open Words Loops Accrual

variable {ι : Type}

/-- `update_reward` without a staker at each time in turn. -/
def settleAt (pool : Pool) : List I64 → Result Pool
  | [] => .ok pool
  | now :: rest => do
      let (pool, _) ← updateReward pool none now
      settleAt pool rest

theorem settleAt_cons_eq_ok_iff {pool pool' : Pool} {now : I64} {rest : List I64} :
    settleAt pool (now :: rest) = .ok pool' ↔
      ∃ pool₁, settleSlots pool now = .ok pool₁ ∧ settleAt pool₁ rest = .ok pool' := by
  simp only [settleAt, bind_eq_ok_iff, Prod.exists, updateReward_none_eq_ok_iff]
  constructor
  · rintro ⟨pool₁, lent, ⟨hs, rfl⟩, hrest⟩
    exact ⟨pool₁, hs, hrest⟩
  · rintro ⟨pool₁, hs, hrest⟩
    exact ⟨pool₁, none, ⟨hs, rfl⟩, hrest⟩

theorem settleAt_stream {pool pool' : Pool} {ts : List I64} {i : Slot}
    (hlast : ∀ j, 0 ≤ (pool.rewards j).lastUpdateTime.val) (h0 : pool.totalStaked.val = 0)
    (hi : pool.Registered i)
    (hts : List.IsChain (· ≤ ·) ((pool.rewards i).lastUpdateTime.val :: ts.map Signed.val))
    (h : settleAt pool ts = .ok pool') :
    (pool'.rewards i).stream = (pool.rewards i).stream.settleAll 0 (ts.map Signed.val) := by
  induction ts generalizing pool with
  | nil =>
      cases h
      rfl
  | cons now rest ih =>
      obtain ⟨pool₁, hs, hrest⟩ := settleAt_cons_eq_ok_iff.mp h
      obtain ⟨hnow, hchain⟩ := List.isChain_cons_cons.mp hts
      have hstream : ∀ j, (pool₁.rewards j).stream =
          if pool.Registered j then (pool.rewards j).stream.settle 0 now.val
          else (pool.rewards j).stream := fun j => by
        rw [settleSlots_stream hlast hs j, h0]
      have hself := (hstream i).trans (if_pos hi)
      have hlast₁ : ∀ j, 0 ≤ (pool₁.rewards j).lastUpdateTime.val := by
        intro j
        change 0 ≤ (pool₁.rewards j).stream.last
        rw [hstream j]
        split
        · rw [Stream.settle_last]
          exact (hlast i).trans hnow
        · exact hlast j
      have hlasti : (pool₁.rewards i).lastUpdateTime.val = now.val := by
        change (pool₁.rewards i).stream.last = now.val
        rw [hself, Stream.settle_last]
      have htotal : pool₁.totalStaked.val = 0 := by rw [settleSlots_totalStaked hs, h0]
      rw [← hlasti] at hchain
      rw [ih hlast₁ htotal ((settleSlots_registered hlast hs i).mpr hi) hchain hrest, hself]
      rfl

theorem settleAt_snoc {pool pool₁ pool₂ : Pool} {ts : List I64} {t : I64}
    (h : settleAt pool ts = .ok pool₁) (ht : settleSlots pool₁ t = .ok pool₂) :
    settleAt pool (ts ++ [t]) = .ok pool₂ := by
  induction ts generalizing pool with
  | nil =>
      cases h
      exact settleAt_cons_eq_ok_iff.mpr ⟨pool₂, ht, rfl⟩
  | cons now rest ih =>
      obtain ⟨p, hs, hrest⟩ := settleAt_cons_eq_ok_iff.mp h
      exact settleAt_cons_eq_ok_iff.mpr ⟨p, hs, ih hrest⟩

theorem settleAt_keeps {pool pool' : Pool} {staker : ι → StakerAccount} {ts : List I64}
    (ht : Tidy pool staker) (hp : pool.Packed) (hts : ∀ t ∈ ts, 0 ≤ t.val)
    (h : settleAt pool ts = .ok pool') :
    Tidy pool' staker ∧ pool'.Packed ∧ pool'.totalStaked = pool.totalStaked ∧
      ∀ i, (pool'.rewards i).terms = (pool.rewards i).terms := by
  induction ts generalizing pool with
  | nil =>
      cases h
      exact ⟨ht, hp, rfl, fun _ => rfl⟩
  | cons now rest ih =>
      obtain ⟨pool₁, hs, hrest⟩ := settleAt_cons_eq_ok_iff.mp h
      obtain ⟨hnow, hrest_nonneg⟩ := List.forall_mem_cons.mp hts
      have hterms := settleSlots_terms ht.last_nonneg hs
      have hp₁ : pool₁.Packed := hp.congr (fun i => congrArg Prod.fst (hterms i)) (by
        rw [settleSlots_rewards_only hs])
      obtain ⟨ht', hp', htotal, hterms'⟩ := ih (ht.settleSlots hnow hs) hp₁ hrest_nonneg hrest
      exact ⟨ht', hp', htotal.trans (settleSlots_totalStaked hs),
        fun i => (hterms' i).trans (hterms i)⟩

/-- Whoever has all of the stake is paid all that was left of a period at its end, up to the
rounding of the index and of its reward. -/
theorem claimSettleAll_alone (pool : Pool) (account : StakerAccount) {pool' : Pool}
    {account' : StakerAccount} {now : I64} {i : Slot}
    (hlast : ∀ j, 0 ≤ (pool.rewards j).lastUpdateTime.val) (hi : pool.Registered i)
    (hstaked : account.stakedAmount.val = pool.totalStaked.val)
    (hpaid : (account.entries i).rewardPerTokenPaid.val =
      (pool.rewards i).rewardPerTokenStored.val)
    (hover : (pool.rewards i).periodFinish.val ≤ now.val)
    (h : claimSettleAll pool account now = .ok (pool', account')) :
    (account'.entries i).rewardsAccrued.val = (account.entries i).rewardsAccrued.val +
      pool.totalStaked.val * ((pool.rewards i).stream.remaining / pool.totalStaked.val) / P := by
  obtain ⟨hp, he⟩ := claimSettleAll_eq_ok_iff.mp h
  have hsettled : (account'.entries i).rewardsAccrued.val = (account.entries i).rewardsAccrued.val +
      account.stakedAmount.val *
        (((pool.rewards i).stream.settle pool.totalStaked.val now.val).index -
        (account.entries i).rewardPerTokenPaid.val) / P :=
    congrArg Holder.accrued (settle_views hlast hp he hi).2
  have helapsed : (pool.rewards i).stream.elapsed now.val =
      ((pool.rewards i).periodFinish.val - (pool.rewards i).lastUpdateTime.val).toNat := by
    change (min now.val (pool.rewards i).periodFinish.val - _).toNat = _
    rw [min_eq_right hover]
    rfl
  have hindex : ((pool.rewards i).stream.settle pool.totalStaked.val now.val).index -
      (account.entries i).rewardPerTokenPaid.val =
        (pool.rewards i).stream.remaining / pool.totalStaked.val := by
    rw [Stream.settle_index, helapsed, hpaid]
    exact Nat.add_sub_cancel_left _ _
  rw [hsettled, hindex, hstaked]

/-- Settled at these times an idle slot loses nothing: there is nothing to lose, or no gap
between settlements reaches what was left of the period. -/
def RewardInfo.KeepsRest (slot : RewardInfo) (ts : List I64) : Prop :=
  slot.rewardRate.val = 0 ∨ slot.periodFinish.val ≤ slot.lastUpdateTime.val ∨
    Stream.GapsBelow (slot.periodFinish.val - slot.lastUpdateTime.val) slot.lastUpdateTime.val
      (ts.map Signed.val)

instance (slot : RewardInfo) (ts : List I64) : Decidable (slot.KeepsRest ts) :=
  inferInstanceAs (Decidable (_ ∨ _ ∨ _))

section Idle
variable [Fintype ι] [DecidableEq ι] {s : Sys ι} {i : Slot} {ts : List I64} {pool : Pool}
  (hs : s.Reachable) (h0 : s.pool.totalStaked.val = 0) (hi : s.pool.Registered i)
include hs h0 hi

omit h0 hi in
theorem idle_times_nonneg
    (hts : List.IsChain (· ≤ ·) ((s.pool.rewards i).lastUpdateTime.val :: ts.map Signed.val)) :
    ∀ t ∈ ts, 0 ≤ t.val := by
  intro t ht
  have hle := (List.pairwise_cons.mp hts.pairwise).1 t.val (List.mem_map_of_mem ht)
  exact (hs.inv.tidy.last_nonneg i).trans hle

theorem idle_unstreamed
    (hts : List.IsChain (· ≤ ·) ((s.pool.rewards i).lastUpdateTime.val :: ts.map Signed.val))
    (h : settleAt s.pool ts = .ok pool) :
    (pool.rewards i).unstreamed =
        (if (s.pool.rewards i).KeepsRest ts then (s.pool.rewards i).unstreamed else 0) ∧
      ((pool.rewards i).unstreamed = (s.pool.rewards i).unstreamed ↔
        (s.pool.rewards i).KeepsRest ts) := by
  have hstream := settleAt_stream hs.inv.tidy.last_nonneg h0 hi hts h
  have hiff : (pool.rewards i).unstreamed = (s.pool.rewards i).unstreamed ↔
      (s.pool.rewards i).KeepsRest ts := by
    rw [RewardInfo.unstreamed_eq, RewardInfo.unstreamed_eq, hstream, Nat.cast_inj]
    exact Stream.settleAll_zero_remaining_iff _ hts
  refine ⟨?_, hiff⟩
  split
  · rename_i hkeeps
    exact hiff.mpr hkeeps
  · rename_i hloses
    have hlost := Stream.settleAll_zero_remaining_lost (s.pool.rewards i).stream hts hloses
    rw [RewardInfo.unstreamed_eq, hstream, hlost, Nat.cast_zero]

/-- A later staker starts on what is left then, and staying alone to the end of the period it
is paid all of that, up to the rounding of the index and of its reward. -/
theorem idle_then_stake {t : I64}
    (hts : List.IsChain (· ≤ ·)
      ((s.pool.rewards i).lastUpdateTime.val :: (ts ++ [t]).map Signed.val))
    (h : settleAt s.pool ts = .ok pool) {v : ι} {owner poolKey : Pubkey} {bump : U8}
    {amount : U64} {pool₁ : Pool} {account : StakerAccount}
    (hstake : stake pool (s.staker v) owner poolKey bump amount t = .ok (pool₁, account)) :
    ((pool₁.rewards i).unstreamed = (s.pool.rewards i).unstreamed ↔
      (s.pool.rewards i).KeepsRest (ts ++ [t])) ∧
    ∀ (t' : I64) (pool₂ : Pool) (account₂ : StakerAccount),
      (pool₁.rewards i).periodFinish.val ≤ t'.val →
      claimSettleAll pool₁ account t' = .ok (pool₂, account₂) →
      ((account₂.entries i).rewardsAccrued.val : ℤ) = (account.entries i).rewardsAccrued.val +
        amount.val * ((pool₁.rewards i).unstreamed / amount.val) / PRECISION.val := by
  obtain ⟨hpos, -, p₁, a₁, staked, total, hp, he, hst, htot, rfl, rfl⟩ :=
    stake_eq_ok_iff.mp hstake
  have hall := settleAt_snoc h hp
  obtain ⟨ht, -, hzero, hterms⟩ := settleAt_keeps hs.registry.1 hs.registry.2
    (idle_times_nonneg hs hts) hall
  refine ⟨(idle_unstreamed hs h0 hi hts hall).2, ?_⟩
  intro t' pool₂ account₂ hover hclaim
  have hreg : p₁.Registered i := by
    rw [Pool.Registered, show (p₁.rewards i).mint = _ from congrArg Prod.fst (hterms i)]
    exact hi
  -- the staker is the only one: its stake is the amount, and so is the total
  have hstaked : staked.val = amount.val := by
    have hle := hs.inv.staked_le v
    rw [hst, settleEntries_staked he, StakerAccount.opened_staked]
    omega
  have htotal : total.val = amount.val := by rw [htot, hzero, h0, Nat.zero_add]
  have hpaid : (a₁.entries i).rewardPerTokenPaid.val = (p₁.rewards i).rewardPerTokenStored.val := by
    have hholder := settleEntries_holder he i
    rw [if_pos hreg] at hholder
    exact congrArg Holder.paid hholder
  have hearned := claimSettleAll_alone { p₁ with totalStaked := total }
    { a₁ with stakedAmount := staked } (ht.congr rfl rfl).last_nonneg hreg
    (hstaked.trans htotal.symm) hpaid hover hclaim
  rw [hearned, RewardInfo.unstreamed_eq]
  push_cast
  rw [htotal]

/-- A later deposit folds what is left then, and nothing else, into the new rate. -/
theorem idle_then_deposit {t : I64}
    (hts : List.IsChain (· ≤ ·)
      ((s.pool.rewards i).lastUpdateTime.val :: (ts ++ [t]).map Signed.val))
    (h : settleAt s.pool ts = .ok pool) {received : U64} {pool₁ : Pool}
    (hdeposit : depositRewards pool (s.pool.rewards i).mint received t = .ok pool₁) :
    ((pool₁.rewards i).rewardRate.val : ℤ) = (received.val * PRECISION.val +
      if (s.pool.rewards i).KeepsRest (ts ++ [t]) then (s.pool.rewards i).unstreamed else 0) /
        (s.pool.rewards i).duration.val := by
  obtain ⟨j, hj, -, p₁, rate, finish, hp, hrate, -, rfl⟩ := depositRewards_eq_ok_iff.mp hdeposit
  have hnonneg := idle_times_nonneg hs hts
  obtain ⟨ht, hpacked, -, hterms⟩ := settleAt_keeps hs.registry.1 hs.registry.2
    (fun t ht => hnonneg t (List.mem_append_left _ ht)) h
  have hall := settleAt_snoc h hp
  obtain ⟨-, -, -, hterms₁⟩ := settleAt_keeps hs.registry.1 hs.registry.2 hnonneg hall
  have hmint : (pool.rewards i).mint = (s.pool.rewards i).mint := congrArg Prod.fst (hterms i)
  have hreg : pool.Registered i := by
    rw [Pool.Registered, hmint]
    exact hi
  obtain rfl : i = j := by
    rw [(hpacked.findSlot_iff hreg).mpr hmint, Option.some.injEq] at hj
    exact hj
  have hdur : (p₁.rewards i).duration = (s.pool.rewards i).duration :=
    congrArg (fun t => t.2.2.1) (hterms₁ i)
  have hlast : (p₁.rewards i).lastUpdateTime = t :=
    settleSlots_settledAt ht.last_nonneg hp i
      ((settleSlots_registered ht.last_nonneg hp i).mpr hreg)
  have hrest : (p₁.rewards i).stream.remaining =
      ((p₁.rewards i).periodFinish.val - t.val).toNat * (p₁.rewards i).rewardRate.val := by
    rw [← hlast]
    rfl
  obtain ⟨hpos, -, hval⟩ :=
    (notifyRate_eq_ok_iff (hnonneg t (List.mem_append_right _ (List.mem_singleton_self _)))).mp
      hrate
  have hself : ∀ slot, (p₁.setReward i slot).rewards i = slot :=
    fun slot => Function.update_self _ _ _
  rw [hself, ← (idle_unstreamed hs h0 hi hts hall).1, RewardInfo.unstreamed_eq, hrest, ← hdur]
  dsimp only
  rw [hval]
  push_cast [Int.toNat_of_nonneg hpos.le]
  rfl

/-- Idle settlements keep what a slot has still to stream exactly when there is nothing to
lose or no gap between them reaches what was left of the period; the slot they leave then
depends on the last of the times only. What the next stake starts on and what the next deposit
folds in is what they keep with its own time as the last one: all of it, or nothing. -/
theorem idle_stream_kept_iff
    (hts : List.IsChain (· ≤ ·) ((s.pool.rewards i).lastUpdateTime.val :: ts.map Signed.val))
    (h : settleAt s.pool ts = .ok pool) :
    ((pool.rewards i).unstreamed = (s.pool.rewards i).unstreamed ↔
      (s.pool.rewards i).KeepsRest ts) ∧
    ((s.pool.rewards i).lastUpdateTime.val < (s.pool.rewards i).periodFinish.val →
      Stream.GapsBelow
        ((s.pool.rewards i).periodFinish.val - (s.pool.rewards i).lastUpdateTime.val)
        (s.pool.rewards i).lastUpdateTime.val (ts.map Signed.val) →
      (pool.rewards i).stream =
        { rate := (s.pool.rewards i).rewardRate.val
          index := (s.pool.rewards i).rewardPerTokenStored.val
          finish := (ts.map Signed.val).getLastD (s.pool.rewards i).lastUpdateTime.val +
            ((s.pool.rewards i).periodFinish.val - (s.pool.rewards i).lastUpdateTime.val)
          last := (ts.map Signed.val).getLastD (s.pool.rewards i).lastUpdateTime.val }) ∧
    ∀ t : I64, List.IsChain (· ≤ ·)
        ((s.pool.rewards i).lastUpdateTime.val :: (ts ++ [t]).map Signed.val) →
      (∀ (v : ι) (owner poolKey : Pubkey) (bump : U8) (amount : U64) (pool₁ : Pool)
          (account : StakerAccount),
        stake pool (s.staker v) owner poolKey bump amount t = .ok (pool₁, account) →
        ((pool₁.rewards i).unstreamed = (s.pool.rewards i).unstreamed ↔
          (s.pool.rewards i).KeepsRest (ts ++ [t])) ∧
        ∀ (t' : I64) (pool₂ : Pool) (account₂ : StakerAccount),
          (pool₁.rewards i).periodFinish.val ≤ t'.val →
          claimSettleAll pool₁ account t' = .ok (pool₂, account₂) →
          ((account₂.entries i).rewardsAccrued.val : ℤ) =
            (account.entries i).rewardsAccrued.val +
              amount.val * ((pool₁.rewards i).unstreamed / amount.val) / PRECISION.val) ∧
      ∀ (received : U64) (pool₁ : Pool),
        depositRewards pool (s.pool.rewards i).mint received t = .ok pool₁ →
        ((pool₁.rewards i).rewardRate.val : ℤ) = (received.val * PRECISION.val +
          if (s.pool.rewards i).KeepsRest (ts ++ [t]) then (s.pool.rewards i).unstreamed else 0) /
            (s.pool.rewards i).duration.val := by
  refine ⟨(idle_unstreamed hs h0 hi hts h).2, ?_, ?_⟩
  · intro hrun hgaps
    have hstream := settleAt_stream hs.inv.tidy.last_nonneg h0 hi hts h
    have hspan := (Stream.settleAll_zero_span (s.pool.rewards i).stream hts hrun).1 hgaps
    have hlast := Stream.settleAll_last (s.pool.rewards i).stream (w := 0) (ts.map Signed.val)
    rw [hstream]
    refine Stream.ext (Stream.settleAll_rate _ _) (Stream.settleAll_zero_index _ _) ?_ hlast
    rw [hlast] at hspan
    change _ = (s.pool.rewards i).stream.finish - (s.pool.rewards i).stream.last at hspan
    change _ = _ + ((s.pool.rewards i).stream.finish - (s.pool.rewards i).stream.last)
    rw [← hspan]
    exact (add_sub_cancel _ _).symm
  · intro t htimes
    constructor
    · intro v owner poolKey bump amount pool₁ account hstake
      exact idle_then_stake hs h0 hi htimes h hstake
    · intro received pool₁ hdeposit
      exact idle_then_deposit hs h0 hi htimes h hdeposit

end Idle

/-- A slot funded with 1000 for 100 seconds while nobody is staked. -/
def Sys.unattended : Sys (Fin 1) :=
  (Sys.fresh 3600).attempt
    [ ⟨0, .addReward 7 11 100⟩, ⟨0, .depositRewards 7 1000⟩ ]

theorem reachable_unattended : Sys.unattended.Reachable :=
  (Sys.Reachable.of_initial (Sys.initial_fresh (by decide))).attempt _

/-- Settled after 90 and 180 seconds the whole deposit is still to stream. One unit staked at
200 starts on it and is paid all 1000 by 300; a deposit of 500 at 200 streams 1500. -/
theorem idle_stream_kept_unattended : ∃ pool pool₁ account pool₂ account₂ pool₃,
    settleAt Sys.unattended.pool [90, 180] = .ok pool ∧
      (pool.rewards 0).unstreamed = (Sys.unattended.pool.rewards 0).unstreamed ∧
    stake pool (Sys.unattended.staker 0) 1 9 255 1 200 = .ok (pool₁, account) ∧
      (pool₁.rewards 0).unstreamed = (Sys.unattended.pool.rewards 0).unstreamed ∧
    claimSettleAll pool₁ account 300 = .ok (pool₂, account₂) ∧
      ((account₂.entries 0).rewardsAccrued.val : ℤ) = 1000 ∧
    depositRewards pool 7 500 200 = .ok pool₃ ∧
      ((pool₃.rewards 0).rewardRate.val : ℤ) = 15 * PRECISION.val := by
  have hrun : (settleAt Sys.unattended.pool [90, 180]).isOk = true := by decide +kernel
  obtain ⟨pool, h⟩ := exists_ok hrun
  have hruns : ((settleAt Sys.unattended.pool [90, 180]).bind fun pool => do
      let r ← stake pool (Sys.unattended.staker 0) 1 9 255 1 200
      let _ ← claimSettleAll r.1 r.2 300
      let _ ← depositRewards pool 7 500 200
      return ((r.2.entries 0).rewardsAccrued.val, (r.1.rewards 0).periodFinish.val)) =
        .ok (0, 300) := by decide +kernel
  obtain ⟨p, hp, hruns⟩ := bind_eq_ok_iff.mp hruns
  obtain rfl : pool = p := Except.ok.inj (h.symm.trans hp)
  obtain ⟨⟨pool₁, account⟩, hstake, hruns⟩ := bind_eq_ok_iff.mp hruns
  obtain ⟨⟨pool₂, account₂⟩, hclaim, hruns⟩ := bind_eq_ok_iff.mp hruns
  obtain ⟨pool₃, hdeposit, hruns⟩ := bind_eq_ok_iff.mp hruns
  obtain ⟨hzero, hfinish⟩ := Prod.mk.inj (Except.ok.inj hruns)
  obtain ⟨hkept, -, hnext⟩ := idle_stream_kept_iff reachable_unattended (by decide +kernel)
    (i := 0) (by decide +kernel) (by decide +kernel) h
  obtain ⟨hstakes, hdeposits⟩ := hnext 200 (by decide +kernel)
  obtain ⟨hstart, hpays⟩ := hstakes 0 1 9 255 1 pool₁ account hstake
  have hall : (Sys.unattended.pool.rewards 0).unstreamed = 1000 * PRECISION.val := by
    decide +kernel
  have hstarted := hstart.mpr (by decide +kernel)
  have hpaid := hpays 300 pool₂ account₂ (by rw [hfinish]; decide) hclaim
  have hfolded := hdeposits 500 pool₃ hdeposit
  rw [hzero, hstarted, hall] at hpaid
  rw [if_pos (by decide +kernel), hall] at hfolded
  refine ⟨pool, pool₁, account, pool₂, account₂, pool₃, h, hkept.mpr (by decide +kernel),
    hstake, hstarted, hclaim, hpaid, hdeposit, hfolded.trans (by decide +kernel)⟩

/-- Settled once after 200 seconds it is lost, all of it. -/
theorem idle_stream_lost :
    Sys.unattended.Reachable ∧ Sys.unattended.pool.totalStaked.val = 0 ∧
      Sys.unattended.pool.Registered 0 ∧
      (Sys.unattended.pool.rewards 0).unstreamed = 1000 * PRECISION.val ∧
      (settleAt Sys.unattended.pool [200]).map (fun pool => (pool.rewards 0).unstreamed) =
        .ok 0 :=
  ⟨reachable_unattended, by decide +kernel, by decide +kernel, by decide +kernel,
    by decide +kernel⟩

end MmStaking
