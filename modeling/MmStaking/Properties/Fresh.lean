import MmStaking.Refine.Invariant

/-! A staker that has left: with nothing staked and nothing accrued its stale checkpoints
are of no consequence, for the next settlement overwrites them and credits nothing. -/
namespace MmStaking
open Words Loops Accrual

/-- The account with its entries zeroed. -/
def StakerAccount.blank (staker : StakerAccount) : StakerAccount :=
  { staker with entries := fun _ => .zeroed }

/-- An account with nothing staked and nothing accrued, not ahead of the slots of `pool`. -/
structure StakerAccount.Idle (staker : StakerAccount) (pool : Pool) : Prop where
  staked : staker.stakedAmount = 0
  accrued : ∀ i, (staker.entries i).rewardsAccrued = 0
  paid_le : ∀ i, pool.Registered i →
    (staker.entries i).rewardPerTokenPaid.val ≤ (pool.rewards i).rewardPerTokenStored.val
  empty_entry : ∀ i, ¬ pool.Registered i → staker.entries i = .zeroed

namespace StakerAccount.Idle
variable {pool pool' : Pool} {staker : StakerAccount} {now : I64}

theorem blank (h : staker.Idle pool) : staker.blank.Idle pool :=
  ⟨h.staked, fun _ => rfl, fun _ _ => Nat.zero_le _, fun _ _ => rfl⟩

theorem opened (h : staker.Idle pool) (owner poolKey : Pubkey) (stakerBump : U8) :
    (staker.opened owner poolKey stakerBump).Idle pool := by
  unfold StakerAccount.opened
  split
  · exact ⟨h.staked, h.accrued, h.paid_le, h.empty_entry⟩
  · exact h

theorem settleSlots (h : staker.Idle pool)
    (hlast : ∀ i, 0 ≤ (pool.rewards i).lastUpdateTime.val)
    (hs : MmStaking.settleSlots pool now = .ok pool') : staker.Idle pool' := by
  have hreg := settleSlots_registered hlast hs
  refine ⟨h.staked, h.accrued, ?_, fun i hi => h.empty_entry i (mt (hreg i).mpr hi)⟩
  intro i hi
  have hi' := (hreg i).mp hi
  rw [settleSlots_index hlast hs hi']
  exact (h.paid_le i hi').trans (pool.rewards i).stream.index_le_settle

/-- The entries of an idle account settle to bare checkpoints. -/
theorem settleEntries (h : staker.Idle pool) : settleEntries pool staker = .ok { staker with
    entries := fun i => if pool.Registered i then
      { rewardPerTokenPaid := (pool.rewards i).rewardPerTokenStored, rewardsAccrued := 0 }
      else .zeroed } := by
  refine settleEntries_eq_ok_iff.mpr ⟨rfl, ?_⟩
  intro i
  split
  · rename_i hi
    have hstaked : staker.stakedAmount.val = 0 := congrArg Unsigned.val h.staked
    have haccrued : (staker.entries i).rewardsAccrued.val = 0 :=
      congrArg Unsigned.val (h.accrued i)
    refine ⟨h.paid_le i hi, by simp [hstaked], ?_⟩
    simp [StakerAccount.holder, Holder.settle, hi, hstaked, haccrued]
  · rename_i hi
    simp only [if_neg hi]
    exact (h.empty_entry i hi).symm

theorem updateReward (h : staker.Idle pool)
    (hlast : ∀ i, 0 ≤ (pool.rewards i).lastUpdateTime.val) :
    updateReward pool (some staker.blank) now = updateReward pool (some staker) now := by
  simp only [MmStaking.updateReward]
  cases hs : MmStaking.settleSlots pool now with
  | error e => rfl
  | ok pool' =>
      have h' := h.settleSlots hlast hs
      simp only [bind, Except.bind, h'.settleEntries, h'.blank.settleEntries]
      rfl

end StakerAccount.Idle

section Calls
variable {pool : Pool} {staker : StakerAccount} {now : I64} (h : staker.Idle pool)
  (hlast : ∀ i, 0 ≤ (pool.rewards i).lastUpdateTime.val)
include h hlast

theorem stake_blank (owner poolKey : Pubkey) (stakerBump : U8) (amount : U64) :
    stake pool staker.blank owner poolKey stakerBump amount now =
      stake pool staker owner poolKey stakerBump amount now := by
  have hopen : (if staker.blank.owner = 0 then
      { staker.blank with owner := owner, pool := poolKey, bump := stakerBump }
      else staker.blank) = (staker.opened owner poolKey stakerBump).blank := by
    have howner : staker.blank.owner = staker.owner := rfl
    rw [howner, StakerAccount.opened]
    split <;> rfl
  have hopen' : (if staker.owner = 0 then
      { staker with owner := owner, pool := poolKey, bump := stakerBump }
      else staker) = staker.opened owner poolKey stakerBump := rfl
  simp only [stake, hopen, hopen', (h.opened owner poolKey stakerBump).updateReward hlast]
  refine bind_congr fun _ => bind_congr fun _ => ?_
  cases hu : updateReward pool (some (staker.opened owner poolKey stakerBump)) now with
  | error e => rfl
  | ok r =>
      obtain ⟨pool', lent⟩ := r
      obtain ⟨-, account, -, rfl⟩ := updateReward_some_eq_ok_iff.mp hu
      rfl

theorem unstake_blank (amount : U64) :
    unstake pool staker.blank amount now = unstake pool staker amount now := by
  simp only [unstake, h.updateReward hlast]
  refine bind_congr fun _ => bind_congr fun _ => ?_
  cases hu : updateReward pool (some staker) now with
  | error e => rfl
  | ok r =>
      obtain ⟨pool', lent⟩ := r
      obtain ⟨-, account, -, rfl⟩ := updateReward_some_eq_ok_iff.mp hu
      rfl

theorem claimSettleAll_blank :
    claimSettleAll pool staker.blank now = claimSettleAll pool staker now := by
  simp only [claimSettleAll, h.updateReward hlast]
  cases hu : updateReward pool (some staker) now with
  | error e => rfl
  | ok r =>
      obtain ⟨pool', lent⟩ := r
      obtain ⟨-, account, -, rfl⟩ := updateReward_some_eq_ok_iff.mp hu
      rfl

end Calls

variable {ι : Type}

variable [DecidableEq ι]

/-- The state with the entries of `u` zeroed. -/
def Sys.refresh (s : Sys ι) (u : ι) : Sys ι :=
  { s with staker := Function.update s.staker u (s.staker u).blank }

section Refresh
variable {s : Sys ι} {u : ι} {now : I64} {op : Op ι}

theorem refresh_put {v : ι} (hne : v ≠ u) (pool : Pool) (account : StakerAccount) :
    (s.put pool v account).refresh u = (s.refresh u).put pool v account := by
  simp only [Sys.refresh, Sys.put, Function.update_of_ne hne.symm, Sys.mk.injEq, true_and, and_true]
  exact Function.update_comm hne _ _ _

/-- Called by an idle staker an instruction cannot tell the two states apart, and leaves
no difference behind. -/
theorem perform_refresh_own (h : (s.staker u).Idle s.pool)
    (hlast : ∀ i, 0 ≤ (s.pool.rewards i).lastUpdateTime.val) (hop : op.actor = some u) :
    (s.refresh u).perform now op = s.perform now op := by
  have hself : (s.refresh u).staker u = (s.staker u).blank := Function.update_self _ _ _
  have hput : ∀ pool account, (s.refresh u).put pool u account = s.put pool u account := by
    intro pool account
    simp only [Sys.refresh, Sys.put, Function.update_idem]
  cases op with
  | stake v owner poolKey stakerBump amount =>
      cases hop
      simp only [Sys.perform, hself, hput]
      change (stake s.pool (s.staker u).blank owner poolKey stakerBump amount now >>= _) = _
      rw [stake_blank h hlast]
      rfl
  | unstake v amount =>
      cases hop
      simp only [Sys.perform, hself, hput]
      change (unstake s.pool (s.staker u).blank amount now >>= _) = _
      rw [unstake_blank h hlast]
      rfl
  | claim v vaultKeys =>
      cases hop
      simp only [Sys.perform, hself, hput]
      change (claimSettleAll s.pool (s.staker u).blank now >>= _) = _
      rw [claimSettleAll_blank h hlast]
      rfl
  | emergencyWithdraw v =>
      cases hop
      simp only [Sys.perform, hself, hput]
      rfl
  | _ => cases hop

/-- Called by anyone else it carries the difference along. -/
theorem perform_refresh_other (hop : op.actor ≠ some u) :
    (s.refresh u).perform now op = (s.perform now op).map fun s' => s'.refresh u := by
  have hstaker : ∀ v, v ≠ u → (s.refresh u).staker v = s.staker v :=
    fun v hv => Function.update_of_ne hv _ _
  have hput : ∀ v, v ≠ u → ∀ pool account (ledger : Ledger ι),
      { (s.refresh u).put pool v account with ledger := ledger } =
        { s.put pool v account with ledger := ledger }.refresh u := by
    intro v hv pool account ledger
    exact congrArg (fun t : Sys ι => { t with ledger := ledger }) (refresh_put hv pool account).symm
  have hne : ∀ v, some v ≠ some u → v ≠ u := fun v hv e => hv (congrArg some e)
  cases op with
  | stake v owner poolKey stakerBump amount =>
      have hv := hne v hop
      simp only [Sys.perform, hstaker v hv]
      change (stake s.pool (s.staker v) owner poolKey stakerBump amount now >>= _) = _
      cases stake s.pool (s.staker v) owner poolKey stakerBump amount now with
      | error e => rfl
      | ok r => exact congrArg Except.ok (hput v hv r.1 r.2 _)
  | unstake v amount =>
      have hv := hne v hop
      simp only [Sys.perform, hstaker v hv]
      change (unstake s.pool (s.staker v) amount now >>= _) = _
      cases unstake s.pool (s.staker v) amount now with
      | error e => rfl
      | ok r => exact congrArg Except.ok (hput v hv r.1 r.2 _)
  | claim v vaultKeys =>
      have hv := hne v hop
      simp only [Sys.perform, hstaker v hv]
      change (claimSettleAll s.pool (s.staker v) now >>= _) = _
      cases claimSettleAll s.pool (s.staker v) now with
      | error e => rfl
      | ok r =>
          change (claimTakeAll r.1 r.2 vaultKeys >>= _) =
            (claimTakeAll r.1 r.2 vaultKeys >>= _).map _
          cases claimTakeAll r.1 r.2 vaultKeys with
          | error e => rfl
          | ok q => exact congrArg Except.ok (hput v hv r.1 q.1 _)
  | emergencyWithdraw v =>
      have hv := hne v hop
      simp only [Sys.perform, hstaker v hv]
      exact congrArg Except.ok (hput v hv _ _ _)
  | addReward mint vault durationArg =>
      change (addReward s.pool mint vault durationArg now >>= _) = _
      simp only [Sys.perform]
      cases addReward s.pool mint vault durationArg now <;> rfl
  | setRewardActive slot active =>
      change (setRewardActive s.pool slot active >>= _) = _
      simp only [Sys.perform]
      cases setRewardActive s.pool slot active <;> rfl
  | depositRewards mint received =>
      change (okOr (findSlot s.pool mint) .rewardNotFound >>= fun i =>
        depositRewards s.pool mint received now >>= _) = _
      simp only [Sys.perform]
      cases okOr (findSlot s.pool mint) .rewardNotFound with
      | error e => rfl
      | ok i => cases depositRewards s.pool mint received now <;> rfl
  | setPaused paused => rfl
  | setKeeperAuthority keeper => rfl
  | setAdmin newAdmin => rfl
  | setDuration slot duration =>
      change (setDuration s.pool slot duration >>= _) = _
      simp only [Sys.perform]
      cases setDuration s.pool slot duration <;> rfl

theorem step_refresh {c : Call ι} (h : (s.staker u).Idle s.pool)
    (hlast : ∀ i, 0 ≤ (s.pool.rewards i).lastUpdateTime.val) :
    (s.refresh u).step c = s.step c ∨
      c.op.actor ≠ some u ∧ (s.refresh u).step c = (s.step c).map fun s' => s'.refresh u := by
  by_cases hop : c.op.actor = some u
  · left
    simp only [Sys.step, perform_refresh_own h hlast hop]
    rfl
  · refine .inr ⟨hop, ?_⟩
    simp only [Sys.step, perform_refresh_other hop]
    change (if s.clock.val ≤ c.now.val then _ else _) = _
    split
    · cases s.perform c.now c.op <;> rfl
    · rfl

end Refresh

def Sys.Quiet (s : Sys ι) (u : ι) : Prop :=
  (s.staker u).stakedAmount = 0 ∧ ∀ i, ((s.staker u).entries i).rewardsAccrued = 0

def Op.StakeOf (u : ι) : Op ι → Prop
  | .stake v _ _ _ _ => v = u
  | _ => False

omit [DecidableEq ι] in
theorem stakeOf_of_grow {pool : Pool} {i : Slot} {now : I64} {u : ι} {n : ℕ} (op : Op ι)
    (h : .grow u n ∈ op.acts pool i now) : op.StakeOf u := by
  have hfor : ∀ v, .grow u n ∉ settleActsFor pool i now v := by
    intro v
    unfold settleActsFor
    split <;> simp
  cases op with
  | stake v owner poolKey stakerBump amount =>
      simp only [Op.acts, List.mem_append, hfor, List.mem_singleton, Act.grow.injEq, false_or] at h
      exact h.1.symm
  | addReward mint vault durationArg =>
      simp only [Op.acts] at h
      split at h <;> simp at h
  | depositRewards mint received =>
      simp only [Op.acts, settleActs] at h
      split at h <;> split at h <;> simp at h
  | unstake v amount => simp [Op.acts, hfor] at h
  | claim v vaultKeys => simp [Op.acts, hfor, takeActs] at h
  | emergencyWithdraw v => simp [Op.acts] at h
  | setRewardActive slot active => cases h
  | setDuration slot duration => cases h
  | setPaused paused => cases h
  | setKeeperAuthority keeper => cases h
  | setAdmin newAdmin => cases h

variable [Fintype ι]

section Quiet
variable {s s' : Sys ι} {u : ι}

omit [DecidableEq ι] in
theorem Sys.Inv.idle (hs : s.Inv) (hq : s.Quiet u) : (s.staker u).Idle s.pool :=
  ⟨hq.1, hq.2, fun i _ => (hs.sound i).paid_le u, fun i hi => hs.tidy.empty_entry i hi u⟩

theorem quiet_step (hs : s.Inv) (hq : s.Quiet u) {c : Call ι} (h : s.Step c s')
    (hop : ¬ c.op.StakeOf u) :
    s'.Quiet u ∧ ∀ i, s'.ledger.claimed u i = s.ledger.claimed u i := by
  obtain ⟨hclock, t, ht, rfl⟩ := Sys.step_eq_ok_iff.mp h
  have hidle : ∀ i, ((t.book i).holder u).weight = 0 ∧ ((t.book i).holder u).accrued = 0 ∧
      (t.book i).claimed u = (s.book i).claimed u := by
    intro i
    rw [(hs.simulate (hs.notBefore_of_le hclock) ht i).1]
    exact Book.idle_run (congrArg Unsigned.val hq.1) (congrArg Unsigned.val (hq.2 i))
      fun n hn => hop (stakeOf_of_grow c.op hn)
  exact ⟨⟨Unsigned.ext (hidle 0).1, fun i => Unsigned.ext (hidle i).2.1⟩, fun i => (hidle i).2.2⟩

theorem quiet_attempt (hs : s.Inv) (hq : s.Quiet u) {calls : List (Call ι)}
    (hcalls : ∀ c ∈ calls, ¬ c.op.StakeOf u) :
    (s.attempt calls).Inv ∧ (s.attempt calls).Quiet u ∧
      ∀ i, (s.attempt calls).ledger.claimed u i = s.ledger.claimed u i := by
  induction calls generalizing s with
  | nil => exact ⟨hs, hq, fun _ => rfl⟩
  | cons c rest ih =>
      have hrest : ∀ c ∈ rest, ¬ c.op.StakeOf u := fun c hc => hcalls c (List.mem_cons_of_mem _ hc)
      cases h : s.step c with
      | error e =>
          rw [Sys.attempt_cons_error h]
          exact ih hs hq hrest
      | ok t =>
          obtain ⟨hq', hpaid⟩ := quiet_step hs hq h (hcalls c List.mem_cons_self)
          obtain ⟨hinv, hquiet, hsame⟩ := ih (hs.step h) hq' hrest
          rw [Sys.attempt_cons_ok h]
          exact ⟨hinv, hquiet, fun i => (hsame i).trans (hpaid i)⟩

/-- The two states stay equal up to the entries of the quiet staker, or become equal. -/
theorem attempt_refresh (hs : s.Inv) (hq : s.Quiet u) (calls : List (Call ι)) :
    (s.refresh u).attempt calls = s.attempt calls ∨
      ((s.attempt calls).Inv ∧ (s.attempt calls).Quiet u) ∧
        (s.refresh u).attempt calls = (s.attempt calls).refresh u := by
  induction calls generalizing s with
  | nil => exact .inr ⟨⟨hs, hq⟩, rfl⟩
  | cons c rest ih =>
      have hstep := step_refresh (c := c) (hs.idle hq) hs.tidy.last_nonneg
      cases h : s.step c with
      | error e =>
          have h' : (s.refresh u).step c = .error e := by
            rcases hstep with hsame | ⟨-, hmap⟩
            · rw [hsame, h]
            · rw [hmap, h]
              rfl
          rw [Sys.attempt_cons_error h, Sys.attempt_cons_error h']
          exact ih hs hq
      | ok t =>
          rcases hstep with hsame | ⟨hop, hmap⟩
          · rw [Sys.attempt_cons_ok h, Sys.attempt_cons_ok (hsame.trans h)]
            exact .inl rfl
          · have hother : ¬ c.op.StakeOf u := by
              intro hstake
              cases hc : c.op <;> simp_all [Op.StakeOf, Op.actor]
            rw [h] at hmap
            rw [Sys.attempt_cons_ok h, Sys.attempt_cons_ok hmap]
            exact ih (hs.step h) (quiet_step hs hq h hother).1

theorem quiet_restake {c : Call ι} (hs : s.Inv) (hq : s.Quiet u) (h : s.Step c s')
    (hop : c.op.StakeOf u) (i : Slot) :
    (s'.staker u).entries i =
        { rewardPerTokenPaid := (s'.pool.rewards i).rewardPerTokenStored, rewardsAccrued := 0 } ∧
      s'.ledger.claimed u i = s.ledger.claimed u i := by
  obtain ⟨now, op⟩ := c
  obtain ⟨hclock, t, ht, rfl⟩ := Sys.step_eq_ok_iff.mp h
  have h0 := (hs.notBefore_of_le hclock).1
  cases op with
  | stake v owner poolKey stakerBump amount =>
      cases hop
      obtain ⟨-, -, p₁, a₁, staked, total, hslots, he, -, -, rfl⟩ := perform_stake_eq_ok_iff.mp ht
      have hidle := ((hs.idle hq).opened owner poolKey stakerBump).settleSlots
        hs.tidy.last_nonneg hslots
      cases hidle.settleEntries.symm.trans he
      refine ⟨?_, rfl⟩
      change (Function.update s.staker u _ u).entries i = _
      rw [Function.update_self]
      dsimp only
      split
      · rfl
      · rename_i hi
        have hempty := (Tidy.settleSlots hs.tidy h0 hslots).empty_slot i hi
        change RewardEntry.zeroed = ⟨(p₁.rewards i).rewardPerTokenStored, 0⟩
        rw [hempty]
        rfl
  | _ => exact hop.elim

end Quiet

/-- A staker that has left cannot be told from a fresh one: with its entries zeroed, any
later calls succeed alike and leave the same pool, ledger and accounts, but for its own
checkpoints. In particular it returns with nothing accrued and nothing paid meanwhile. -/
theorem exited_is_fresh {s : Sys ι} (hs : s.Reachable) {u : ι}
    (hstaked : (s.staker u).stakedAmount = 0)
    (haccrued : ∀ i, ((s.staker u).entries i).rewardsAccrued = 0) (calls : List (Call ι)) :
    ((s.refresh u).attempt calls).pool = (s.attempt calls).pool ∧
    ((s.refresh u).attempt calls).ledger = (s.attempt calls).ledger ∧
    (∀ v, v ≠ u → ((s.refresh u).attempt calls).staker v = (s.attempt calls).staker v) ∧
    (((s.refresh u).attempt calls).staker u).stakedAmount =
      ((s.attempt calls).staker u).stakedAmount ∧
    (∀ i, ((((s.refresh u).attempt calls).staker u).entries i).rewardsAccrued =
      (((s.attempt calls).staker u).entries i).rewardsAccrued) ∧
    (∀ c, (∃ t, ((s.refresh u).attempt calls).step c = .ok t) ↔
      ∃ t, (s.attempt calls).step c = .ok t) ∧
    ((∀ c ∈ calls, ¬ c.op.StakeOf u) → ∀ c t, c.op.StakeOf u →
      (s.attempt calls).step c = .ok t → ∀ i,
        (t.staker u).entries i =
          { rewardPerTokenPaid := (t.pool.rewards i).rewardPerTokenStored, rewardsAccrued := 0 } ∧
        t.ledger.claimed u i = s.ledger.claimed u i) := by
  have hinv := hs.inv
  have hq : s.Quiet u := ⟨hstaked, haccrued⟩
  have hreturn : (∀ c ∈ calls, ¬ c.op.StakeOf u) → ∀ c t, c.op.StakeOf u →
      (s.attempt calls).step c = .ok t → ∀ i,
        (t.staker u).entries i =
          { rewardPerTokenPaid := (t.pool.rewards i).rewardPerTokenStored, rewardsAccrued := 0 } ∧
        t.ledger.claimed u i = s.ledger.claimed u i := by
    intro hcalls c t hop h i
    obtain ⟨hinv', hq', hpaid⟩ := quiet_attempt hinv hq hcalls
    obtain ⟨hentry, hclaimed⟩ := quiet_restake hinv' hq' h hop i
    exact ⟨hentry, hclaimed.trans (hpaid i)⟩
  rcases attempt_refresh hinv hq calls with heq | ⟨⟨hinv', hq'⟩, heq⟩
  · rw [heq]
    exact ⟨rfl, rfl, fun _ _ => rfl, rfl, fun _ => rfl, fun _ => Iff.rfl, hreturn⟩
  · rw [heq]
    have hself : ((s.attempt calls).refresh u).staker u = ((s.attempt calls).staker u).blank :=
      Function.update_self _ _ _
    refine ⟨rfl, rfl, ?_, ?_, ?_, ?_, hreturn⟩
    · intro v hv
      exact Function.update_of_ne hv _ _
    · rw [hself]
      rfl
    · intro i
      rw [hself, hq'.2 i]
      rfl
    · intro c
      rcases step_refresh (c := c) (hinv'.idle hq') hinv'.tidy.last_nonneg with hsame | ⟨-, hmap⟩
      · rw [hsame]
      · rw [hmap]
        cases (s.attempt calls).step c <;> simp [Except.map]

/-- The second staker of the trial run exits, the stream goes on for the first, and the
second stakes again at 80: from a blank account it would own the same, and it starts with
nothing. -/
theorem exited_is_fresh_trial : ∃ s : Sys (Fin 2), s.Reachable ∧ ∃ t,
    s.step ⟨80, .stake 1 2 9 254 500⟩ = .ok t ∧
    ((s.staker 1).entries 0).rewardPerTokenPaid ≠ 0 ∧
    ((s.refresh 1).attempt [⟨80, .stake 1 2 9 254 500⟩]).pool =
      (s.attempt [⟨80, .stake 1 2 9 254 500⟩]).pool ∧
    ((t.staker 1).entries 0).rewardsAccrued = 0 := by
  obtain ⟨s, hdef⟩ : ∃ s, s = Sys.trial.attempt [⟨60, .emergencyWithdraw 1⟩, ⟨70, .claim 0 [11]⟩] :=
    ⟨_, rfl⟩
  have hs : s.Reachable := hdef ▸ Sys.reachable_trial.attempt _
  have hstaked : (s.staker 1).stakedAmount = 0 := by
    rw [hdef]
    decide +kernel
  have haccrued : ∀ i, ((s.staker 1).entries i).rewardsAccrued = 0 := by
    rw [hdef]
    decide +kernel
  have hstale : ((s.staker 1).entries 0).rewardPerTokenPaid ≠ 0 := by
    rw [hdef]
    decide +kernel
  obtain ⟨t, ht⟩ := exists_ok (x := s.step ⟨80, .stake 1 2 9 254 500⟩) (by
    rw [hdef]
    decide +kernel)
  have hpool := (exited_is_fresh hs hstaked haccrued [⟨80, .stake 1 2 9 254 500⟩]).1
  obtain ⟨-, -, -, -, -, -, hreturn⟩ := exited_is_fresh hs hstaked haccrued []
  have hentry := (hreturn (by simp) ⟨80, .stake 1 2 9 254 500⟩ t rfl ht 0).1
  exact ⟨s, hs, t, ht, hstale, hpool, by rw [hentry]⟩

end MmStaking
