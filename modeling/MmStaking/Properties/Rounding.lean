import MmStaking.Lib.Repeated
import MmStaking.Properties.Solvency

/-! Frequent settlement: a staker settled again and again, against the same staker
settled once at the last of the times. Each settlement rounds the reward per token and
the reward down; nothing else is lost. -/
namespace MmStaking
open Words Loops Accrual

variable {ι : Type}

/-- `update_reward` with one staker at each time in turn. -/
def settleAtFor (pool : Pool) (staker : StakerAccount) :
    List I64 → Result (Pool × StakerAccount)
  | [] => .ok (pool, staker)
  | now :: rest => do
      let (pool, lent) ← updateReward pool (some staker) now
      settleAtFor pool (lent.getD staker) rest

theorem settleAtFor_cons_eq_ok_iff {pool pool' : Pool} {staker staker' : StakerAccount}
    {now : I64} {rest : List I64} :
    settleAtFor pool staker (now :: rest) = .ok (pool', staker') ↔
      ∃ pool₁ staker₁, settleSlots pool now = .ok pool₁ ∧
        settleEntries pool₁ staker = .ok staker₁ ∧
        settleAtFor pool₁ staker₁ rest = .ok (pool', staker') := by
  simp only [settleAtFor, bind_eq_ok_iff, Prod.exists, updateReward_some_eq_ok_iff]
  constructor
  · rintro ⟨pool₁, lent, ⟨hs, staker₁, he, rfl⟩, hrest⟩
    exact ⟨pool₁, staker₁, hs, he, hrest⟩
  · rintro ⟨pool₁, staker₁, hs, he, hrest⟩
    exact ⟨pool₁, some staker₁, ⟨hs, staker₁, he, rfl⟩, hrest⟩

/-- A slot and an entry that can be settled together at `t`, under a stake of `w`. -/
structure Covered (w : ℕ) (s : Stream) (h : Holder) (t : ℤ) : Prop where
  last_le : s.last ≤ t
  paid_le : h.paid ≤ s.index
  scaled_lt : s.elapsed t * s.rate < 2 ^ 128
  index_lt : (s.settle w t).index < 2 ^ 128
  gain_lt : h.weight * ((s.settle w t).index - h.paid) < 2 ^ 128
  accrued_lt : (h.settle P (s.settle w t).index).accrued < 2 ^ 64

section Covered
variable {w : ℕ} {s : Stream} {h : Holder} {t t' : ℤ}

theorem Covered.earlier (hc : Covered w s h t') (hlast : s.last ≤ t) (hle : t ≤ t') :
    Covered w s h t := by
  have hidx : (s.settle w t).index ≤ (s.settle w t').index := Stream.settle_index_mono s hle
  have hgain : h.weight * ((s.settle w t).index - h.paid) ≤
      h.weight * ((s.settle w t').index - h.paid) :=
    Nat.mul_le_mul_left _ (Nat.sub_le_sub_right hidx _)
  refine ⟨hlast, hc.paid_le, ?_, hidx.trans_lt hc.index_lt, hgain.trans_lt hc.gain_lt, ?_⟩
  · exact (Nat.mul_le_mul_right _ (Stream.elapsed_mono s hle)).trans_lt hc.scaled_lt
  · exact (Nat.add_le_add_left (Nat.div_le_div_right hgain) _).trans_lt hc.accrued_lt

theorem Covered.later (hw : 0 < w) (hc : Covered w s h t') (hlast : s.last ≤ t) (hle : t ≤ t') :
    Covered w (s.settle w t) (h.settle P (s.settle w t).index) t' := by
  have hadd := Stream.elapsed_add s hw hlast hle
  have hidx := (Stream.settle_settle_index s hw hlast hle).1
  have hmono : s.index ≤ (s.settle w t).index := Stream.index_le_settle s
  have hmono' : (s.settle w t).index ≤ ((s.settle w t).settle w t').index :=
    Stream.index_le_settle (s.settle w t)
  have hgain : h.weight * (((s.settle w t).settle w t').index - (s.settle w t).index) ≤
      h.weight * ((s.settle w t').index - h.paid) := by
    have := hc.paid_le
    exact Nat.mul_le_mul_left _ (by omega)
  refine ⟨?_, le_rfl, ?_, hidx.trans_lt hc.index_lt, hgain.trans_lt hc.gain_lt, ?_⟩
  · rw [Stream.settle_last]
    exact hle
  · rw [Stream.settle_rate]
    refine (Nat.mul_le_mul_right _ ?_).trans_lt hc.scaled_lt
    omega
  · have hsum : h.weight * ((s.settle w t).index - h.paid) +
        h.weight * (((s.settle w t).settle w t').index - (s.settle w t).index) ≤
        h.weight * ((s.settle w t').index - h.paid) := by
      have := hc.paid_le
      rw [← Nat.mul_add]
      exact Nat.mul_le_mul_left _ (by omega)
    have hdiv := Nat.div_add_div_le_add_div.trans (Nat.div_le_div_right (c := P) hsum)
    refine lt_of_le_of_lt ?_ hc.accrued_lt
    simp only [Holder.settle]
    omega

end Covered

section Accounts
variable {pool pool' : Pool} {staker staker' : StakerAccount} {now : I64}

def CoveredAt (pool : Pool) (staker : StakerAccount) (t : ℤ) : Prop :=
  ∀ i, pool.Registered i →
    Covered pool.totalStaked.val (pool.rewards i).stream (staker.holder i) t

variable (hlast : ∀ i, 0 ≤ (pool.rewards i).lastUpdateTime.val)
include hlast

theorem settle_of_coveredAt (hT : 0 < pool.totalStaked.val) (hc : CoveredAt pool staker now.val) :
    ∃ pool' staker', settleSlots pool now = .ok pool' ∧
      settleEntries pool' staker = .ok staker' := by
  obtain ⟨pool', hs⟩ := (settleSlots_isOk_iff hlast).mpr fun i hi =>
    ⟨fun _ => ⟨(hc i hi).scaled_lt, (hc i hi).index_lt⟩, fun h0 => absurd h0 hT.ne'⟩
  obtain ⟨staker', he⟩ : ∃ staker', settleEntries pool' staker = .ok staker' := by
    refine settleEntries_isOk ?_
    intro i hi
    have hi' := (settleSlots_registered hlast hs i).mp hi
    have hci := hc i hi'
    rw [settleSlots_index hlast hs hi']
    exact ⟨hci.paid_le.trans (Stream.index_le_settle _), hci.gain_lt, hci.accrued_lt⟩
  exact ⟨pool', staker', hs, he⟩

theorem coveredAt_of_settle (hT : 0 < pool.totalStaked.val)
    (hnow : ∀ i, pool.Registered i → (pool.rewards i).lastUpdateTime.val ≤ now.val)
    (hpaid : ∀ i, pool.Registered i →
      (staker.holder i).paid ≤ (pool.rewards i).rewardPerTokenStored.val)
    (hs : settleSlots pool now = .ok pool') (he : settleEntries pool' staker = .ok staker') :
    CoveredAt pool staker now.val := by
  intro i hi
  have hfit := (settleSlots_isOk_iff hlast).mp ⟨pool', hs⟩ i hi
  have hentry := (settleEntries_eq_ok_iff.mp he).2 i
  rw [if_pos ((settleSlots_registered hlast hs i).mpr hi),
    settleSlots_index hlast hs hi] at hentry
  refine ⟨hnow i hi, hpaid i hi, (hfit.1 hT).1, (hfit.1 hT).2, hentry.2.1, ?_⟩
  rw [← hentry.2.2]
  exact (staker'.entries i).rewardsAccrued.isLt

/-- Covered at the last of the times, the settlements all succeed, and every registered
slot and entry goes through them as its stream and holder do. -/
theorem settleAtFor_isOk (hT : 0 < pool.totalStaked.val) {rest : List I64}
    (hnow : ∀ i, pool.Registered i → (pool.rewards i).lastUpdateTime.val ≤ now.val)
    (h0 : 0 ≤ now.val) (hts : List.IsChain (· ≤ ·) ((now :: rest).map Signed.val))
    (hc : CoveredAt pool staker ((rest.map Signed.val).getLastD now.val)) :
    ∃ pool' staker', settleAtFor pool staker (now :: rest) = .ok (pool', staker') ∧
      ∀ i, pool.Registered i →
        ((pool'.rewards i).stream, staker'.holder i) =
          settleBoth P pool.totalStaked.val ((pool.rewards i).stream, staker.holder i)
            ((now :: rest).map Signed.val) := by
  induction rest generalizing pool staker now with
  | nil =>
      obtain ⟨pool', staker', hs, he⟩ := settle_of_coveredAt hlast hT hc
      refine ⟨pool', staker', settleAtFor_cons_eq_ok_iff.mpr ⟨pool', staker', hs, he, rfl⟩, ?_⟩
      intro i hi
      obtain ⟨hstream, hholder⟩ := settle_views hlast hs he hi
      rw [hstream, hholder]
      rfl
  | cons now' rest ih =>
      rw [List.map_cons, List.map_cons] at hts
      obtain ⟨hle, hrest⟩ := List.isChain_cons_cons.mp hts
      rw [List.map_cons, List.getLastD_cons] at hc
      have hend : now'.val ≤ (rest.map Signed.val).getLastD now'.val := by
        rcases List.mem_cons.mp (List.getLastD_mem_cons (l := rest.map Signed.val)
          (a := now'.val)) with heq | hmem
        · exact heq.ge
        · exact hrest.rel_cons hmem
      obtain ⟨pool₁, staker₁, hs, he⟩ := settle_of_coveredAt hlast hT
        fun i hi => (hc i hi).earlier (hnow i hi) (hle.trans hend)
      have hreg := settleSlots_registered hlast hs
      have htotal : pool₁.totalStaked = pool.totalStaked := settleSlots_totalStaked hs
      have hview := fun i (hi : pool.Registered i) => settle_views hlast hs he hi
      have hlast₁ : ∀ i, pool.Registered i → (pool₁.rewards i).lastUpdateTime.val = now.val :=
        fun i hi => (congrArg Stream.last (hview i hi).1).trans (Stream.settle_last _)
      have hnonneg : ∀ i, 0 ≤ (pool₁.rewards i).lastUpdateTime.val := fun i => by
        by_cases hi : pool.Registered i
        · rw [hlast₁ i hi]
          exact h0
        · rw [settleSlots_empty hs hi]
          exact hlast i
      have hc₁ : CoveredAt pool₁ staker₁ ((rest.map Signed.val).getLastD now'.val) := by
        intro i hi
        have hi' := (hreg i).mp hi
        obtain ⟨hstream, hholder⟩ := hview i hi'
        rw [htotal, hstream, hholder]
        exact (hc i hi').later hT (hnow i hi') (hle.trans hend)
      have hT₁ : 0 < pool₁.totalStaked.val := by rwa [htotal]
      obtain ⟨pool', staker', hok, hboth⟩ := ih hnonneg hT₁
        (fun i hi => (hlast₁ i ((hreg i).mp hi)).trans_le hle) (h0.trans hle) hrest hc₁
      refine ⟨pool', staker',
        settleAtFor_cons_eq_ok_iff.mpr ⟨pool₁, staker₁, hs, he, hok⟩, ?_⟩
      intro i hi
      obtain ⟨hstream, hholder⟩ := hview i hi
      rw [hboth i ((hreg i).mpr hi), htotal, hstream, hholder]
      rfl

end Accounts

variable [Fintype ι] [DecidableEq ι]

/-- If a staker can be settled once at the last of the times, it can be settled at each
of them. That gives it no more, and less only by rounding: at most its stake for every
further settlement and under one unit for each, in units of `1 / PRECISION`. While the
stakes counted stay within `PRECISION`, that is at most one whole unit a settlement. -/
theorem frequent_settlement_loss {s : Sys ι} (hs : s.Reachable) (hT : 0 < s.pool.totalStaked.val)
    {v : ι} {now : I64} {rest : List I64} (hnow : s.NotBefore now)
    (hts : List.IsChain (· ≤ ·) ((now :: rest).map Signed.val)) {pool : Pool}
    {account : StakerAccount} (h : updateReward s.pool (some (s.staker v)) (rest.getLastD now) =
      .ok (pool, some account)) :
    ∃ pool' account', settleAtFor s.pool (s.staker v) (now :: rest) = .ok (pool', account') ∧
      ∀ i, s.pool.Registered i →
        (account'.entries i).rewardsAccrued.val ≤ (account.entries i).rewardsAccrued.val ∧
        PRECISION.val * (account.entries i).rewardsAccrued.val ≤
          PRECISION.val * (account'.entries i).rewardsAccrued.val +
            rest.length * (s.staker v).stakedAmount.val +
              (rest.length + 1) * (PRECISION.val - 1) ∧
        (rest.length * (s.staker v).stakedAmount.val ≤ PRECISION.val →
          (account.entries i).rewardsAccrued.val ≤
            (account'.entries i).rewardsAccrued.val + (rest.length + 1)) := by
  have hnonneg := hs.inv.tidy.last_nonneg
  obtain ⟨hslots, _, hentries, heq⟩ := updateReward_some_eq_ok_iff.mp h
  cases heq
  have hgetLast : (rest.map Signed.val).getLastD now.val = (rest.getLastD now).val := by
    rw [List.getLastD_map]
  have hend : now.val ≤ (rest.getLastD now).val := by
    rw [← hgetLast]
    rcases List.mem_cons.mp (List.getLastD_mem_cons (l := rest.map Signed.val)
      (a := now.val)) with heq | hmem
    · exact heq.ge
    · exact List.IsChain.rel_cons hts hmem
  have hpaid : ∀ i, s.pool.Registered i →
      ((s.staker v).holder i).paid ≤ (s.pool.rewards i).rewardPerTokenStored.val :=
    fun i _ => (hs.inv.sound i).paid_le v
  have hcovered := coveredAt_of_settle hnonneg hT
    (fun i hi => (hnow.2 i hi).trans hend) hpaid hslots hentries
  rw [← hgetLast] at hcovered
  obtain ⟨pool', account', hok, hboth⟩ :=
    settleAtFor_isOk hnonneg hT hnow.2 hnow.1 hts hcovered
  refine ⟨pool', account', hok, ?_⟩
  intro i hi
  have hchain : List.IsChain (· ≤ ·)
      ((s.pool.rewards i).stream.last :: now.val :: rest.map Signed.val) :=
    List.isChain_cons_cons.mpr ⟨hnow.2 i hi, hts⟩
  have hround := settleBoth_rounding P_pos hT (hpaid i hi) hchain
  have hmulti : account'.holder i = (settleBoth P s.pool.totalStaked.val
      ((s.pool.rewards i).stream, (s.staker v).holder i) (now.val :: rest.map Signed.val)).2 :=
    congrArg Prod.snd (hboth i hi)
  have hsingle := (settle_views hnonneg hslots hentries hi).2
  rw [← hgetLast] at hsingle
  rw [← hmulti, ← hsingle, List.length_map] at hround
  refine ⟨hround.1, hround.2, ?_⟩
  intro hsmall
  have hsmall' : rest.length * (s.staker v).stakedAmount.val ≤ P := hsmall
  have hlt : P * (account.entries i).rewardsAccrued.val <
      P * ((account'.entries i).rewardsAccrued.val + (rest.length + 1) + 1) := by
    have hP : (rest.length + 1) * (P - 1) + (rest.length + 1) = (rest.length + 1) * P := by
      rw [← Nat.mul_succ]
      rfl
    have hloss : P * (account.entries i).rewardsAccrued.val ≤
        P * (account'.entries i).rewardsAccrued.val +
          rest.length * (s.staker v).stakedAmount.val + (rest.length + 1) * (P - 1) := hround.2
    rw [Nat.mul_add, Nat.mul_add, Nat.mul_one, Nat.mul_comm P (rest.length + 1)]
    omega
  exact Nat.le_of_lt_succ (Nat.lt_of_mul_lt_mul_left hlt)

/-- The first staker of the trial run, settled at 60 and at 70 instead of at 70 alone. -/
theorem frequent_settlement_loss_trial : ∃ pool account pool' account',
    updateReward Sys.trial.pool (some (Sys.trial.staker 0)) 70 = .ok (pool, some account) ∧
      settleAtFor Sys.trial.pool (Sys.trial.staker 0) [60, 70] = .ok (pool', account') ∧
      (account.entries 0).rewardsAccrued.val ≤ (account'.entries 0).rewardsAccrued.val + 2 := by
  obtain ⟨⟨pool, lent⟩, h⟩ := exists_ok (x := updateReward Sys.trial.pool
    (some (Sys.trial.staker 0)) 70) (by decide +kernel)
  obtain ⟨-, account, -, rfl⟩ := updateReward_some_eq_ok_iff.mp h
  have hnow : Sys.trial.NotBefore 60 := ⟨by decide, by decide +kernel⟩
  have hts : List.IsChain (· ≤ ·) (([60, 70] : List I64).map Signed.val) := by decide
  obtain ⟨pool', account', hok, hall⟩ := frequent_settlement_loss Sys.reachable_trial
    (by decide +kernel) hnow hts h
  exact ⟨pool, account, pool', account', h, hok,
    (hall 0 (by decide +kernel)).2.2 (by decide +kernel)⟩

/-- A pool with a stake so large that one second of the stream rounds to nothing. -/
def Sys.diluted : Sys (Fin 1) :=
  (Sys.fresh 3600).attempt
    [ ⟨0, .addReward 7 11 1000⟩,
      ⟨0, .stake 0 1 9 255 2000000000000000⟩,
      ⟨0, .depositRewards 7 1000000⟩ ]

/-- Settled after four seconds its staker has earned 4000; settled every second, nothing. -/
theorem diluted_burned :
    Sys.diluted.Reachable ∧ 0 < Sys.diluted.pool.totalStaked.val ∧
      Sys.diluted.pool.Registered 0 ∧
      (updateReward Sys.diluted.pool (some (Sys.diluted.staker 0)) 4).map
        (fun r => r.2.map fun a => (a.entries 0).rewardsAccrued.val) = .ok (some 4000) ∧
      (settleAtFor Sys.diluted.pool (Sys.diluted.staker 0) [1, 2, 3, 4]).map
        (fun r => (r.2.entries 0).rewardsAccrued.val) = .ok 0 :=
  ⟨(Sys.Reachable.of_initial (Sys.initial_fresh (by decide))).attempt _, by decide +kernel,
    by decide +kernel, by decide +kernel, by decide +kernel⟩

end MmStaking
