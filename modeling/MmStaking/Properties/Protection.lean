import MmStaking.Lib.Claimable
import MmStaking.Refine.Invariant
import MmStaking.Refine.Terms

/-! Protection of claims: nothing that others do, and nothing done at the same time,
takes from a staker what it could claim or hands it more. -/
namespace MmStaking
open Words Loops Runs Accrual

variable {ι : Type}

/-- What `v` could claim from slot `i` at `now`: its accrued reward after `update_reward`. -/
def Sys.claimable (s : Sys ι) (v : ι) (i : Slot) (now : I64) : Result U64 := do
  let (_, lent) ← updateReward s.pool (some (s.staker v)) now
  return ((lent.getD (s.staker v)).entries i).rewardsAccrued

theorem Sys.claimable_eq_ok_iff {s : Sys ι} {v : ι} {i : Slot} {now : I64} {e : U64} :
    s.claimable v i now = .ok e ↔ ∃ pool account, settleSlots s.pool now = .ok pool ∧
      settleEntries pool (s.staker v) = .ok account ∧ (account.entries i).rewardsAccrued = e := by
  simp only [Sys.claimable, bind_eq_ok_iff, pure_eq_ok_iff, Prod.exists,
    updateReward_some_eq_ok_iff]
  constructor
  · rintro ⟨pool, lent, ⟨hs, account, he, rfl⟩, hacc⟩
    exact ⟨pool, account, hs, he, hacc⟩
  · rintro ⟨pool, account, hs, he, hacc⟩
    exact ⟨pool, some account, ⟨hs, account, he, rfl⟩, hacc⟩

theorem mem_acts {pool : Pool} {i : Slot} {now : I64} (op : Op ι) (v : ι) :
    (.exit v ∈ op.acts pool i now → op = .emergencyWithdraw v) ∧
      (.take v ∈ op.acts pool i now → ∃ keys, op = .claim v keys) := by
  have hfor : ∀ u, .exit v ∉ settleActsFor pool i now u ∧ .take v ∉ settleActsFor pool i now u := by
    intro u
    unfold settleActsFor
    split <;> simp
  cases op with
  | addReward mint vault durationArg =>
      simp only [Op.acts]
      split <;> simp
  | stake u owner poolKey stakerBump amount => simp [Op.acts, hfor]
  | unstake u amount => simp [Op.acts, hfor]
  | depositRewards mint received =>
      simp only [Op.acts, settleActs]
      split <;> split <;> simp
  | claim u keys =>
      refine ⟨?_, fun h => ⟨keys, ?_⟩⟩
      · intro h
        simp [Op.acts, hfor, takeActs] at h
      · simp only [Op.acts, List.mem_append, hfor, false_or, takeActs, List.mem_map] at h
        obtain ⟨key, -, hu⟩ := h
        cases hu
        rfl
  | emergencyWithdraw u => simp [Op.acts, eq_comm]
  | setRewardActive slot active => simp [Op.acts]
  | setDuration slot duration => simp [Op.acts]
  | setPaused paused => simp [Op.acts]
  | setKeeperAuthority keeper => simp [Op.acts]
  | setAdmin newAdmin => simp [Op.acts]

theorem Sys.claimable_val {s : Sys ι} (ht : s.Tidy) {v : ι} {i : Slot} (hi : s.pool.Registered i)
    {now : I64} {e : U64} (h : s.claimable v i now = .ok e) :
    e.val = (s.book i).claimable P v now.val := by
  obtain ⟨pool, account, hs, he, rfl⟩ := Sys.claimable_eq_ok_iff.mp h
  have hview := congrArg Holder.accrued (settle_views ht.last_nonneg hs he hi).2
  simp only [Book.claimable, Sys.book, bookOf, Int.toNat_natCast]
  exact hview

variable [DecidableEq ι]

/-- On an occupied slot every instruction settles before it touches stream or weights. -/
theorem timely_acts {pool : Pool} {i : Slot} (hi : pool.Registered i) (now : I64) (op : Op ι)
    (b : Book ι) : Book.Along P (Book.Timely now.val) b (op.acts pool i now) := by
  have hfor : ∀ v : ι, settleActsFor pool i now v = [.settle now.val, .checkpoint v] :=
    fun v => if_pos hi
  cases op with
  | addReward mint vault durationArg =>
      rw [Op.acts, if_neg fun hf => freeSlot_some hf hi]
      trivial
  | stake v owner poolKey stakerBump amount =>
      rw [Op.acts, hfor]
      exact ⟨rfl, Stream.settle_last _, Stream.settle_last _, trivial⟩
  | unstake v amount =>
      rw [Op.acts, hfor]
      exact ⟨rfl, Stream.settle_last _, Stream.settle_last _, trivial⟩
  | depositRewards mint received =>
      rw [Op.acts, settleActs, if_pos hi]
      refine ⟨rfl, ?_⟩
      split
      · exact ⟨rfl, trivial⟩
      · trivial
  | claim v vaultKeys =>
      rw [Op.acts, hfor]
      refine ⟨rfl, Stream.settle_last _, ?_⟩
      refine Book.Along.mono (Q := fun _ a => a = .take v) ?_ (Book.along_of_forall ?_ _)
      · intro b a ha
        rw [ha]
        trivial
      · intro a ha
        obtain ⟨key, -, rfl⟩ := List.mem_map.mp ha
        rfl
  | emergencyWithdraw v => exact ⟨trivial, trivial⟩
  | setRewardActive slot active => trivial
  | setDuration slot duration => trivial
  | setPaused paused => trivial
  | setKeeperAuthority keeper => trivial
  | setAdmin newAdmin => trivial

variable [Fintype ι]

section Perform
variable {s s' : Sys ι} {now : I64} {op : Op ι} {v : ι} {i : Slot}

theorem worth_perform (hs : s.Inv) (hnow : s.NotBefore now) (hi : s.pool.Registered i)
    (h : s.perform now op = .ok s') (hown : op ≠ .emergencyWithdraw v) :
    (s.book i).worth P v now.val ≤ (s'.book i).worth P v now.val ∧
      ((∀ u, op ≠ .emergencyWithdraw u) →
        (s'.book i).worth P v now.val = (s.book i).worth P v now.val) := by
  obtain ⟨hbook, hallowed⟩ := hs.simulate hnow h i
  obtain ⟨hle, heq⟩ := Book.worth_run (v := v) (hs.sound i)
    (hallowed.and (timely_acts hi now op (s.book i))) (mt (mem_acts op v).1 hown)
  rw [hbook]
  exact ⟨hle, fun hno => heq fun u => mt (mem_acts op u).1 (hno u)⟩

theorem claimed_perform (hs : s.Inv) (hnow : s.NotBefore now) (h : s.perform now op = .ok s')
    (hclaim : ∀ keys, op ≠ .claim v keys) : (s'.book i).claimed v = (s.book i).claimed v := by
  rw [(hs.simulate hnow h i).1]
  refine Book.run_claimed ?_
  intro hmem
  obtain ⟨keys, hop⟩ := (mem_acts op v).2 hmem
  exact hclaim keys hop

end Perform

theorem worth_along {s s' : Sys ι} (hs : s.Inv) {v : ι} {i : Slot} (hi : s.pool.Registered i)
    {h : List (Sys ι × Call ι)} (r : Run Sys.Step s h s')
    (hown : ∀ x ∈ h, x.2.op ≠ .emergencyWithdraw v) :
    (s.book i).worth P v s.clock.val ≤ (s'.book i).worth P v s'.clock.val ∧
      s'.pool.Registered i ∧ s'.Inv := by
  refine r.guarded_invariant
    (I := fun t => (s.book i).worth P v s.clock.val ≤ (t.book i).worth P v t.clock.val ∧
      t.pool.Registered i ∧ t.Inv)
    (G := fun _ c => c.op ≠ .emergencyWithdraw v) ⟨le_rfl, hi, hs⟩ hown ?_
  intro t c t' ⟨hle, hreg, ht⟩ hop hstep
  obtain ⟨hclock, u, hu, rfl⟩ := Sys.step_eq_ok_iff.mp hstep
  have hnow := ht.notBefore_of_le hclock
  refine ⟨?_, (perform_registered ht.tidy.last_nonneg hu hreg).2, ht.step hstep⟩
  calc (s.book i).worth P v s.clock.val
      ≤ (t.book i).worth P v t.clock.val := hle
    _ ≤ (t.book i).worth P v c.now.val := Nat.add_le_add_left (Book.claimable_mono hclock) _
    _ ≤ (u.book i).worth P v c.now.val := (worth_perform ht hnow hreg hu hop).1

/-- What a staker could claim is left alone by everything done at the same time except
another's exit, which can only raise it, and otherwise grows with time. So along a run
without its own exit its claimed plus claimable reward never falls. -/
theorem claim_protected {s : Sys ι} (hs : s.Reachable) (v : ι) {i : Slot}
    (hi : s.pool.Registered i) {now : I64}
    (hnow : ∀ j, (s.pool.rewards j).lastUpdateTime.val ≤ now.val) {e : U64}
    (he : s.claimable v i now = .ok e) :
    (∀ op s' e', s.perform now op = .ok s' → s'.claimable v i now = .ok e' →
      (∀ keys, op ≠ .claim v keys) → op ≠ .emergencyWithdraw v →
        e.val ≤ e'.val ∧ ((∀ u, op ≠ .emergencyWithdraw u) → e' = e)) ∧
    (∀ t e', now.val ≤ t.val → s.claimable v i t = .ok e' → e.val ≤ e'.val) ∧
    (∀ h s' t e', Run Sys.Step s h s' → (∀ x ∈ h, x.2.op ≠ .emergencyWithdraw v) →
      now.val ≤ s.clock.val → s'.clock.val ≤ t.val → s'.claimable v i t = .ok e' →
        s.ledger.claimed v i + e.val ≤ s'.ledger.claimed v i + e'.val) := by
  have hinv := hs.inv
  have hlast : s.NotBefore now :=
    ⟨(hinv.tidy.last_nonneg 0).trans (hnow 0), fun j _ => hnow j⟩
  have hval := Sys.claimable_val hinv.tidy hi he
  refine ⟨?_, ?_, ?_⟩
  · intro op s' e' hop he' hclaim hown
    have hinv' := hinv.perform hlast hop
    have hval' : e'.val = (s'.book i).claimable P v now.val :=
      Sys.claimable_val hinv'.tidy (perform_registered hinv.tidy.last_nonneg hop hi).2 he'
    have hpaid := claimed_perform (i := i) hinv hlast hop hclaim
    obtain ⟨hle, heq⟩ := worth_perform hinv hlast hi hop hown
    simp only [Book.worth, hpaid, ← hval, ← hval'] at hle heq
    exact ⟨Nat.le_of_add_le_add_left hle, fun hno => Unsigned.ext (Nat.add_left_cancel (heq hno))⟩
  · intro t e' hle he'
    rw [hval, Sys.claimable_val hinv.tidy hi he']
    exact Book.claimable_mono hle
  · intro h s' t e' r hown hclock hclock' he'
    obtain ⟨hle, hi', hinv'⟩ := worth_along hinv hi r hown
    rw [hval, Sys.claimable_val hinv'.tidy hi' he']
    calc (s.book i).worth P v now.val
        ≤ (s.book i).worth P v s.clock.val := Nat.add_le_add_left (Book.claimable_mono hclock) _
      _ ≤ (s'.book i).worth P v s'.clock.val := hle
      _ ≤ (s'.book i).worth P v t.val := Nat.add_le_add_left (Book.claimable_mono hclock') _

/-- The second staker of the trial run could claim 375 at 60, and still can after the first
has left at that time. -/
theorem claim_protected_trial : ∃ s' : Sys (Fin 2), ∃ e : U64, e.val = 375 ∧
    Sys.trial.perform 60 (.unstake 0 100) = .ok s' ∧
    Sys.trial.claimable 1 0 60 = .ok e ∧ s'.claimable 1 0 60 = .ok e := by
  have he : Sys.trial.claimable 1 0 60 = .ok 375 := by decide +kernel
  obtain ⟨e', he'⟩ := exists_ok (x := do
    let s' ← Sys.trial.perform 60 (.unstake 0 100)
    s'.claimable 1 0 60) (by decide +kernel)
  obtain ⟨s', hop, he'⟩ := bind_eq_ok_iff.mp he'
  have hprotected := claim_protected Sys.reachable_trial 1 (by decide +kernel)
    (by decide +kernel) he
  have hsame := (hprotected.1 _ s' e' hop he' (fun _ => by simp) (by simp)).2 fun _ => by simp
  exact ⟨s', 375, rfl, hop, he, hsame ▸ he'⟩

end MmStaking
