import MmStaking.Properties.Settling

/-! Durations: they are only checked to be positive, so the one settlement that can
fail is that of an empty pool, when rolling a slot forward leaves the range of a
timestamp. With durations of at most `2^62` seconds it never does. -/
namespace MmStaking
open Words Loops Runs Accrual

variable {ι : Type}

def Op.DurationAtMost (B : ℤ) : Op ι → Prop
  | .addReward _ _ durationArg => durationArg.val ≤ B
  | .setDuration _ duration => duration.val ≤ B
  | .stake _ _ _ _ _ | .unstake _ _ | .depositRewards _ _ | .claim _ _ | .emergencyWithdraw _
  | .setRewardActive _ _ | .setPaused _ | .setKeeperAuthority _ | .setAdmin _ => True

/-- No duration in force, and no rest of a period, is longer than `B`. -/
structure Sys.Short (B : ℤ) (s : Sys ι) : Prop where
  default_le : s.pool.defaultDuration.val ≤ B
  duration_le : ∀ i, (s.pool.rewards i).duration.val ≤ B
  span_le : ∀ i, (s.book i).stream.finish - (s.book i).stream.last ≤ B

theorem terms_duration_le {B : ℤ} {pool : Pool} {op : Op ι} (hop : op.DurationAtMost B)
    (hd : pool.defaultDuration.val ≤ B) (hdur : ∀ i, (pool.rewards i).duration.val ≤ B)
    (i : Slot) : (op.terms pool i).2.2.1.val ≤ B := by
  cases op with
  | addReward mint vault durationArg =>
      simp only [Op.terms]
      split
      · dsimp only
        split
        · exact hop
        · exact hd
      · exact hdur i
  | setDuration slot duration =>
      simp only [Op.terms]
      split
      · exact hop
      · exact hdur i
  | setRewardActive slot active =>
      simp only [Op.terms]
      split <;> exact hdur i
  | _ => exact hdur i

theorem acts_within {B : ℤ} (hB : 0 ≤ B) {pool : Pool}
    (hdur : ∀ i, (pool.rewards i).duration.val ≤ B) {now : I64} (h0 : 0 ≤ now.val) (op : Op ι)
    (i : Slot) : ∀ a ∈ op.acts pool i now, a.Within B := by
  have hrefill : ∀ n,
      (Act.refill n (pool.rewards i).duration.val.toNat now.val : Act ι).Within B := by
    intro n
    have hd := hdur i
    change (((pool.rewards i).duration.val.toNat : ℕ) : ℤ) ≤ B
    omega
  exact Op.forall_acts (Q := Act.Within B) trivial h0 hrefill (fun _ _ => ⟨trivial, trivial⟩)
    (fun _ => ⟨trivial, trivial, trivial⟩) op

variable [DecidableEq ι] [Fintype ι] {s s' : Sys ι} {now : I64}

theorem Sys.Short.perform {B : ℤ} (hB : 0 ≤ B) (hs : s.Inv) (hshort : s.Short B)
    (hnow : s.NotBefore now) {op : Op ι} (hop : op.DurationAtMost B)
    (h : s.perform now op = .ok s') : s'.Short B := by
  obtain ⟨hdefault, -, hterms⟩ := perform_terms hs.tidy.last_nonneg h
  refine ⟨?_, ?_, ?_⟩
  · rw [hdefault]
    exact hshort.default_le
  · intro i
    have hd : (s'.pool.rewards i).duration = (op.terms s.pool i).2.2.1 :=
      congrArg (fun t => t.2.2.1) (hterms i)
    rw [hd]
    exact terms_duration_le hop hshort.default_le hshort.duration_le i
  · intro i
    obtain ⟨hbook, hallowed⟩ := hs.simulate hnow h i
    have hwithin := Book.along_of_forall (P := P)
      (acts_within hB hshort.duration_le hnow.1 op i) (s.book i)
    rw [hbook]
    exact Book.run_invariant (I := fun b => b.stream.finish - b.stream.last ≤ B)
      (fun _ _ hb ha => Book.span_apply hB ha.1 ha.2 hb) (hshort.span_le i)
      (hallowed.and hwithin)

/-- Durations of at most `B` seconds are enough for all times below `2^63 - B`. -/
theorem short_run {B : ℤ} (hB : 0 ≤ B) {s₀ : Sys ι} {h : List (Sys ι × Call ι)}
    (h0 : s₀.Initial) (r : Run Sys.Step s₀ h s) (hdefault : s₀.pool.defaultDuration.val ≤ B)
    (hops : ∀ e ∈ h, e.2.op.DurationAtMost B) : s.Short B := by
  induction r with
  | refl =>
      have hbook := initial_book h0
      obtain ⟨_, _, _, _, _, _, pool, hp, rfl⟩ := h0
      simp only [initPool, bind_eq_ok_iff, require_eq_ok_iff, pure_eq_ok_iff] at hp
      obtain ⟨_, -, rfl⟩ := hp
      exact ⟨hdefault, fun _ => hB, fun i => by rw [hbook i]; simpa using hB⟩
  | tail r hstep ih =>
      have hinv := Sys.Reachable.inv ⟨_, _, h0, r⟩
      have hprev := ih fun e he => hops e (List.mem_append_left _ he)
      obtain ⟨hclock, t, ht, rfl⟩ := Sys.step_eq_ok_iff.mp hstep
      have hshort := hprev.perform hB hinv (hinv.notBefore_of_le hclock)
        (hops _ (List.mem_append_right _ (List.mem_singleton_self _))) ht
      exact ⟨hshort.default_le, hshort.duration_le, hshort.span_le⟩

/-- Settlement of a reachable pool fails only where an empty pool is rolled forward out
of range, and when all durations are at most `2^62` then nothing does before `2^62`: neither
settlement nor any claim, stake or deposit for the parameters of a slot. -/
theorem settlement_never_blocked {s₀ : Sys ι} {h : List (Sys ι × Call ι)} (h0 : s₀.Initial)
    (r : Run Sys.Step s₀ h s) (hb : s.Bounded) (hclock : s.clock.val ≤ now.val) :
    ((∃ pool, updateReward s.pool none now = .ok (pool, none)) ↔
      (s.pool.totalStaked.val = 0 → ∀ i, s.pool.Registered i →
        (s.pool.rewards i).lastUpdateTime.val < now.val →
        now.val < (s.pool.rewards i).periodFinish.val →
        (s.pool.rewards i).periodFinish.val +
          (now.val - (s.pool.rewards i).lastUpdateTime.val) < 2 ^ 63)) ∧
    (s₀.pool.defaultDuration.val ≤ 2 ^ 62 → (∀ e ∈ h, e.2.op.DurationAtMost (2 ^ 62)) →
      now.val < 2 ^ 62 → s.Serves now) := by
  have hs : s.Reachable := ⟨s₀, h, h0, r⟩
  refine ⟨hs.settlement_isOk_iff hb (hs.inv.notBefore_of_le hclock), ?_⟩
  intro hdefault hops hnow
  have hshort := short_run (by decide) h0 r hdefault hops
  refine hs.serves hb hclock ?_ ?_
  · intro _ i _ _ _
    have hspan : (s.pool.rewards i).periodFinish.val - (s.pool.rewards i).lastUpdateTime.val ≤
        2 ^ 62 := hshort.span_le i
    omega
  · intro i _
    have hduration := hshort.duration_le i
    omega

/-- A slot funded for `2^62` seconds while nobody is staked. -/
def Sys.patientCalls : List (Call (Fin 1)) :=
  [ ⟨0, .addReward 7 11 0⟩, ⟨0, .depositRewards 7 1000⟩ ]

def Sys.patientStart : Sys (Fin 1) := Sys.fresh ⟨2 ^ 62, by decide, by decide⟩

def Sys.patient : Sys (Fin 1) := Sys.patientStart.attempt Sys.patientCalls

/-- It serves everyone at the last second before `2^62`, when it rolls its period forward to
the largest timestamp. -/
theorem settlement_never_blocked_trial :
    Sys.patient.pool.totalStaked.val = 0 ∧ (Sys.patient.pool.rewards 0).periodFinish.val = 2 ^ 62 ∧
      Sys.patient.Serves ⟨2 ^ 62 - 1, by decide, by decide⟩ := by
  obtain ⟨h, r, hl⟩ := Sys.attempt_run Sys.patientStart Sys.patientCalls (by decide +kernel)
  refine ⟨by decide +kernel, by decide +kernel,
    (settlement_never_blocked (Sys.initial_fresh (by decide)) r
      ⟨by decide +kernel, by decide +kernel⟩ (by decide +kernel)).2 (by decide) ?_ (by decide)⟩
  intro e he
  have hmem : e.2 ∈ Sys.patientCalls := hl ▸ List.mem_map_of_mem he
  simp only [Sys.patientCalls, List.mem_cons, List.not_mem_nil, or_false] at hmem
  rcases hmem with h | h <;> simp [h, Op.DurationAtMost]

/-- A pool whose default duration is the largest timestamp, funded before anyone stakes. -/
def Sys.endless : Sys (Fin 1) :=
  (Sys.fresh ⟨2 ^ 63 - 1, by decide, by decide⟩).attempt
    [ ⟨0, .addReward 7 11 0⟩, ⟨0, .depositRewards 7 1000⟩ ]

/-- One second after the deposit that pool no longer settles, and nobody can stake. -/
theorem endless_blocked :
    Sys.endless.Reachable ∧ Sys.endless.Bounded ∧ Sys.endless.clock.val ≤ 1 ∧
      updateReward Sys.endless.pool none 1 = .error (.err .mathOverflow) :=
  ⟨(Sys.Reachable.of_initial (Sys.initial_fresh (by decide))).attempt _,
    ⟨by decide +kernel, by decide +kernel⟩, by decide +kernel, by decide +kernel⟩

end MmStaking
