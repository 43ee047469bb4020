import MmStaking.Refine.Packed

/-! Splitting a deposit: amounts deposited one after another at one time, against their sum
deposited once. Only the first deposit settles; each later one adds its own floored rate. -/
namespace MmStaking
open Words Loops Accrual

/-- Deposits of the listed amounts, one after another at the same time. -/
def depositEach (mint : Pubkey) (now : I64) (pool : Pool) (amounts : List U64) : Result Pool :=
  amounts.foldlM (fun pool received => depositRewards pool mint received now) pool

section
variable {pool pool' : Pool} {mint : Pubkey} {now : I64} {i : Slot}

theorem depositRewards_refill {received : U64} (hi : findSlot pool mint = some i)
    (h : depositRewards pool mint received now = .ok pool') :
    ∃ p₁, settleSlots pool now = .ok p₁ ∧ (∀ j, j ≠ i → pool'.rewards j = p₁.rewards j) ∧
      (pool'.rewards i).terms = (p₁.rewards i).terms ∧ 0 < (p₁.rewards i).duration.val ∧
      (pool'.rewards i).stream = (p₁.rewards i).stream.refill P received.val
        (p₁.rewards i).duration.val.toNat now.val := by
  obtain ⟨j, hj, -, p₁, rate, finish, hs, hr, hf, rfl⟩ := depositRewards_eq_ok_iff.mp h
  cases hi.symm.trans hj
  obtain ⟨hd, -, -, hrate⟩ := notifyRate_ok_iff.mp hr
  have hdur : ((p₁.rewards i).duration.val.toNat : ℤ) = (p₁.rewards i).duration.val :=
    Int.toNat_of_nonneg hd.le
  refine ⟨p₁, hs, ?_, ?_, hd, ?_⟩
  · intro j hji
    exact Function.update_of_ne hji _ _
  · simp [Pool.setReward, RewardInfo.terms]
  · simp only [Pool.setReward, Function.update_self, RewardInfo.stream, Stream.refill, hrate, hf,
      hdur]

theorem findSlot_congr (hm : ∀ j, (pool'.rewards j).mint = (pool.rewards j).mint) :
    findSlot pool' mint = findSlot pool mint := by
  simp only [findSlot, hm]

theorem depositRewards_settledAt {received : U64} (hi : findSlot pool mint = some i)
    {p₁ : Pool} (hset : p₁.SettledAt now)
    (hm : ∀ j, (p₁.rewards j).mint = (pool.rewards j).mint)
    (hother : ∀ j, j ≠ i → pool'.rewards j = p₁.rewards j)
    (hterms : (pool'.rewards i).terms = (p₁.rewards i).terms)
    {d : ℕ} (hstream : (pool'.rewards i).stream =
      (p₁.rewards i).stream.refill P received.val d now.val) :
    pool'.SettledAt now ∧ findSlot pool' mint = some i := by
  have hmint : ∀ j, (pool'.rewards j).mint = (p₁.rewards j).mint := by
    intro j
    by_cases hj : j = i
    · rw [hj]
      exact congrArg Prod.fst hterms
    · rw [hother j hj]
  refine ⟨?_, ?_⟩
  · intro j hreg
    by_cases hj : j = i
    · subst hj
      exact Signed.ext (congrArg Stream.last hstream)
    · rw [hother j hj]
      rw [Pool.Registered, hmint] at hreg
      exact hset j hreg
  · rw [findSlot_congr hmint, findSlot_congr hm]
    exact hi

theorem depositEach_refill {amounts : List U64} (hset : pool.SettledAt now)
    (hi : findSlot pool mint = some i) (h : depositEach mint now pool amounts = .ok pool') :
    (∀ j, j ≠ i → pool'.rewards j = pool.rewards j) ∧
      (pool'.rewards i).stream = (pool.rewards i).stream.refillEach P
        (pool.rewards i).duration.val.toNat now.val (amounts.map Unsigned.val) := by
  induction amounts generalizing pool with
  | nil =>
      simp only [depositEach, List.foldlM_nil, pure_eq_ok_iff] at h
      subst h
      exact ⟨fun _ _ => rfl, rfl⟩
  | cons received rest ih =>
      simp only [depositEach, List.foldlM_cons, bind_eq_ok_iff] at h
      obtain ⟨q, hq, hrest⟩ := h
      obtain ⟨p₁, hs, hother, hterms, -, hstream⟩ := depositRewards_refill hi hq
      have hsame : p₁ = pool := Except.ok.inj (hs.symm.trans (settleSlots_of_settledAt hset))
      subst hsame
      obtain ⟨hset', hi'⟩ :=
        depositRewards_settledAt hi hset (fun _ => rfl) hother hterms hstream
      obtain ⟨hother', hstream'⟩ := ih hset' hi' hrest
      have hdur : (q.rewards i).duration = (p₁.rewards i).duration :=
        congrArg (fun t => t.2.2.1) hterms
      refine ⟨?_, ?_⟩
      · intro j hj
        rw [hother' j hj, hother j hj]
      · rw [hstream', hstream, hdur, List.map_cons]
        rfl

end

variable {ι : Type} [DecidableEq ι]

/-- A deposit split over several at the same time ends with the same schedule and reward per
token in every slot, and with a rate at most one scaled unit a second lower for each
deposit after the first. -/
theorem split_deposit {s : Sys ι} (hs : s.Reachable) {i : Slot} (hi : s.pool.Registered i)
    {now : I64} {amounts : List U64} (hne : amounts ≠ []) {total : U64}
    (htotal : total.val = (amounts.map Unsigned.val).sum) {many one : Pool}
    (hmany : depositEach (s.pool.rewards i).mint now s.pool amounts = .ok many)
    (hone : depositRewards s.pool (s.pool.rewards i).mint total now = .ok one) :
    (∀ j, (many.rewards j).periodFinish = (one.rewards j).periodFinish ∧
      (many.rewards j).lastUpdateTime = (one.rewards j).lastUpdateTime ∧
      (many.rewards j).rewardPerTokenStored = (one.rewards j).rewardPerTokenStored) ∧
    (many.rewards i).rewardRate.val ≤ (one.rewards i).rewardRate.val ∧
    (one.rewards i).rewardRate.val ≤ (many.rewards i).rewardRate.val + (amounts.length - 1) := by
  obtain ⟨ht, hp⟩ := hs.registry
  have hfind := (hp.findSlot_iff hi).mpr rfl
  obtain ⟨first, rest, rfl⟩ := List.exists_cons_of_ne_nil hne
  simp only [depositEach, List.foldlM_cons, bind_eq_ok_iff] at hmany
  obtain ⟨q, hq, hrest⟩ := hmany
  -- both ways settle the same pool first
  obtain ⟨p₁, hsettle, hother, hterms, hd, hstream⟩ := depositRewards_refill hfind hq
  obtain ⟨p₂, hsettle', hother', -, -, hstream'⟩ := depositRewards_refill hfind hone
  cases hsettle.symm.trans hsettle'
  have hmint : ∀ j, (p₁.rewards j).mint = (s.pool.rewards j).mint :=
    fun j => congrArg Prod.fst (settleSlots_terms ht.last_nonneg hsettle j)
  obtain ⟨hset, hfind'⟩ := depositRewards_settledAt hfind
    (settleSlots_settledAt ht.last_nonneg hsettle) hmint hother hterms hstream
  obtain ⟨hkept, heach⟩ := depositEach_refill hset hfind' hrest
  have hdur : (q.rewards i).duration = (p₁.rewards i).duration :=
    congrArg (fun t => t.2.2.1) hterms
  have hall : (many.rewards i).stream = (p₁.rewards i).stream.refillEach P
      (p₁.rewards i).duration.val.toNat now.val (first.val :: rest.map Unsigned.val) := by
    rw [heach, hstream, hdur]
    rfl
  obtain ⟨hfinish, hlast, hindex, hle, hge⟩ := (p₁.rewards i).stream.refillEach_sum P
    now.val (d := (p₁.rewards i).duration.val.toNat) (by omega) first.val
    (rest.map Unsigned.val)
  rw [List.map_cons] at htotal
  rw [← hall, ← htotal, ← hstream'] at hfinish hlast hindex hle hge
  refine ⟨?_, hle, ?_⟩
  · intro j
    by_cases hj : j = i
    · subst hj
      exact ⟨Signed.ext hfinish, Signed.ext hlast, Unsigned.ext hindex⟩
    · rw [hkept j hj, hother j hj, hother' j hj]
      exact ⟨rfl, rfl, rfl⟩
  · rw [List.length_map] at hge
    exact hge

/-- Five deposited as 3, 1 and 1 into the running stream of the trial, with a duration of 70
seconds, end within two scaled units a second of the single deposit. -/
theorem split_deposit_trial : ∃ s : Sys (Fin 2), s.Reachable ∧ ∃ many one,
    depositEach 7 60 s.pool [3, 1, 1] = .ok many ∧ depositRewards s.pool 7 5 60 = .ok one ∧
    (many.rewards 0).rewardRate.val ≤ (one.rewards 0).rewardRate.val ∧
    (one.rewards 0).rewardRate.val ≤ (many.rewards 0).rewardRate.val + 2 := by
  let s := Sys.trial.attempt [⟨50, .setDuration 0 70⟩]
  have hs : s.Reachable := Sys.reachable_trial.attempt _
  obtain ⟨many, hmany⟩ := exists_ok (x := depositEach 7 60 s.pool [3, 1, 1])
    (by decide +kernel)
  obtain ⟨one, hone⟩ := exists_ok (x := depositRewards s.pool 7 5 60) (by decide +kernel)
  have hmint : (s.pool.rewards 0).mint = 7 := by decide +kernel
  have hbounds := split_deposit hs (i := 0) (by decide +kernel) (by simp) (by decide +kernel)
    (hmint ▸ hmany) (hmint ▸ hone)
  exact ⟨s, hs, many, one, hmany, hone, hbounds.2.1, hbounds.2.2⟩

end MmStaking
