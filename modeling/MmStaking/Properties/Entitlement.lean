import MmStaking.Properties.Authority
import MmStaking.Properties.Distribution
import MmStaking.Properties.Protection

/-! Entitlement: what a staker could claim at some time it can claim at any later one, whatever
anyone does to the pool after that time, until it claims or leaves by the emergency exit. -/
namespace MmStaking
open Words Loops Runs Custody Accrual

/-- The instructions that take what has accrued to a staker, or forfeit it. -/
def Instruction.collects : Instruction → Bool
  | .claim _ | .emergencyWithdraw _ => true
  | .initializePool _ _ _ | .addReward _ _ | .setRewardActive _ _ _ | .stake _ _ | .unstake _ _
  | .depositRewards _ _ | .setPaused _ _ | .setKeeperAuthority _ _ | .setAdmin _ _
  | .setDuration _ _ _ => false

variable {rt : Runtime} {w₀ w w' : World} {h₀ h : List (World × Event)} {p k : Pubkey} {P : Pool}
  {a : StakerAccount} {i : Slot}

theorem Instruction.collects_of_op {ix : Instruction} {op : Op Pubkey} (hop : ix.op rt = some op)
    (hcollects : op = .emergencyWithdraw k ∨ ∃ keys, op = .claim k keys) :
    ix.collects = true ∧ ix.staker = some k := by
  rcases hcollects with rfl | ⟨keys, rfl⟩ <;> cases ix <;>
    simp_all [Instruction.op, Instruction.collects, Instruction.staker]

theorem World.due_le {s : Sys Pubkey} {now : I64} (hs : s.Reachable) (hm : w.Matches p s)
    (hi : s.pool.Registered i) :
    w.due p now k i ≤ (s.book i).claimable PRECISION.val k now.val := by
  rw [World.due, hm.pool]
  dsimp only
  cases hset : claimSettleAll s.pool (w.stakerAt p k) now with
  | error f => exact Nat.zero_le _
  | ok r =>
      obtain ⟨hslots, hentries⟩ := claimSettleAll_eq_ok_iff.mp hset
      rw [← hm.staker] at hentries
      exact (Sys.claimable_val hs.registry.1 hi
        (Sys.claimable_eq_ok_iff.mpr ⟨r.1, r.2, hslots, hentries, rfl⟩)).le

theorem claimable_congr {s s' : Sys Pubkey} {now : ℤ} (hpool : s'.pool = s.pool)
    (hstaker : s'.staker = s.staker) : (s'.book i).claimable PRECISION.val k now =
      (s.book i).claimable PRECISION.val k now := by
  simp only [Book.claimable, Sys.book, bookOf, hpool, hstaker]

/-- The staker account at `k` is still its owner's, and from `t` on it has at least `n` to
claim. -/
structure Entitled (w : World) (p k u : Pubkey) (i : Slot) (t : I64) (n : ℕ) : Prop where
  pool : ∃ P, w.pools p = some P ∧ P.Registered i
  staker : ∃ a, w.stakers k = some a ∧ a.owner = u ∧ a.pool = p
  book : ∀ s : Sys Pubkey, w.Matches p s → ∀ now : ℤ, w.clock.val ≤ now → t.val ≤ now →
    n ≤ (s.book i).claimable PRECISION.val k now

theorem Entitled.idle {u : Pubkey} {t : I64} {n : ℕ} (he : Entitled w p k u i t n)
    (hpool : w'.pools p = w.pools p) (hstakers : w'.stakers k = w.stakers k)
    (hat : w'.stakerAt p = w.stakerAt p) (hclock : w.clock.val ≤ w'.clock.val) :
    Entitled w' p k u i t n := by
  refine ⟨hpool ▸ he.pool, hstakers ▸ he.staker, ?_⟩
  intro s hm now hnow ht
  exact he.book s ⟨hpool ▸ hm.pool, hm.staker.trans hat⟩ now (hclock.trans hnow) ht

theorem Entitled.own {tx : Tx} {u : Pubkey} {t : I64} {n : ℕ} (hw : w.Reachable rt)
    (he : Entitled w p k u i t n) (hs : w.step rt tx = .ok w') (hpool : tx.instruction.pool = p)
    (hafter : t.val ≤ tx.now.val) (hquiet : tx.instruction.collects = true → u ∉ tx.signers) :
    Entitled w' p k u i t n := by
  obtain ⟨P, hP, hi⟩ := he.pool
  obtain ⟨b, hk, howner, hbpool⟩ := he.staker
  have htouch := hw.sound.step_touches hs
  obtain ⟨s, op, s', hreach, hm, hclock, hop, hperform, hm'⟩ := hw.own_step hP hs hpool
  obtain rfl : s.pool = P := Option.some.inj (hm.pool.symm.trans hP)
  have hnow := hreach.inv.notBefore_of_le hclock
  have hreg := (perform_registered hreach.registry.1.last_nonneg hperform hi).2
  have hlater := World.step_eq_ok_iff.mp hs
  -- who collects from the account signs for it
  have hother : ¬ (op = .emergencyWithdraw k ∨ ∃ keys, op = .claim k keys) := by
    intro hcollects
    obtain ⟨hix, hstaker⟩ := Instruction.collects_of_op hop hcollects
    refine hquiet hix ?_
    rw [← howner, ((htouch.staker k hstaker).1 b hk).1]
    exact htouch.signed
  rw [not_or, not_exists] at hother
  refine ⟨⟨_, hm'.pool, hreg⟩, ?_, ?_⟩
  · by_cases hstaker : tx.instruction.staker = some k
    · obtain ⟨hold, b', hk', hown'⟩ := htouch.staker k hstaker
      exact ⟨b', hk', hown'.1.trans ((hold b hk).1.symm.trans howner), hown'.2.trans hpool⟩
    · exact ⟨b, (htouch.stakers k hstaker).trans hk, howner, hbpool⟩
  · intro s₁ hm₁ now hnow₁ _
    have hsame : s₁.pool = s'.pool := Option.some.inj (hm₁.pool.symm.trans hm'.pool)
    rw [claimable_congr hsame (hm₁.staker.trans hm'.staker.symm)]
    have hworth := (worth_perform hreach.inv hnow hi hperform hother.1).1
    simp only [Book.worth, claimed_perform hreach.inv hnow hperform hother.2] at hworth
    obtain ⟨hstart, -, t', -, rfl⟩ := hlater
    calc n ≤ (s.book i).claimable PRECISION.val k tx.now.val := he.book s hm _ hstart hafter
      _ ≤ (s'.book i).claimable PRECISION.val k tx.now.val := Nat.le_of_add_le_add_left hworth
      _ ≤ (s'.book i).claimable PRECISION.val k now := Book.claimable_mono hnow₁

/-- The transactions of a run on the pool at `p` are not before `t`. -/
def From (t : I64) (p : Pubkey) (h : List (World × Event)) : Prop :=
  ∀ e ∈ h, ∀ tx, e.2 = .tx tx → tx.instruction.pool = p → t.val ≤ tx.now.val

theorem Entitled.along {u : Pubkey} {t₀ : I64} {n : ℕ} (hw : w.Reachable rt)
    (r : Run (World.Step rt) w h w') (hquiet : Abstains u p Instruction.collects h)
    (hafter : From t₀ p h) (he : Entitled w p k u i t₀ n) : Entitled w' p k u i t₀ n := by
  induction r with
  | refl => exact he
  | @tail h t e t' r hs ih =>
      have he := ih hquiet.left fun e he => hafter e (List.mem_append_left _ he)
      have ht := hw.run r
      cases hs with
      | outside hs =>
          have hat : t'.stakerAt p = t.stakerAt p := by
            funext j
            rw [World.stakerAt, World.stakerAt, hs.stakers_eq]
          exact he.idle (congrFun hs.pools_eq p) (congrFun hs.stakers_eq k) hat
            (congrArg Signed.val hs.clock_eq).ge
      | @tx tx _ hs =>
          by_cases hpool : tx.instruction.pool = p
          · refine he.own ht hs hpool (hafter (t, .tx tx) (by simp) tx rfl hpool) ?_
            intro hcollects
            exact hquiet (t, .tx tx) (by simp) tx rfl hpool hcollects
          · have htouch := ht.sound.step_touches hs
            obtain ⟨hclock, hsign, t₁, -, rfl⟩ := World.step_eq_ok_iff.mp hs
            obtain ⟨Q, hQ, -⟩ := he.pool
            obtain ⟨b, hk, -, hbpool⟩ := he.staker
            have hsound : t.Sound (tx.env rt).rt := ht.sound
            obtain ⟨hQ', hat, -⟩ := htouch.other hsound hsign hpool hQ
            refine he.idle (hQ'.trans hQ.symm) ?_ hat hclock
            refine htouch.stakers k ?_
            intro hstaker
            exact hpool (((htouch.staker k hstaker).1 b hk).2.symm.trans hbpool)

/-- What has accrued to a staker by any time up to the next transaction on its pool is its own:
after any run of anyone's transactions in which its owner signed no claim and no emergency exit
of the pool, one claim by its owner alone pays at least that in every slot. -/
theorem earnings_kept (h0 : w₀.Initial rt) (r₀ : Run (World.Step rt) w₀ h₀ w)
    (r : Run (World.Step rt) w h w') (hP : w.pools p = some P) (hk : w.stakers k = some a)
    (ha : a.pool = p) (hquiet : Abstains a.owner p Instruction.collects h) :
    ∃ P' a', w'.pools p = some P' ∧ w'.stakers k = some a' ∧ a'.owner = a.owner ∧
      ∀ (t now : I64) (acct : Slot → Pubkey) (J : List Slot),
        From t p h → t.val ≤ now.val →
        DepositsFit (callsOn rt p (h₀ ++ h)) → w'.clock.val ≤ now.val → P'.RollsBy now →
        J.Nodup → CanReceive w' P' a' acct J → ∃ w'',
          w'.step rt ((Instruction.claim (claimAccounts P' p k a.owner acct J)).alone now) =
            .ok w'' ∧
          ∀ i ∈ J, P.Registered i → balance (custody w'.tokens) (acct i) + w.due p t k i ≤
            balance (custody w''.tokens) (acct i) := by
  have hw : w.Reachable rt := ⟨w₀, h₀, h0, r₀⟩
  have hw' := hw.run r
  have hbegin : ∀ t i, P.Registered i → Entitled w p k a.owner i t (w.due p t k i) := by
    intro t i hi
    refine ⟨⟨P, hP, hi⟩, ⟨a, hk, rfl, ha⟩, ?_⟩
    intro s hm now _ hnow
    obtain ⟨s₁, hs₁, hpool₁, hstaker₁, -⟩ := hw.pool hP
    have hm₁ : w.Matches p s₁ := ⟨hpool₁ ▸ hP, hstaker₁⟩
    have hsame : s.pool = s₁.pool := Option.some.inj (hm.pool.symm.trans hm₁.pool)
    rw [claimable_congr hsame (hm.staker.trans hm₁.staker.symm)]
    exact (World.due_le hs₁ hm₁ (hpool₁ ▸ hi)).trans (Book.claimable_mono hnow)
  obtain ⟨hpools, hstakers⟩ := hw.kept.run r
  obtain ⟨P', hP'⟩ := hpools p P hP
  obtain ⟨a', hk', hpool, howner⟩ := hstakers k a hk
  refine ⟨P', a', hP', hk', howner, ?_⟩
  intro t now acct J hafter hlater hfit hnow hroll hnodup haccts
  obtain ⟨s, hs, hb, rfl, hstaker, hclock, -⟩ := h0.bounded (r₀.trans r) hP' hfit
  have hm : w'.Matches p s := ⟨hP', hstaker⟩
  have hat : w'.stakerAt p k = a' := stakerAt_eq hk' (hpool.trans ha)
  obtain ⟨P'', a₁, hset⟩ := hs.settles hb (hclock.trans hnow) hroll k
  obtain ⟨hslots, hentries⟩ := claimSettleAll_eq_ok_iff.mp hset
  rw [hstaker, hat] at hset
  obtain ⟨tokens, hstep, hpaid, -⟩ :=
    hw'.pays acct hP' hk' (hpool.trans ha) hnow hset hnodup haccts
  rw [howner] at hstep
  refine ⟨_, hstep, ?_⟩
  intro i hiJ hi
  have hkept := (hbegin t i hi).along hw r hquiet hafter
  have hvalue := Sys.claimable_val hs.registry.1 (haccts i hiJ).1
    (Sys.claimable_eq_ok_iff.mpr ⟨P'', a₁, hslots, hentries, rfl⟩)
  have hdue : w.due p t k i ≤ (a₁.entries i).rewardsAccrued.val := by
    rw [hvalue]
    exact hkept.book s hm now.val hnow hlater
  have hbalance := hpaid i hiJ
  change balance (custody tokens) (acct i) = _ at hbalance
  calc balance (custody w'.tokens) (acct i) + w.due p t k i
      ≤ balance (custody w'.tokens) (acct i) + (a₁.entries i).rewardsAccrued.val :=
        Nat.add_le_add_left hdue _
    _ = balance (custody tokens) (acct i) := hbalance.symm

/-- By 60 the second staker of the trial is due 375. It takes out some of its stake then, and is
still paid all of that. -/
theorem earnings_kept_trial : World.trial.due 100 60 112 0 = 375 ∧
    ∃ w' w'' P', World.trial.step World.trialRuntime trialExit = .ok w' ∧
      w'.step World.trialRuntime ((Instruction.claim
        (claimAccounts P' 100 112 2 (fun _ => 32) [0])).alone 60) = .ok w'' ∧
      375 ≤ balance (custody w''.tokens) 32 := by
  have hdue : World.trial.due 100 60 112 0 = 375 := by decide +kernel
  obtain ⟨P, hP⟩ := Option.isSome_iff_exists.mp
    (show (World.trial.pools 100).isSome = true by decide +kernel)
  obtain ⟨a, hk⟩ := Option.isSome_iff_exists.mp
    (show (World.trial.stakers 112).isSome = true by decide +kernel)
  have ha : (World.trial.stakers 112).map (fun a => (a.owner, a.pool)) = some (2, 100) := by
    decide +kernel
  rw [hk, Option.map_some, Option.some.injEq, Prod.mk.injEq] at ha
  have hmint : (World.trial.pools 100).map (fun P => (P.rewards 0).mint) = some 7 := by
    decide +kernel
  rw [hP, Option.map_some, Option.some.injEq] at hmint
  obtain ⟨w', hw'⟩ := exists_ok (x := World.trial.step World.trialRuntime trialExit)
    (by decide +kernel)
  have htokens : (World.trial.step World.trialRuntime trialExit).map (fun w => (w.tokens 102,
      w.tokens 32)) =
      .ok (some ⟨⟨100, 7⟩, 800, false, none, 0⟩, some ⟨⟨2, 7⟩, 0, false, none, 0⟩) := by
    decide +kernel
  have hpool : (World.trial.step World.trialRuntime trialExit).map (fun w => (w.clock.val,
      (w.pools 100).map fun P => ((P.rewards 0).keys, P.totalStaked.val))) =
        .ok (60, some ((7, 102), 350)) := by decide +kernel
  simp only [hw', Except.map, Except.ok.injEq, Prod.mk.injEq] at htokens hpool
  obtain ⟨hx, hy⟩ := htokens
  obtain ⟨hclock, hpool⟩ := hpool
  have r : Run (World.Step World.trialRuntime) World.trial [(World.trial, .tx trialExit)] w' :=
    Run.refl.tail (.tx hw')
  have hquiet : Abstains a.owner 100 Instruction.collects [(World.trial, .tx trialExit)] := by
    intro e he tx htx _ hcollects
    obtain rfl := List.mem_singleton.mp he
    cases htx
    cases hcollects
  have hafter : From 60 100 [(World.trial, .tx trialExit)] := by
    intro e he tx htx _
    obtain rfl := List.mem_singleton.mp he
    cases htx
    exact le_rfl
  have hfit : DepositsFit (callsOn World.trialRuntime 100
      (World.trialHistory ++ [(World.trial, .tx trialExit)])) := by
    intro mint
    have hbefore := depositsFit_trial mint
    rw [callsOn, List.filterMap_append]
    change depositsOf mint (callsOn World.trialRuntime 100 World.trialHistory ++
      [⟨60, .unstake 112 50⟩]) * _ < _
    rw [depositsOf_snoc]
    exact hbefore
  obtain ⟨P', a', hP', -, howner, hpays⟩ :=
    earnings_kept World.initial_trialStart World.trial_run.1 r hP hk ha.2 hquiet
  rw [hP', Option.map_some, Option.some.injEq, Prod.mk.injEq] at hpool
  have hmint' : (P'.rewards 0).mint = 7 := congrArg Prod.fst hpool.1
  have hvault' : (P'.rewards 0).vault = 102 := congrArg Prod.snd hpool.1
  obtain ⟨w'', hstep, hpaid⟩ := hpays 60 60 (fun _ => 32) [0] hafter le_rfl hfit hclock.le
    (fun hzero => absurd (hpool.2.symm.trans hzero) (by decide)) (by decide) (by
      intro i hi
      obtain rfl := List.mem_singleton.mp hi
      refine ⟨?_, _, _, hvault' ▸ hx, hy, ?_, hmint'.symm, ⟨rfl, rfl⟩, by decide⟩
      · rw [Pool.Registered, hmint']
        decide
      · rw [howner, ha.1])
  rw [ha.1] at hstep
  refine ⟨hdue, w', w'', P', hw', hstep, ?_⟩
  have hleast := hpaid 0 (by simp) (by rw [Pool.Registered, hmint]; decide)
  rw [balance_eq hy, hdue] at hleast
  exact hleast

end MmStaking
