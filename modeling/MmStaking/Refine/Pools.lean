import MmStaking.Lib.Families
import MmStaking.Refine.Vaults

/-! Every pool of the chain is a system of its own. A transaction on the pool is the call its
logic makes, whatever the handler was passed, and every other step leaves the pool alone but
for what its vaults are given. -/
namespace MmStaking
open Words Loops Runs Custody

/-- The logic an instruction runs, on the staker account it is passed. Opening a pool is no
call on it. -/
def Instruction.op (rt : Runtime) : Instruction → Option (Op Pubkey)
  | .initializePool _ _ _ => none
  | .addReward ctx duration => some (.addReward ctx.rewardMint ctx.rewardVault duration)
  | .setRewardActive _ slot active => some (.setRewardActive slot active)
  | .stake ctx amount =>
      let bump := ((rt.find (.staker ctx.pool ctx.owner)).map Prod.snd).getD 0
      some (.stake ctx.staker ctx.owner ctx.pool bump amount)
  | .unstake ctx amount => some (.unstake ctx.staker amount)
  | .depositRewards ctx amount => some (.depositRewards ctx.rewardMint amount)
  | .claim ctx => some (.claim ctx.staker ((keyPairs ctx.remaining).map Prod.fst))
  | .emergencyWithdraw ctx => some (.emergencyWithdraw ctx.staker)
  | .setPaused _ paused => some (.setPaused paused)
  | .setKeeperAuthority _ keeper => some (.setKeeperAuthority keeper)
  | .setAdmin _ newAdmin => some (.setAdmin newAdmin)
  | .setDuration _ slot duration => some (.setDuration slot duration)

/-- The call a step makes on the pool at `p`. -/
def Event.call (rt : Runtime) (p : Pubkey) : Event → Option (Call Pubkey)
  | .tx t =>
      if t.instruction.pool = p then
        (t.instruction.op rt).map fun op => { now := t.now, op := op }
      else none
  | .outside _ => none

/-- The calls a history makes on the pool at `p`, in order. -/
def callsOn (rt : Runtime) (p : Pubkey) (h : List (World × Event)) : List (Call Pubkey) :=
  h.filterMap fun e => e.2.call rt p

/-- The staker account of the pool at `p` kept under `k`. -/
def World.stakerAt (w : World) (p k : Pubkey) : StakerAccount :=
  match w.stakers k with
  | some staker => if staker.pool = p then staker else .zeroed
  | none => .zeroed

/-- The accounts of the pool at `p` are those of `s`. -/
structure World.Matches (w : World) (p : Pubkey) (s : Sys Pubkey) : Prop where
  pool : w.pools p = some s.pool
  staker : s.staker = w.stakerAt p

/-- So are its clock, at the latest call, and its vaults, apart from what they were given. -/
structure World.Shows (p : Pubkey) (h : List (World × Event)) (w : World) (s : Sys Pubkey) : Prop
    extends w.Matches p s where
  clock_le : s.clock.val ≤ w.clock.val
  vault_eq : ∀ x, (w.vaultBalance p x : ℤ) = s.ledger.vault x + cost (World.gift p x) h

def poolMember (rt : Runtime) (p : Pubkey) : Member World Event (Sys Pubkey) (Call Pubkey) where
  Live w := ∃ P, w.pools p = some P
  label _ e := e.call rt p
  Shows := World.Shows p

section Ledger
variable {l : Ledger Pubkey} {v : Pubkey} {amount : U64} {x : Vault}

theorem recordStake_vault : (l.recordStake v amount).vault x =
    l.vault x + if x = .stake then (amount.val : ℤ) else 0 := by
  cases x <;> simp [Ledger.vault, Ledger.recordStake]

theorem recordUnstake_vault : (l.recordUnstake v amount).vault x =
    l.vault x - if x = .stake then (amount.val : ℤ) else 0 := by
  cases x <;> simp [Ledger.vault, Ledger.recordUnstake]

theorem recordWithdraw_vault : (l.recordWithdraw v amount).vault x =
    l.vault x - if x = .stake then (amount.val : ℤ) else 0 := by
  cases x <;> simp [Ledger.vault, Ledger.recordWithdraw]

theorem recordDeposit_vault {i : Slot} : (l.recordDeposit i amount).vault x =
    l.vault x + if x = .reward i then (amount.val : ℤ) else 0 := by
  cases x with
  | stake => simp [Ledger.vault, Ledger.recordDeposit]
  | reward j =>
      by_cases hj : j = i
      · subst hj
        simp [Ledger.vault, Ledger.recordDeposit]
      · simp [Ledger.vault, Ledger.recordDeposit, hj]

theorem recordClaims_vault {paid : List (Slot × U64)} :
    (paid.foldl (Ledger.recordClaim v) l).vault x =
      l.vault x - (paid.map fun e => if x = .reward e.1 then (e.2.val : ℤ) else 0).sum := by
  induction paid generalizing l with
  | nil => simp
  | cons e paid ih =>
      have hone : (l.recordClaim v e).vault x =
          l.vault x - if x = .reward e.1 then (e.2.val : ℤ) else 0 := by
        cases x with
        | stake => simp [Ledger.vault, Ledger.recordClaim]
        | reward j =>
            by_cases hj : j = e.1
            · subst hj
              simp [Ledger.vault, Ledger.recordClaim]
            · simp [Ledger.vault, Ledger.recordClaim, hj]
      rw [List.foldl_cons, ih, hone, List.map_cons, List.sum_cons]
      ring

end Ledger

section Accounts
variable {w w' : World} {p k : Pubkey} {P P' : Pool} {a' : StakerAccount} {tokens : Tokens}
  {s : Sys Pubkey} {x : Vault}

theorem stakerAt_put (ha : a'.pool = p) (hw' : w'.stakers = Function.update w.stakers k (some a')) :
    w'.stakerAt p = Function.update (w.stakerAt p) k a' := by
  funext j
  by_cases hj : j = k
  · subst hj
    rw [Function.update_self, World.stakerAt, hw', Function.update_self]
    exact if_pos ha
  · rw [Function.update_of_ne hj, World.stakerAt, World.stakerAt, hw', Function.update_of_ne hj]

theorem stakerAt_eq {a : StakerAccount} (hk : w.stakers k = some a) (ha : a.pool = p) :
    w.stakerAt p k = a := by
  rw [World.stakerAt, hk]
  exact if_pos ha

theorem World.Matches.putPool (hm : w.Matches p s) (l : Ledger Pubkey) (P' : Pool)
    (hpools : w'.pools = Function.update w.pools p (some P')) (hstakers : w'.stakers = w.stakers) :
    w'.Matches p { s with pool := P', ledger := l } := by
  refine ⟨?_, hm.staker.trans ?_⟩
  · rw [hpools, Function.update_self]
  · funext j
    rw [World.stakerAt, World.stakerAt, hstakers]

theorem World.Matches.putBoth (hm : w.Matches p s) (l : Ledger Pubkey) (ha : a'.pool = p) :
    (((w.putPool p P').putStaker k a').putTokens tokens).Matches p
      { s.put P' k a' with ledger := l } := by
  refine ⟨?_, ?_⟩
  · simp [World.putPool, World.putStaker, World.putTokens, Sys.put]
  · have hput : (((w.putPool p P').putStaker k a').putTokens tokens).stakerAt p =
        Function.update (w.stakerAt p) k a' := stakerAt_put ha rfl
    rw [hput, ← hm.staker]
    rfl

theorem vaultBalance_add {n : ℤ} (P' : Pool) (hP : w.pools p = some P) (hP' : w'.pools p = some P')
    (ha : P'.anchor = P.anchor) (hnone : P.vaultKey x = none → n = 0)
    (h : ∀ key, P.vaultKey x = some key →
      (balance (custody w'.tokens) key : ℤ) = balance (custody w.tokens) key + n) :
    (w'.vaultBalance p x : ℤ) = w.vaultBalance p x + n := by
  have hkey : w.vaultKey p x = P.vaultKey x := by simp [World.vaultKey, hP]
  have hkey' : w'.vaultKey p x = P.vaultKey x := by
    simp [World.vaultKey, hP', Pool.vaultKey_of_anchor ha]
  cases hx : P.vaultKey x with
  | none =>
      rw [vaultBalance_of_none (hkey.trans hx), vaultBalance_of_none (hkey'.trans hx), hnone hx]
      rfl
  | some key =>
      rw [vaultBalance_of_key (hkey.trans hx), vaultBalance_of_key (hkey'.trans hx)]
      exact h key hx

end Accounts

/-- What a step of the pool's own does: the call runs in `s`, and the vaults change by what
the ledger records. -/
def OwnStep (p : Pubkey) (w w' : World) (s : Sys Pubkey) (now : I64) (op : Op Pubkey) : Prop :=
  ∃ s', s.perform now op = .ok s' ∧ w'.Matches p s' ∧
    ∀ x, (w'.vaultBalance p x : ℤ) = w.vaultBalance p x + (s'.ledger.vault x - s.ledger.vault x)

section Own
variable {env : Env} {w w' : World} {s : Sys Pubkey}

theorem OwnStep.putLamports {p : Pubkey} {now : I64} {op : Op Pubkey}
    (h : OwnStep p w w' s now op) (lamports : Lamports) :
    OwnStep p w (w'.putLamports lamports) s now op := by
  obtain ⟨s', hperform, hm, hvaults⟩ := h
  exact ⟨s', hperform, ⟨hm.pool, hm.staker⟩, hvaults⟩

theorem Stake.own {ctx : Stake} {amount : U64} (hw : w.Sound env.rt)
    (hsign : ∀ key ∈ env.signers, env.rt.signable key = true) (hp : s.pool.Packed)
    (hm : w.Matches ctx.pool s) (h : ctx.handler env w amount = .ok w') :
    ∃ op, Instruction.op env.rt (.stake ctx amount) = some op ∧
      OwnStep ctx.pool w w' s env.now op := by
  obtain ⟨P, a, bump, P', a', tokens, _, hloads, -, hstake, htransfer, rfl⟩ :=
    Stake.handler_eq_ok_iff.mp h
  obtain rfl : s.pool = P := Option.some.inj (hm.pool.symm.trans hloads.pool)
  obtain ⟨hkeeps, hidentity⟩ := stake_keeps hstake
  obtain ⟨-, hpool, -⟩ := hloads.placed hw hsign
  have hpool' : a'.pool = ctx.pool := (congrArg (fun i => i.2.1) hidentity).trans hpool
  have hplaced := hw.pool hloads.pool
  have hstaker : s.staker ctx.staker = a := by
    rw [hm.staker]
    rcases hloads.staker with hk | ⟨hk, -, rfl⟩
    · exact stakerAt_eq hk (hw.staker_pool hk (Pda.create_of_find hloads.found)).1
    · rw [World.stakerAt, hk]
  have hbump : ((env.rt.find (.staker ctx.pool ctx.owner)).map Prod.snd).getD 0 = bump := by
    rw [hloads.found]
    rfl
  refine ⟨.stake ctx.staker ctx.owner ctx.pool bump amount, by rw [Instruction.op, hbump],
    OwnStep.putLamports ⟨{ s.put P' ctx.staker a' with
      ledger := s.ledger.recordStake ctx.staker amount }, ?_, hm.putBoth _ hpool', ?_⟩ _⟩
  · rw [Sys.perform, hstaker, hstake]
    rfl
  · intro x
    rw [recordStake_vault, add_sub_cancel_left]
    refine vaultBalance_add P' hloads.pool ?_ hkeeps.anchor ?_ ?_
    · simp [World.putPool, World.putStaker, World.putTokens]
    · intro hx
      rw [if_neg]
      rintro rfl
      cases hx
    · intro key hx
      obtain ⟨u, hu, huo, -⟩ := hloads.user
      have hne : u.owner ≠ ctx.pool := by
        rw [huo]
        exact hplaced.unsignable (hsign _ hloads.signed)
      exact hplaced.paid hp (y := .stake) (congrArg some hloads.vault_eq.symm) hu hne htransfer hx

theorem Unstake.own_balance {ctx : Unstake} {a a' : StakerAccount} {P P' : Pool} {tokens : Tokens}
    {amount : U64} (hw : w.Sound env.rt)
    (hsign : ∀ key ∈ env.signers, env.rt.signable key = true) (hp : P.Packed)
    (hloads : ctx.Loads env w P a) (hkeeps : P.Keeps P')
    (htransfer : env.rt.transfer w.tokens ctx.stakeVault ctx.userTokenAccount ctx.pool amount =
      .ok tokens) (x : Vault) :
    ((((w.putPool ctx.pool P').putStaker ctx.staker a').putTokens tokens).vaultBalance
      ctx.pool x : ℤ) =
      w.vaultBalance ctx.pool x + -if x = .stake then (amount.val : ℤ) else 0 := by
  have hplaced := hw.pool hloads.pool
  refine vaultBalance_add P' hloads.pool ?_ hkeeps.anchor ?_ ?_
  · simp [World.putPool, World.putStaker, World.putTokens]
  · intro hx
    rw [if_neg, neg_zero]
    rintro rfl
    cases hx
  · intro key hx
    obtain ⟨u, hu, huo, -⟩ := hloads.user
    have hne : u.owner ≠ ctx.pool := by
      rw [huo]
      exact hplaced.unsignable (hsign _ hloads.signed)
    exact hplaced.pays hp (y := .stake) (congrArg some hloads.vault_eq.symm) hu hne htransfer hx

theorem Unstake.own {ctx : Unstake} {amount : U64} (hw : w.Sound env.rt)
    (hsign : ∀ key ∈ env.signers, env.rt.signable key = true) (hp : s.pool.Packed)
    (hm : w.Matches ctx.pool s) (h : ctx.handler env w amount = .ok w') :
    OwnStep ctx.pool w w' s env.now (.unstake ctx.staker amount) := by
  obtain ⟨P, a, P', a', tokens, hloads, hunstake, htransfer, rfl⟩ :=
    Unstake.handler_eq_ok_iff.mp h
  obtain rfl : s.pool = P := Option.some.inj (hm.pool.symm.trans hloads.pool)
  obtain ⟨hkeeps, hidentity⟩ := unstake_keeps hunstake
  have hpool := (hw.staker_pool hloads.staker hloads.derived_staker).1
  have hpool' : a'.pool = ctx.pool := (congrArg (fun i => i.2.1) hidentity).trans hpool
  have hstaker : s.staker ctx.staker = a := by
    rw [hm.staker]
    exact stakerAt_eq hloads.staker hpool
  refine ⟨{ s.put P' ctx.staker a' with ledger := s.ledger.recordUnstake ctx.staker amount }, ?_,
    hm.putBoth _ hpool', ?_⟩
  · rw [Sys.perform, hstaker, hunstake]
    rfl
  · intro x
    rw [Unstake.own_balance hw hsign hp hloads hkeeps htransfer, recordUnstake_vault]
    ring

theorem EmergencyWithdraw.own {ctx : EmergencyWithdraw} (hw : w.Sound env.rt)
    (hsign : ∀ key ∈ env.signers, env.rt.signable key = true) (hp : s.pool.Packed)
    (hm : w.Matches ctx.pool s) (h : EmergencyWithdraw.handler env w ctx = .ok w') :
    OwnStep ctx.pool w w' s env.now (.emergencyWithdraw ctx.staker) := by
  obtain ⟨P, a, P', a', tokens, hloads, -, hexit, htransfer, rfl⟩ :=
    EmergencyWithdraw.handler_eq_ok_iff.mp h
  obtain rfl : s.pool = P := Option.some.inj (hm.pool.symm.trans hloads.pool)
  obtain ⟨hkeeps, hidentity⟩ := emergencyWithdraw_keeps hexit
  have hpool := (hw.staker_pool hloads.staker hloads.derived_staker).1
  have hpool' : a'.pool = ctx.pool := (congrArg (fun i => i.2.1) hidentity).trans hpool
  have hstaker : s.staker ctx.staker = a := by
    rw [hm.staker]
    exact stakerAt_eq hloads.staker hpool
  refine ⟨{ s.put P' ctx.staker a' with
    ledger := s.ledger.recordWithdraw ctx.staker a.stakedAmount }, ?_, hm.putBoth _ hpool', ?_⟩
  · rw [Sys.perform, hstaker, hexit]
    rfl
  · intro x
    rw [Unstake.own_balance hw hsign hp hloads hkeeps htransfer, recordWithdraw_vault]
    ring

theorem DepositRewards.received_eq {ctx : DepositRewards} {P : Pool} {vault reloaded : Holding}
    {amount received : U64} {tokens : Tokens} (hplaced : P.Placed env.rt w.tokens ctx.pool)
    (hsign : ∀ key ∈ env.signers, env.rt.signable key = true)
    (hloads : ctx.Loads env w P vault) (hheld : vault.owner = ctx.pool)
    (htransfer : env.rt.transfer w.tokens ctx.keeperTokenAccount ctx.rewardVault ctx.keeper
      amount = .ok tokens) (hreload : tokens ctx.rewardVault = some reloaded)
    (hreceived : received.val = reloaded.amount.val - vault.amount.val) : received = amount := by
  obtain ⟨x, hx, hxo, -⟩ := hloads.keeper
  have hdist : ctx.keeperTokenAccount ≠ ctx.rewardVault :=
    hplaced.not_held hx hxo (hsign _ hloads.signed) hloads.held hheld
  obtain ⟨-, hle, hmoved⟩ := transfer_moved htransfer hx hloads.held hdist
  have hdest := congrFun hmoved ctx.rewardVault
  rw [custody_eq_some hreload, moved_dest, Option.some.injEq] at hdest
  have hamount : reloaded.amount.val = vault.amount.val + amount.val :=
    congrArg Account.amount hdest
  apply Unsigned.ext
  omega

theorem DepositRewards.own {ctx : DepositRewards} {amount : U64} (hw : w.Sound env.rt)
    (hsign : ∀ key ∈ env.signers, env.rt.signable key = true) (hp : s.pool.Packed)
    (hm : w.Matches ctx.pool s) (h : ctx.handler env w amount = .ok w') :
    OwnStep ctx.pool w w' s env.now (.depositRewards ctx.rewardMint amount) := by
  obtain ⟨P, vault, tokens, reloaded, received, P', hloads, -, htransfer, hreload, ⟨-, hreceived⟩,
    hdeposit, rfl⟩ := DepositRewards.handler_eq_ok_iff.mp h
  obtain rfl : s.pool = P := Option.some.inj (hm.pool.symm.trans hloads.pool)
  have hkeeps := depositRewards_keeps (hw.empty hloads.pool) hdeposit
  have hplaced := hw.pool hloads.pool
  obtain ⟨i, hi, hreg, hvault, howner⟩ := hloads.held_by_pool hw hdeposit
  have hkey : s.pool.vaultKey (.reward i) = some ctx.rewardVault := by
    rw [Pool.vaultKey, if_pos hreg, hvault]
  obtain rfl := DepositRewards.received_eq hplaced hsign hloads howner htransfer hreload hreceived
  refine ⟨{ s with pool := P', ledger := s.ledger.recordDeposit i received }, ?_,
    hm.putPool _ P' rfl rfl, ?_⟩
  · rw [Sys.perform, hi, hdeposit]
    rfl
  · intro x
    rw [recordDeposit_vault, add_sub_cancel_left]
    refine vaultBalance_add P' hloads.pool ?_ hkeeps.anchor ?_ ?_
    · simp [World.putPool, World.putTokens]
    · intro hx
      rw [if_neg]
      rintro rfl
      rw [hkey] at hx
      cases hx
    · intro key hx
      obtain ⟨u, hu, huo, -⟩ := hloads.keeper
      have hne : u.owner ≠ ctx.pool := by
        rw [huo]
        exact hplaced.unsignable (hsign _ hloads.signed)
      exact hplaced.paid hp hkey hu hne htransfer hx

theorem Claim.own {ctx : Claim} (hw : w.Sound env.rt)
    (hsign : ∀ key ∈ env.signers, env.rt.signable key = true) (hp : s.pool.Packed)
    (hm : w.Matches ctx.pool s) (h : ctx.handler env w = .ok w') :
    OwnStep ctx.pool w w' s env.now
      (.claim ctx.staker ((keyPairs ctx.remaining).map Prod.fst)) := by
  obtain ⟨P, a, P', a₁, a', tokens, hloads, hset, -, hloop, rfl⟩ := Claim.handler_eq_ok_iff.mp h
  obtain rfl : s.pool = P := Option.some.inj (hm.pool.symm.trans hloads.pool)
  obtain ⟨hslots, hentries⟩ := claimSettleAll_eq_ok_iff.mp hset
  have hkeeps := settleSlots_keeps hslots
  have hplaced := hw.pool hloads.pool
  have hplaced' := hplaced.congr hkeeps.anchor
  have hreg := Pool.registered_of_anchor hkeeps.anchor
  obtain ⟨hconf, hfrom⟩ := hloads.paidFrom hw hset
  have hidentity := (Claim.loop_moves hfrom hloop).1.trans (settleEntries_identity hentries)
  have hpool := (hw.staker_pool hloads.staker hloads.derived_staker).1
  have hpool' : a'.pool = ctx.pool := (congrArg (fun i => i.2.1) hidentity).trans hpool
  have hstaker : s.staker ctx.staker = a := by
    rw [hm.staker]
    exact stakerAt_eq hloads.staker hpool
  have hne := hplaced.unsignable (hsign _ hloads.signed)
  obtain ⟨paid, htake, hvaults⟩ := Claim.loop_ok hne hfrom hloop
  -- only occupied slots have something accrued
  have hpaid : ∀ e ∈ paid, e.2.val ≠ 0 → s.pool.Registered e.1 := by
    intro e he hne
    by_contra hempty
    exact claimTakeAll_paid htake e he hne (hconf e.1 (mt (hreg e.1).mp hempty))
  refine ⟨{ s.put P' ctx.staker a' with
    ledger := paid.foldl (Ledger.recordClaim ctx.staker) s.ledger }, ?_, hm.putBoth _ hpool', ?_⟩
  · rw [Sys.perform, hstaker, hset]
    change (claimTakeAll P' a₁ _).bind _ = _
    rw [htake]
    rfl
  · intro x
    rw [recordClaims_vault, sub_sub_cancel_left]
    refine vaultBalance_add P' hloads.pool ?_ hkeeps.anchor ?_ ?_
    · simp [World.putPool, World.putStaker, World.putTokens]
    · intro hx
      rw [neg_eq_zero, List.sum_eq_zero]
      intro n hn
      obtain ⟨e, he, rfl⟩ := List.mem_map.mp hn
      split
      · rename_i hxe
        rw [hxe, Pool.vaultKey, ite_eq_right_iff] at hx
        by_contra hpos
        cases hx (hpaid e he (by exact_mod_cast hpos))
      · rfl
    · intro key hx
      obtain ⟨z, hz, hzo, -⟩ := hplaced.vault_account hx
      change (balance (custody tokens) key : ℤ) = _
      rw [hvaults key z hz hzo, sub_eq_add_neg]
      congr 3
      refine List.map_congr_left ?_
      intro e he
      by_cases hzero : e.2.val = 0
      · simp [hzero]
      · have hkey : s.pool.vaultKey (.reward e.1) = some (P'.rewards e.1).vault := by
          rw [← Pool.vaultKey_of_anchor hkeeps.anchor, Pool.vaultKey,
            if_pos ((hreg e.1).mpr (hpaid e he hzero))]
        have hsame := hplaced.vault_key_iff hp hkey hx
        simp only [hsame, eq_comm]

theorem AdminOnly.own {ctx : AdminOnly} {logic : Pool → Result Pool} {op : Op Pubkey}
    (hlogic : ∀ P P', logic P = .ok P' → P.Keeps P')
    (hop : ∀ P', logic s.pool = .ok P' → s.perform env.now op = .ok { s with pool := P' })
    (hm : w.Matches ctx.pool s) (h : ctx.run env w logic = .ok w') :
    OwnStep ctx.pool w w' s env.now op := by
  obtain ⟨-, P, P', hP, -, -, hP', rfl⟩ := AdminOnly.run_eq_ok_iff.mp h
  obtain rfl : s.pool = P := Option.some.inj (hm.pool.symm.trans hP)
  refine ⟨{ s with pool := P' }, hop P' hP', hm.putPool s.ledger P' rfl rfl, ?_⟩
  intro x
  rw [sub_self]
  refine vaultBalance_add P' hP ?_ (hlogic _ _ hP').anchor (fun _ => rfl) ?_
  · simp [World.putPool]
  · intro key _
    exact (add_zero _).symm

theorem AddReward.own {ctx : AddReward} {d : I64} (hw : w.Sound env.rt)
    (hm : w.Matches ctx.pool s) (h : ctx.handler env w d = .ok w') :
    OwnStep ctx.pool w w' s env.now (.addReward ctx.rewardMint ctx.rewardVault d) := by
  obtain ⟨-, -, P, P', bump, _, hP, -, -, hfound, hvacant, hadd, -, rfl⟩ :=
    AddReward.handler_eq_ok_iff.mp h
  obtain rfl : s.pool = P := Option.some.inj (hm.pool.symm.trans hP)
  obtain ⟨-, -, htoken, -⟩ := World.vacant_iff.mp hvacant
  refine OwnStep.putLamports ?_ _
  refine ⟨{ s with pool := P' }, ?_, hm.putPool s.ledger P' rfl rfl, ?_⟩
  · rw [Sys.perform, hadd]
    rfl
  obtain ⟨-, idx, count, hidx, -, rfl⟩ := addReward_eq_ok_iff.mp hadd
  intro x
  rw [sub_self, add_zero]
  by_cases hx : x = .reward idx
  · -- the new vault is empty
    subst hx
    have hnone : w.vaultKey ctx.pool (.reward idx) = none := by
      simp [World.vaultKey, hP, Pool.vaultKey, freeSlot_some hidx]
    rw [vaultBalance_of_none hnone, World.vaultBalance]
    split
    · rename_i key hkey
      obtain rfl : key = ctx.rewardVault := by
        simp [World.vaultKey, World.putPool, World.putToken, Pool.vaultKey, Pool.setReward] at hkey
        exact hkey.2.symm
      simp [balance, custody, World.putPool, World.putToken, Holding.opened, Holding.account]
    · rfl
  · have hsame : w.vaultKey ctx.pool x = s.pool.vaultKey x := by simp [World.vaultKey, hP]
    refine congrArg Nat.cast (vaultBalance_congr ?_ ?_)
    · rw [hsame]
      cases x with
      | stake => simp [World.vaultKey, World.putPool, World.putToken, Pool.vaultKey, Pool.setReward]
      | reward j =>
          have hj : j ≠ idx := fun hj => hx (congrArg _ hj)
          simp only [World.vaultKey, World.putPool, World.putToken, Function.update_self,
            Option.bind_some]
          exact Pool.vaultKey_of_slot (Function.update_of_ne hj _ _)
    · intro key hkey
      rw [hsame] at hkey
      obtain ⟨z, hz, -⟩ := (hw.pool hP).vault_account hkey
      have hne : key ≠ ctx.rewardVault := by
        rintro rfl
        rw [htoken] at hz
        cases hz
      simp [balance, custody, World.putPool, World.putToken, hne]

end Own
end MmStaking
