import MmStaking.Refine.Pools

/-! The chain as a family of pools: the whole simulation, put together from what each
transaction does to its own pool and leaves alone of the others. -/
namespace MmStaking
open Words Loops Runs Custody

section Instruction
variable {env : Env} {w w' : World} {ix : Instruction} {s : Sys Pubkey}

theorem Instruction.opens (h : ix.handle env w = .ok w') (hnone : w.pools ix.pool = none) :
    ix.op env.rt = none ∧
      ∃ ctx d keeper, ix = .initializePool ctx d keeper := by
  have habsent : ∀ {P : Pool}, w.pools ix.pool = some P → False := by
    intro P hP
    rw [hnone] at hP
    cases hP
  have hadmin : ∀ {ctx : AdminOnly} {logic : Pool → Result Pool}, ix.pool = ctx.pool →
      ctx.run env w logic = .ok w' → False := by
    intro ctx logic hpool hrun
    obtain ⟨-, P, -, hP, -⟩ := AdminOnly.run_eq_ok_iff.mp hrun
    exact habsent (hpool ▸ hP)
  cases ix with
  | initializePool ctx d keeper => exact ⟨rfl, ctx, d, keeper, rfl⟩
  | addReward ctx d =>
      obtain ⟨-, -, P, -, -, -, hP, -⟩ := AddReward.handler_eq_ok_iff.mp h
      exact (habsent hP).elim
  | setRewardActive ctx slot active => exact (hadmin rfl h).elim
  | setPaused ctx paused => exact (hadmin rfl h).elim
  | setKeeperAuthority ctx keeper => exact (hadmin rfl h).elim
  | setAdmin ctx newAdmin => exact (hadmin rfl h).elim
  | setDuration ctx slot d => exact (hadmin rfl h).elim
  | stake ctx amount =>
      obtain ⟨P, a, bump, P', a', tokens, _, hloads, -⟩ := Stake.handler_eq_ok_iff.mp h
      exact (habsent hloads.pool).elim
  | unstake ctx amount =>
      obtain ⟨P, a, P', a', tokens, hloads, -⟩ := Unstake.handler_eq_ok_iff.mp h
      exact (habsent hloads.pool).elim
  | emergencyWithdraw ctx =>
      obtain ⟨P, a, P', a', tokens, hloads, -⟩ := EmergencyWithdraw.handler_eq_ok_iff.mp h
      exact (habsent hloads.pool).elim
  | depositRewards ctx amount =>
      obtain ⟨P, vault, tokens, _, received, P', hloads, -⟩ :=
        DepositRewards.handler_eq_ok_iff.mp h
      exact (habsent hloads.pool).elim
  | claim ctx =>
      obtain ⟨P, a, P', a₁, a', tokens, hloads, -⟩ := Claim.handler_eq_ok_iff.mp h
      exact (habsent hloads.pool).elim

theorem Instruction.own (hw : w.Sound env.rt)
    (hsign : ∀ key ∈ env.signers, env.rt.signable key = true) (hp : s.pool.Packed)
    (hm : w.Matches ix.pool s) (h : ix.handle env w = .ok w') :
    ∃ op, ix.op env.rt = some op ∧ OwnStep ix.pool w w' s env.now op := by
  have hok : ∀ {logic : Result Pool} {P' : Pool}, logic = .ok P' →
      (do let pool ← logic; return { s with pool := pool } : Result (Sys Pubkey)) =
        .ok { s with pool := P' } := by
    rintro _ P' rfl
    rfl
  cases ix with
  | initializePool ctx d keeper =>
      obtain ⟨-, -, _, _, _, _, -, hvacant, -⟩ := InitializePool.handler_eq_ok_iff.mp h
      have hnone := (World.vacant_iff.mp hvacant).1
      have hpool : w.pools ctx.pool = some s.pool := hm.pool
      rw [hnone] at hpool
      cases hpool
  | addReward ctx d => exact ⟨_, rfl, AddReward.own hw hm h⟩
  | setRewardActive ctx slot active =>
      exact ⟨_, rfl, AdminOnly.own (fun _ _ => setRewardActive_keeps) (fun _ => hok) hm h⟩
  | setDuration ctx slot d =>
      exact ⟨_, rfl, AdminOnly.own (fun _ _ => setDuration_keeps) (fun _ => hok) hm h⟩
  | setPaused ctx paused =>
      refine ⟨_, rfl, AdminOnly.own ?_ (fun _ => hok) hm h⟩
      intro P P' hP'
      cases hP'
      exact ⟨rfl, fun _ _ => rfl⟩
  | setKeeperAuthority ctx keeper =>
      refine ⟨_, rfl, AdminOnly.own ?_ (fun _ => hok) hm h⟩
      intro P P' hP'
      cases hP'
      exact ⟨rfl, fun _ _ => rfl⟩
  | setAdmin ctx newAdmin =>
      refine ⟨_, rfl, AdminOnly.own ?_ (fun _ => hok) hm h⟩
      intro P P' hP'
      cases hP'
      exact ⟨rfl, fun _ _ => rfl⟩
  | stake ctx amount => exact Stake.own hw hsign hp hm h
  | unstake ctx amount => exact ⟨_, rfl, Unstake.own hw hsign hp hm h⟩
  | emergencyWithdraw ctx => exact ⟨_, rfl, EmergencyWithdraw.own hw hsign hp hm h⟩
  | depositRewards ctx amount => exact ⟨_, rfl, DepositRewards.own hw hsign hp hm h⟩
  | claim ctx => exact ⟨_, rfl, Claim.own hw hsign hp hm h⟩

end Instruction

section Other
variable {env : Env} {w w' : World} {ix : Instruction} {p : Pubkey} {P : Pool}

theorem Instruction.Flows.account {tokens tokens' : Tokens} (h : ix.Flows env.rt tokens tokens')
    {key : Pubkey} {z : Holding} (hz : tokens key = some z) (hpayer : ix.payer ≠ some z.owner)
    (hpayee : ix.payee ≠ some z.owner) : custody tokens' key = custody tokens key := by
  rcases h with hmoves | ⟨seeds, bump, key', mint, -, hnone, rfl⟩
  · obtain ⟨z', hz', -, -, -, heq⟩ := hmoves.account (custody_eq_some hz)
    rw [hz', heq hpayer hpayee, custody_eq_some hz]
  · have hne : key ≠ key' := by
      rintro rfl
      rw [hnone] at hz
      cases hz
    simp [custody, hne]

theorem Instruction.Touches.other (hw : w.Sound env.rt)
    (hsign : ∀ key ∈ env.signers, env.rt.signable key = true) (h : ix.Touches env w w')
    (hne : ix.pool ≠ p) (hP : w.pools p = some P) : w'.pools p = some P ∧
      w'.stakerAt p = w.stakerAt p ∧ ∀ x, w'.vaultBalance p x = w.vaultBalance p x := by
  obtain ⟨P', hpools⟩ := h.pool
  have hpool : w'.pools p = w.pools p := by rw [hpools, Function.update_of_ne hne.symm]
  refine ⟨hpool.trans hP, ?_, ?_⟩
  · funext k
    by_cases hk : ix.staker = some k
    · -- the account written is of the other pool
      obtain ⟨hold, a', ha', -, hapool'⟩ := h.staker k hk
      rw [World.stakerAt, World.stakerAt, ha']
      dsimp only
      rw [if_neg (hapool' ▸ hne)]
      cases ha : w.stakers k with
      | none => rfl
      | some a => exact (if_neg ((hold a ha).2 ▸ hne)).symm
    · rw [World.stakerAt, World.stakerAt, h.stakers k hk]
  · intro x
    refine vaultBalance_congr ?_ ?_
    · rw [World.vaultKey, World.vaultKey, hpool]
    · intro key hkey
      have hplaced := hw.pool hP
      have hx : P.vaultKey x = some key := by
        rw [← hkey, World.vaultKey, hP]
        rfl
      obtain ⟨z, hz, hzo, -⟩ := hplaced.vault_account hx
      have hcaller := hplaced.unsignable (hsign _ h.signed)
      have hnot : ∀ {u}, u = ix.caller ∨ u = ix.pool → u ≠ z.owner := by
        rintro u (rfl | rfl)
        · rw [hzo]
          exact hcaller
        · rw [hzo]
          exact hne
      have hpayer : ix.payer ≠ some z.owner := fun hu => hnot (Instruction.payer_eq hu) rfl
      have hpayee : ix.payee ≠ some z.owner := fun hu => hnot (Instruction.payee_eq hu) rfl
      rw [balance, balance, h.flows.account hz hpayer hpayee]

end Other

section Member
variable {rt : Runtime} {w w' : World} {p : Pubkey} {h : List (World × Event)} {s : Sys Pubkey}

theorem gift_of_absent {x : Vault} {e : Event} (hnone : w.pools p = none) :
    w.gift p x e = 0 := by
  cases e with
  | tx tx => rfl
  | outside after => simp [World.gift, World.vaultKey, hnone]

theorem cost_gift_of_absent {x : Vault} (hh : ∀ e ∈ h, ¬ (poolMember rt p).Live e.1) :
    cost (World.gift p x) h = 0 := by
  have hzero : cost (World.gift p x) h = cost (fun _ _ => (0 : ℤ)) h := by
    refine cost_congr ?_
    intro e he
    refine gift_of_absent (Option.eq_none_iff_forall_ne_some.mpr ?_)
    intro P hP
    exact hh e he ⟨P, hP⟩
  rw [hzero]
  simp [cost]

/-- What the chain keeps besides. -/
def World.Kept (rt : Runtime) (w : World) : Prop := w.Sound rt ∧ 0 ≤ w.clock.val

theorem World.Kept.step {e : Event} (hw : w.Kept rt) (hs : w.Step rt e w') : w'.Kept rt := by
  refine ⟨hw.1.step hs, ?_⟩
  cases hs with
  | tx hs =>
      obtain ⟨hclock, -, t, -, rfl⟩ := World.step_eq_ok_iff.mp hs
      exact hw.2.trans hclock
  | outside hs =>
      rw [hs.clock_eq]
      exact hw.2

theorem World.Initial.kept (h : w.Initial rt) : w.Kept rt := by
  refine ⟨World.Reachable.sound ⟨w, [], h, .refl⟩, ?_⟩
  rw [h.clock_eq]
  exact le_rfl

theorem World.Reachable.kept (hw : w.Reachable rt) : w.Kept rt :=
  hw.invariant (fun _ => World.Initial.kept) fun _ _ _ hi hs => hi.step hs

theorem InitializePool.born {env : Env} {ctx : InitializePool} {d : I64} {keeper : Pubkey}
    (hw : w.Sound env.rt) (hh : ∀ e ∈ h, ¬ (poolMember rt ctx.pool).Live e.1)
    (hrun : ctx.handler env w d keeper = .ok w') (tx : Tx) :
    ∃ s : Sys Pubkey, s.Initial ∧ w'.Matches ctx.pool s ∧ s.clock = 0 ∧
      ∀ x, (w'.vaultBalance ctx.pool x : ℤ) =
        s.ledger.vault x + cost (World.gift ctx.pool x) (h ++ [(w, .tx tx)]) := by
  obtain ⟨-, -, bump, vaultBump, pool, _, -, hvacant, -, -, hinit, -, rfl⟩ :=
    InitializePool.handler_eq_ok_iff.mp hrun
  obtain ⟨hnone, -⟩ := World.vacant_iff.mp hvacant
  refine ⟨Sys.genesis pool, ⟨_, _, _, _, _, _, _, hinit, rfl⟩, ⟨?_, ?_⟩, rfl, ?_⟩
  · simp [World.putPool, World.putToken, World.putLamports, Sys.genesis]
  · -- a staker account has its pool
    funext k
    rw [World.stakerAt]
    cases hk : w.stakers k with
    | none => simp [World.putPool, World.putToken, World.putLamports, Sys.genesis, hk]
    | some a =>
        have hne : a.pool ≠ ctx.pool := by
          intro hpool
          obtain ⟨-, P, hP⟩ := hw.staker hk
          rw [hpool, hnone] at hP
          cases hP
        simp [World.putPool, World.putToken, World.putLamports, Sys.genesis, hk, hne]
  · intro x
    simp only [initPool, bind_eq_ok_iff, require_eq_ok_iff, pure_eq_ok_iff] at hinit
    obtain ⟨-, -, rfl⟩ := hinit
    have hzero : World.gift ctx.pool x w (.tx tx) = 0 := rfl
    rw [cost_snoc, cost_gift_of_absent hh, hzero]
    cases x with
    | stake =>
        simp [World.vaultBalance, World.vaultKey, World.putPool, World.putToken,
          World.putLamports, Pool.vaultKey, balance, custody, Holding.opened, Holding.account,
          Ledger.vault, Sys.genesis, Ledger.empty]
    | reward i =>
        simp [World.vaultBalance, World.vaultKey, World.putPool, World.putToken,
          World.putLamports, Pool.vaultKey, Pool.Registered, Pool.zeroed, RewardInfo.zeroed, Ledger.vault, Sys.genesis, Ledger.empty]

/-- Every pool of the chain is simulated by a system, under the calls made on it. -/
theorem poolMember_simulated (rt : Runtime) (p : Pubkey) :
    (poolMember rt p).Simulated (World.Step rt) (World.Kept rt) Sys.Initial Sys.Step where
  silent := by
    intro w e w' hw hs hdead
    have hnone : w.pools p = none := by
      refine Option.eq_none_iff_forall_ne_some.mpr ?_
      intro P hP
      exact hdead ⟨P, hP⟩
    cases hs with
    | outside hs => rfl
    | @tx tx _ hs =>
        obtain ⟨-, -, t, ht, rfl⟩ := World.step_eq_ok_iff.mp hs
        change Event.call rt p (.tx tx) = none
        rw [Event.call]
        split
        · rename_i hpool
          obtain ⟨hop, -⟩ := Instruction.opens ht (hpool ▸ hnone)
          have hop : tx.instruction.op rt = none := hop
          rw [hop]
          rfl
        · rfl
  born := by
    intro h w e w' hw hs hdead hlive hh
    obtain ⟨P, hP⟩ := hlive
    have hnone : w.pools p = none := by
      refine Option.eq_none_iff_forall_ne_some.mpr ?_
      intro P hP
      exact hdead ⟨P, hP⟩
    cases hs with
    | outside hs =>
        rw [hs.pools_eq, hnone] at hP
        cases hP
    | @tx tx _ hs =>
        have htouch := hw.1.step_touches hs
        obtain ⟨hclock, hsign, t, ht, rfl⟩ := World.step_eq_ok_iff.mp hs
        have hsound : w.Sound (tx.env rt).rt := hw.1
        obtain ⟨P', hpools⟩ := htouch.pool
        have hpool : tx.instruction.pool = p := by
          by_contra hne
          have hP : t.pools p = some P := hP
          rw [hpools, Function.update_of_ne (Ne.symm hne), hnone] at hP
          cases hP
        obtain ⟨-, ctx, d, keeper, hix⟩ := Instruction.opens ht (hpool ▸ hnone)
        rw [hix] at ht hpool
        subst hpool
        obtain ⟨s, hinit, hm, hzero, hvault⟩ := InitializePool.born hsound hh ht tx
        refine ⟨s, hinit, ⟨⟨hm.pool, hm.staker⟩, ?_, hvault⟩⟩
        rw [hzero]
        exact hw.2.trans hclock
  moves := by
    intro h w e w' s₀ l s hw hs hlive hinit r hshows
    obtain ⟨P, hP⟩ := hlive
    cases hs with
    | outside hs =>
        refine ⟨⟨P, by rw [hs.pools_eq]; exact hP⟩, .inl ⟨rfl, ⟨⟨?_, ?_⟩, ?_, ?_⟩⟩⟩
        · rw [hs.pools_eq]
          exact hshows.pool
        · rw [hshows.staker]
          funext k
          rw [World.stakerAt, World.stakerAt, hs.stakers_eq]
        · rw [hs.clock_eq]
          exact hshows.clock_le
        · intro x
          rw [vaultBalance_outside hs, hshows.vault_eq x, cost_snoc]
          ring
    | @tx tx _ hs =>
        have htouch := hw.1.step_touches hs
        obtain ⟨hclock, hsign, t, ht, rfl⟩ := World.step_eq_ok_iff.mp hs
        have hsound : w.Sound (tx.env rt).rt := hw.1
        by_cases hpool : tx.instruction.pool = p
        · subst hpool
          have hpacked := (Sys.Reachable.registry ⟨s₀, l, hinit, r⟩).2
          obtain ⟨op, hop, s', hperform, hm, hvault⟩ :=
            Instruction.own hsound hsign hpacked hshows.toMatches ht
          have hop : tx.instruction.op rt = some op := hop
          refine ⟨⟨_, hm.pool⟩, .inr ⟨⟨tx.now, op⟩, { s' with clock := tx.now }, ?_, ?_, ?_⟩⟩
          · change Event.call rt _ (.tx tx) = _
            rw [Event.call, if_pos rfl, hop]
            rfl
          · exact Sys.step_eq_ok_iff.mpr ⟨hshows.clock_le.trans hclock, s', hperform, rfl⟩
          · refine ⟨⟨hm.pool, hm.staker⟩, le_rfl, ?_⟩
            intro x
            have hx := hvault x
            rw [hshows.vault_eq x] at hx
            have hzero : World.gift tx.instruction.pool x w (.tx tx) = 0 := rfl
            rw [cost_snoc, hzero, add_zero]
            refine hx.trans ?_
            ring
        · obtain ⟨hP', hstakers, hvaults⟩ := htouch.other hsound hsign hpool hP
          have hlabel : Event.call rt p (.tx tx) = none := by
            rw [Event.call, if_neg hpool]
          refine ⟨⟨P, hP'⟩, .inl ⟨hlabel, ⟨⟨?_, ?_⟩, ?_, ?_⟩⟩⟩
          · have hsame : s.pool = P := Option.some.inj (hshows.pool.symm.trans hP)
            rw [hsame]
            exact hP'
          · exact hshows.staker.trans hstakers.symm
          · exact hshows.clock_le.trans hclock
          · intro x
            have hzero : World.gift p x w (.tx tx) = 0 := rfl
            rw [cost_snoc, hzero, add_zero, ← hshows.vault_eq x]
            exact congrArg Nat.cast (hvaults x)

theorem gift_nonneg {x : Vault} {e : Event} (hw : w.Sound rt) (hs : w.Step rt e w') :
    0 ≤ w.gift p x e := by
  cases hs with
  | tx hs => exact le_rfl
  | outside hs =>
      unfold World.gift
      dsimp only
      split
      · rename_i key hkey
        cases hP : w.pools p with
        | none =>
            rw [World.vaultKey, hP] at hkey
            cases hkey
        | some P =>
            rw [World.vaultKey, hP] at hkey
            obtain ⟨bump, hfound⟩ := (hw.pool hP).vault_derived hkey
            obtain ⟨z, hz, -⟩ := (hw.pool hP).vault_account hkey
            obtain ⟨z', hz', -, -, hle⟩ := hs.holding_kept (Pda.create_of_find hfound) hz
            rw [balance_eq hz, balance_eq hz']
            omega
      · exact le_rfl

theorem cost_gift_nonneg {start : World} {x : Vault} (hstart : start.Kept rt)
    (r : Run (World.Step rt) start h w) : 0 ≤ cost (World.gift p x) h := by
  induction r with
  | refl => exact le_rfl
  | @tail h w e w' r hs ih =>
      have hkept : w.Kept rt := r.invariant hstart fun _ _ _ hi hs => hi.step hs
      have hgift := gift_nonneg (p := p) (x := x) hkept.1 hs
      rw [cost_snoc]
      omega

theorem callsOn_enrolled (r : Run (World.Step rt) w h w') {c : Call Pubkey}
    (hc : c ∈ callsOn rt p h) {mint vault : Pubkey} (hop : c.op.enrolled = some (mint, vault)) :
    ∃ bump, rt.find (.rewardVault p mint) = some (vault, bump) := by
  induction r with
  | refl => cases hc
  | @tail h w e w' r hs ih =>
      rw [callsOn, List.filterMap_append, List.mem_append] at hc
      rcases hc with hc | hc
      · exact ih hc
      · simp only [List.filterMap_cons, List.filterMap_nil] at hc
        cases hs with
        | outside hs => cases hc
        | @tx tx _ hs =>
            obtain ⟨-, -, t, ht, -⟩ := World.step_eq_ok_iff.mp hs
            rw [Event.call] at hc
            split at hc
            · cases hc
            · rename_i c' hcall
              obtain rfl := List.mem_singleton.mp hc
              split at hcall
              · rename_i hpool
                obtain ⟨op, hix, rfl⟩ := Option.map_eq_some_iff.mp hcall
                cases hinstr : tx.instruction with
                | addReward ctx d =>
                    rw [hinstr] at ht hpool hix
                    cases hix
                    cases hop
                    obtain ⟨-, -, P, P', bump, _, -, -, -, hfound, -⟩ :=
                      AddReward.handler_eq_ok_iff.mp ht
                    have hpool : ctx.pool = p := hpool
                    exact ⟨bump, by rw [← hpool]; exact hfound⟩
                | _ =>
                    rw [hinstr] at hix
                    cases hix <;> cases hop
              · cases hcall

theorem derivedVaults_of_run {l : List (Sys Pubkey × Call Pubkey)}
    (r : Run (World.Step rt) w h w') (hl : l.map Prod.snd = callsOn rt p h) :
    DerivedVaults l := by
  have hfound : ∀ k ∈ enrollments l, ∃ bump, rt.find (.rewardVault p k.1) = some (k.2, bump) := by
    intro k hk
    rw [enrollments, hl] at hk
    obtain ⟨c, hc, hop⟩ := List.mem_filterMap.mp hk
    exact callsOn_enrolled r hc hop
  constructor
  · intro k hk hzero
    obtain ⟨bump, hfind⟩ := hfound k hk
    rw [hzero] at hfind
    exact rt.create_ne_zero (Pda.create_of_find hfind)
  · intro k hk k' hk' hsame
    obtain ⟨bump, hfind⟩ := hfound k hk
    obtain ⟨bump', hfind'⟩ := hfound k' hk'
    rw [hsame] at hfind
    have hseeds := rt.injective (Pda.create_of_find hfind) (Pda.create_of_find hfind')
    simp only [Seeds.rewardVault.injEq] at hseeds
    exact hseeds.2

theorem World.Initial.run {w₀ : World} (h0 : w₀.Initial rt) (r : Run (World.Step rt) w₀ h w)
    (p : Pubkey) : (w.pools p = none → callsOn rt p h = []) ∧
      ∀ P, w.pools p = some P → ∃ (s₀ : Sys Pubkey) (l : List (Sys Pubkey × Call Pubkey))
        (s : Sys Pubkey), s₀.Initial ∧ Run Sys.Step s₀ l s ∧ l.map Prod.snd = callsOn rt p h ∧
          World.Shows p h w s := by
  have hdead : ¬ (poolMember rt p).Live w₀ := by
    rintro ⟨Q, hQ⟩
    rw [h0.pools_none] at hQ
    cases hQ
  obtain ⟨habsent, hlive⟩ := r.member (poolMember_simulated rt p) h0.kept
    (fun _ _ _ hi hs => hi.step hs) hdead
  constructor
  · intro hnone
    refine (habsent ?_).1
    rintro ⟨Q, hQ⟩
    rw [hnone] at hQ
    cases hQ
  · intro P hP
    exact hlive ⟨P, hP⟩

theorem World.Reachable.segment {P : Pool} (hw : w.Reachable rt)
    (r : Run (World.Step rt) w h w') (hP : w.pools p = some P) :
    ∃ (g : List (World × Event)) (s : Sys Pubkey) (l : List (Sys Pubkey × Call Pubkey))
      (s' : Sys Pubkey), s.Reachable ∧ World.Shows p g w s ∧ Run Sys.Step s l s' ∧
        l.map Prod.snd = callsOn rt p h ∧ World.Shows p (g ++ h) w' s' := by
  obtain ⟨w₀, g, h0, r₀⟩ := hw
  obtain ⟨s₀, l₀, s, hinit, r₀', -, hshows⟩ := (h0.run r₀ p).2 P hP
  have hkept : w.Kept rt := r₀.invariant h0.kept fun _ _ _ hi hs => hi.step hs
  obtain ⟨-, l, s', r', hlabels, hshows'⟩ := r.member_live (poolMember_simulated rt p) hkept
    (fun _ _ _ hi hs => hi.step hs) ⟨P, hP⟩ hinit r₀' hshows
  exact ⟨g, s, l, s', ⟨s₀, l₀, hinit, r₀'⟩, hshows, r', hlabels, hshows'⟩

/-- A pool of a reachable world is a reachable system, no vault of which holds less than its
ledger says. -/
theorem World.Reachable.pool {P : Pool} (hw : w.Reachable rt) (hP : w.pools p = some P) :
    ∃ s : Sys Pubkey, s.Reachable ∧ s.pool = P ∧ s.staker = w.stakerAt p ∧
      s.clock.val ≤ w.clock.val ∧ ∀ x, s.ledger.vault x ≤ w.vaultBalance p x := by
  obtain ⟨w₀, h, h0, r⟩ := hw
  obtain ⟨s₀, l, s, hinit, r', -, hshows⟩ := (h0.run r p).2 P hP
  refine ⟨s, ⟨s₀, l, hinit, r'⟩, Option.some.inj (hshows.pool.symm.trans hP), hshows.staker,
    hshows.clock_le, ?_⟩
  intro x
  have hgift := cost_gift_nonneg (p := p) (x := x) h0.kept r
  rw [hshows.vault_eq x]
  omega

theorem World.Reachable.own_step {P : Pool} {tx : Tx} (hw : w.Reachable rt)
    (hP : w.pools p = some P) (hs : w.step rt tx = .ok w') (hpool : tx.instruction.pool = p) :
    ∃ (s : Sys Pubkey) (op : Op Pubkey) (s' : Sys Pubkey), s.Reachable ∧ w.Matches p s ∧
      s.clock.val ≤ tx.now.val ∧ tx.instruction.op rt = some op ∧
      s.perform tx.now op = .ok s' ∧ w'.Matches p s' := by
  obtain ⟨s, hreach, rfl, hstaker, hle, -⟩ := hw.pool hP
  have hm : w.Matches p s := ⟨hP, hstaker⟩
  obtain ⟨hclock, hsign, t, ht, rfl⟩ := World.step_eq_ok_iff.mp hs
  have hsound : w.Sound (tx.env rt).rt := hw.sound
  subst hpool
  obtain ⟨op, hop, s', hperform, hm', -⟩ :=
    Instruction.own hsound hsign hreach.registry.2 hm ht
  exact ⟨s, op, s', hreach, hm, hle.trans hclock, hop, hperform, hm'.pool, hm'.staker⟩

theorem World.Reachable.pool_invariant {P : Pool} {I : Pool → (Pubkey → StakerAccount) → Prop}
    (hw : w.Reachable rt) (r : Run (World.Step rt) w h w') (hP : w.pools p = some P)
    (h0 : I P (w.stakerAt p))
    (hstep : ∀ t tx t' s op s', (t, Event.tx tx) ∈ h → t.step rt tx = .ok t' →
      tx.instruction.pool = p → s.Reachable → t.Matches p s → s.clock.val ≤ tx.now.val →
      tx.instruction.op rt = some op → s.perform tx.now op = .ok s' →
      I s.pool s.staker → I s'.pool s'.staker) :
    ∃ P', w'.pools p = some P' ∧ I P' (w'.stakerAt p) := by
  induction r with
  | refl => exact ⟨P, hP, h0⟩
  | @tail h t e t' r hs ih =>
      obtain ⟨Q, hQ, hI⟩ := ih fun t tx t' s op s' hmem =>
        hstep t tx t' s op s' (List.mem_append_left _ hmem)
      have ht := hw.run r
      cases hs with
      | outside hs =>
          have hstaker : t'.stakerAt p = t.stakerAt p := by
            funext k
            rw [World.stakerAt, World.stakerAt, hs.stakers_eq]
          rw [hs.pools_eq, hstaker]
          exact ⟨Q, hQ, hI⟩
      | @tx tx _ hs =>
          by_cases hpool : tx.instruction.pool = p
          · obtain ⟨s, op, s', hreach, hm, hclock, hop, hperform, hm'⟩ := ht.own_step hQ hs hpool
            obtain rfl : s.pool = Q := Option.some.inj (hm.pool.symm.trans hQ)
            rw [← hm.staker] at hI
            refine ⟨s'.pool, hm'.pool, ?_⟩
            rw [← hm'.staker]
            exact hstep t tx t' s op s' (by simp) hs hpool hreach hm hclock hop hperform hI
          · obtain ⟨-, hsign, -⟩ := World.step_eq_ok_iff.mp hs
            have hsound : t.Sound (tx.env rt).rt := ht.sound
            obtain ⟨hQ', hstaker, -⟩ := (ht.sound.step_touches hs).other hsound hsign hpool hQ
            rw [hstaker]
            exact ⟨Q, hQ', hI⟩

theorem callsOn_congr {rt : Runtime} {p : Pubkey} {h : List (World × Event)} {l : List Event}
    (hl : h.map Prod.snd = l) : callsOn rt p h = l.filterMap fun e => e.call rt p := by
  rw [← hl, List.filterMap_map]
  rfl

theorem callsOn_trial : callsOn World.trialRuntime 100 World.trialHistory =
    [ ⟨0, .addReward 7 102 100⟩,
      ⟨0, .stake 111 1 100 255 100⟩,
      ⟨0, .depositRewards 7 1000⟩,
      ⟨10, .stake 112 2 100 255 300⟩,
      ⟨50, .claim 111 [102]⟩ ] := by
  rw [callsOn_congr World.trial_run.2]
  rfl

end Member
end MmStaking
