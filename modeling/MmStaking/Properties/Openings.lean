import MmStaking.Properties.Custody
import MmStaking.Properties.Redemption

/-! Openings: nothing but the program opens an account at one of its addresses. So a mint gets
its pool and its slots when nothing is in the way but the program's own rules and the rent, and
nobody can keep the addresses from it. -/
namespace MmStaking
open Words Loops Runs Custody

variable {rt : Runtime} {w w' : World} {key : Pubkey} {seeds : Seeds} {bump : U8}

/-- The account that is at the address of the seeds once the program has opened it. -/
def World.Occupied (w : World) (key : Pubkey) : Seeds → Prop
  | .pool mint => ∃ P, w.pools key = some P ∧ P.stakeMint = mint
  | .stakeVault p => ∃ P, w.pools p = some P ∧ P.stakeVault = key
  | .rewardVault p mint => ∃ P i, w.pools p = some P ∧ P.Registered i ∧
      (P.rewards i).keys = (mint, key)
  | .staker p u => ∃ a, w.stakers key = some a ∧ a.pool = p ∧ a.owner = u

theorem World.Occupied.step {e : Event} (hw : w.Reachable rt) (hs : w.Step rt e w')
    (h : w.Occupied key seeds) : w'.Occupied key seeds := by
  have r : Run (World.Step rt) w [(w, e)] w' := Run.refl.tail hs
  cases seeds with
  | pool mint =>
      obtain ⟨P, hP, rfl⟩ := h
      obtain ⟨P', hP', hmint, -⟩ := hw.keeps_pool r hP
      exact ⟨P', hP', hmint⟩
  | stakeVault p =>
      obtain ⟨P, hP, rfl⟩ := h
      obtain ⟨P', hP', -, -, hvault, -⟩ := hw.keeps_pool r hP
      exact ⟨P', hP', hvault⟩
  | rewardVault p mint =>
      obtain ⟨P, i, hP, hi, hkeys⟩ := h
      obtain ⟨P', hP', -, -, -, hkept⟩ := hw.keeps_pool r hP
      have hsame := hkept i hi
      refine ⟨P', i, hP', ?_, hsame.trans hkeys⟩
      have hmint : (P'.rewards i).mint = (P.rewards i).mint := congrArg Prod.fst hsame
      rw [Pool.Registered, hmint]
      exact hi
  | staker p u =>
      obtain ⟨a, hk, rfl, rfl⟩ := h
      obtain ⟨a', hk', hpool, howner⟩ := (hw.kept.run r).2 key a hk
      exact ⟨a', hk', hpool, howner⟩

theorem Instruction.opens_vault {env : Env} {ix : Instruction} {mint : Pubkey}
    (hw' : w'.Sound env.rt) (h : ix.handle env w = .ok w')
    (hopening : ix.opening = some (seeds, mint)) (hfound : env.rt.find seeds = some (key, bump)) :
    w'.Occupied key seeds := by
  cases ix with
  | initializePool ctx d keeper =>
      cases hopening
      obtain ⟨-, -, _, _, pool, lamports, -, -, -, -, -, -, rfl⟩ :=
        InitializePool.handler_eq_ok_iff.mp h
      have hP : (((w.putPool ctx.pool pool).putToken ctx.stakeVault
          (.opened ctx.stakeMint ctx.pool)).putLamports lamports).pools ctx.pool = some pool :=
        Function.update_self _ _ _
      obtain ⟨bump', hvault⟩ := (hw'.pool hP).vault_found
      rw [hfound, Option.some.injEq, Prod.mk.injEq] at hvault
      exact ⟨pool, hP, hvault.1.symm⟩
  | addReward ctx d =>
      cases hopening
      obtain ⟨-, -, P, P', bump', _, -, -, -, hvault, -, hadd, -, rfl⟩ :=
        AddReward.handler_eq_ok_iff.mp h
      rw [hfound, Option.some.injEq, Prod.mk.injEq] at hvault
      obtain ⟨hnew, idx, count, hidx, -, rfl⟩ := addReward_eq_ok_iff.mp hadd
      have hmint : ctx.rewardMint ≠ 0 := by
        intro hzero
        have hempty : (P.rewards idx).mint = 0 := not_not.mp (freeSlot_some hidx)
        exact findSlot_none hnew idx (hempty.trans hzero.symm)
      refine ⟨_, idx, Function.update_self _ _ _, ?_, ?_⟩
      · simpa [Pool.Registered, Pool.setReward] using hmint
      · simp [Pool.setReward, RewardInfo.keys, hvault.1]
  | _ => cases hopening

theorem World.Reachable.opens_own {tx : Tx} (hw : w.Reachable rt) (hs : w.step rt tx = .ok w')
    (hcreate : rt.create seeds bump = some key) (hvacant : w.vacant key = true) :
    w'.vacant key = true ∨ w'.Occupied key seeds := by
  have hsound' := (hw.step (.tx hs)).sound
  have htouch := hw.sound.step_touches hs
  obtain ⟨hpool, hstaker, htoken, hmint⟩ := World.vacant_iff.mp hvacant
  obtain ⟨P', hpools⟩ := htouch.pool
  by_cases hkp : key = tx.instruction.pool
  · right
    have hP' : w'.pools key = some P' := by rw [hpools, hkp, Function.update_self]
    obtain rfl := rt.injective hcreate (Pda.create_of_find (hsound'.pool hP').found)
    exact ⟨P', hP', rfl⟩
  by_cases hks : tx.instruction.staker = some key
  · right
    obtain ⟨-, a', ha', -⟩ := htouch.staker key hks
    obtain rfl := rt.injective hcreate (Pda.create_of_find (hsound'.staker ha').1.found)
    exact ⟨a', ha', rfl, rfl⟩
  have hpool' : w'.pools key = none := by rw [hpools, Function.update_of_ne hkp, hpool]
  have hstaker' : w'.stakers key = none := (htouch.stakers key hks).trans hstaker
  have hmint' : w'.mints key = false := by rw [htouch.mints, hmint]
  rcases htouch.flows with hmoves | ⟨seeds', bump', key', mint, ⟨hopening, hfound⟩, -, htokens⟩
  · left
    have hnone : custody w.tokens key = none := by rw [custody, htoken, Option.map_none]
    have hnone' := hmoves.none hnone
    rw [custody, Option.map_eq_none_iff] at hnone'
    exact World.vacant_iff.mpr ⟨hpool', hstaker', hnone', hmint'⟩
  · by_cases hkk : key = key'
    · right
      subst hkk
      have hfound : rt.find seeds' = some (key, bump') := hfound
      obtain rfl := rt.injective hcreate (Pda.create_of_find hfound)
      obtain ⟨-, -, t, ht, rfl⟩ := World.step_eq_ok_iff.mp hs
      have hsound : t.Sound (tx.env rt).rt :=
        ⟨hsound'.pool, hsound'.staker, hsound'.empty, hsound'.blank⟩
      have hocc := Instruction.opens_vault hsound ht hopening hfound
      cases seeds <;> exact hocc
    · left
      refine World.vacant_iff.mpr ⟨hpool', hstaker', ?_, hmint'⟩
      rw [htokens, Function.update_of_ne hkk, htoken]

theorem World.Reachable.unsquatted (hw : w.Reachable rt)
    (hcreate : rt.create seeds bump = some key) :
    w.vacant key = true ∨ w.Occupied key seeds := by
  refine (hw.invariant (I := fun w => w.Reachable rt ∧
    (w.vacant key = true ∨ w.Occupied key seeds)) ?_ ?_).2
  · intro w h0
    exact ⟨⟨w, [], h0, .refl⟩, .inl (h0.vacant hcreate)⟩
  · intro w e w' ⟨hw, hcase⟩ hs
    refine ⟨hw.step hs, ?_⟩
    rcases hcase with hvacant | hocc
    · cases hs with
      | outside hs => exact .inl (hs.vacant_kept hcreate hvacant)
      | tx hs => exact hw.opens_own hs hcreate hvacant
    · exact .inr (hocc.step hw hs)

section Slots
variable {P : Pool} {mint vault : Pubkey} {d now : I64}

theorem Pool.Packed.addReward_isOk_iff (hp : P.Packed) :
    (∃ P', addReward P mint vault d now = .ok P') ↔
      mint ≠ 0 ∧ P.rewardCount.val < MAX_REWARDS ∧
        ∀ i, P.Registered i → (P.rewards i).mint ≠ mint := by
  simp only [addReward_eq_ok_iff]
  constructor
  · rintro ⟨P', hnew, idx, count, hidx, -, -⟩
    have hval := hp.freeSlot_val hidx
    refine ⟨?_, hval ▸ idx.isLt, fun i _ => findSlot_none hnew i⟩
    have hempty : (P.rewards idx).mint = 0 := not_not.mp (freeSlot_some hidx)
    intro hzero
    exact findSlot_none hnew idx (hempty.trans hzero.symm)
  · rintro ⟨hmint, hlt, hnew⟩
    have hfree : freeSlot P = some ⟨P.rewardCount.val, hlt⟩ := by
      refine freeSlot_eq_some_iff.mpr ⟨mt (hp.occupied _).mp (lt_irrefl _), ?_⟩
      intro j hj
      exact (hp.occupied j).mpr hj
    have hnone : findSlot P mint = none := by
      cases hfind : findSlot P mint with
      | none => rfl
      | some i =>
          have hi := (findSlot_eq_some_iff.mp hfind).1
          by_cases hreg : P.Registered i
          · exact absurd hi (hnew i hreg)
          · exact absurd (hi.symm.trans (not_not.mp hreg)) hmint
    have hfits : P.rewardCount.val + 1 < 2 ^ 8 := by
      have hlt : P.rewardCount.val < 8 := hlt
      omega
    obtain ⟨count, hcount⟩ := Unsigned.exists_val hfits
    exact ⟨_, hnone, _, count, hfree, hcount, rfl⟩

end Slots

/-- Whoever can sign and pay the rent opens the pool of a mint as its admin exactly if it gives
a duration and the mint has no pool yet; and the admin of a pool, if it can pay, adds a slot for
a mint exactly if the mint is new to the pool and fewer than eight are taken. -/
theorem openings_unblocked (hw : w.Reachable rt) {now : I64} (hnow : w.clock.val ≤ now.val) :
    (∀ (ctx : InitializePool) (d : I64) (keeper : Pubkey) (bump vaultBump : U8),
      rt.signable ctx.admin = true → rt.find (.pool ctx.stakeMint) = some (ctx.pool, bump) →
      rt.find (.stakeVault ctx.pool) = some (ctx.stakeVault, vaultBump) →
      ((∃ w', w.step rt ((Instruction.initializePool ctx d keeper).alone now) = .ok w') ↔
        (w.mints ctx.stakeMint = true ∧ 0 < d.val ∧ w.pools ctx.pool = none) ∧
          ∃ lamports, ctx.Pays rt w lamports)) ∧
    ∀ (ctx : AddReward) (d : I64) (P : Pool) (bump : U8), w.pools ctx.pool = some P →
      rt.signable P.admin = true → ctx.admin = P.admin →
      rt.find (.rewardVault ctx.pool ctx.rewardMint) = some (ctx.rewardVault, bump) →
      ((∃ w', w.step rt ((Instruction.addReward ctx d).alone now) = .ok w') ↔
        (w.mints ctx.rewardMint = true ∧ ctx.rewardMint ≠ 0 ∧ P.rewardCount.val < MAX_REWARDS ∧
          ∀ i, P.Registered i → (P.rewards i).mint ≠ ctx.rewardMint) ∧
          ∃ lamports, ctx.Pays rt w lamports) := by
  constructor
  · intro ctx d keeper bump vaultBump hu hfound hfound'
    constructor
    · rintro ⟨w', hs⟩
      obtain ⟨-, -, t, ht, -⟩ := World.step_eq_ok_iff.mp hs
      obtain ⟨-, hmint, _, _, pool, lamports, -, hvacant, -, -, hinit, hpays, -⟩ :=
        InitializePool.handler_eq_ok_iff.mp ht
      simp only [initPool, bind_eq_ok_iff, require_eq_ok_iff] at hinit
      obtain ⟨-, hd, -⟩ := hinit
      exact ⟨⟨hmint, hd, (World.vacant_iff.mp hvacant).1⟩, lamports, hpays⟩
    · rintro ⟨⟨hmint, hd, hnone⟩, lamports, hpays⟩
      have hvacant : w.vacant ctx.pool = true := by
        rcases hw.unsquatted (Pda.create_of_find hfound) with hvacant | ⟨P, hP, -⟩
        · exact hvacant
        · rw [hnone] at hP
          cases hP
      have hvacant' : w.vacant ctx.stakeVault = true := by
        rcases hw.unsquatted (Pda.create_of_find hfound') with hvacant | ⟨P, hP, -⟩
        · exact hvacant
        · rw [hnone] at hP
          cases hP
      have hne : ctx.stakeVault ≠ ctx.pool := by
        intro hsame
        rw [hsame] at hfound'
        cases rt.injective (Pda.create_of_find hfound) (Pda.create_of_find hfound')
      have hput : (w.putPool ctx.pool .zeroed).vacant ctx.stakeVault = true := by
        obtain ⟨hpool, hrest⟩ := World.vacant_iff.mp hvacant'
        exact World.vacant_iff.mpr ⟨(Function.update_of_ne hne _ _).trans hpool, hrest⟩
      obtain ⟨pool, hinit⟩ : ∃ pool, initPool .zeroed ctx.admin keeper ctx.stakeMint
          ctx.stakeVault d bump = .ok pool := by
        simp only [initPool, bind_eq_ok_iff, require_eq_ok_iff]
        exact ⟨_, (), hd, rfl⟩
      exact ⟨_, Instruction.step_alone hu hnow (InitializePool.handler_eq_ok_iff.mpr
        ⟨List.mem_singleton_self _, hmint, bump, vaultBump, pool, lamports, hfound, hvacant,
          hfound', hput, hinit, hpays, rfl⟩)⟩
  · intro ctx d P bump hP hu hadmin hfound
    obtain ⟨s, hs, rfl, -⟩ := hw.pool hP
    have hiff : (∃ P', addReward s.pool ctx.rewardMint ctx.rewardVault d now = .ok P') ↔ _ :=
      hs.registry.2.addReward_isOk_iff
    have hsigned : rt.signable ctx.admin = true := by
      rw [hadmin]
      exact hu
    rw [← hiff]
    constructor
    · rintro ⟨w', hstep⟩
      obtain ⟨-, -, t, ht, -⟩ := World.step_eq_ok_iff.mp hstep
      obtain ⟨-, hmint, Q, P', _, lamports, hQ, -, -, -, -, hadd, hpays, -⟩ :=
        AddReward.handler_eq_ok_iff.mp ht
      rw [hP, Option.some.injEq] at hQ
      subst hQ
      exact ⟨⟨hmint, P', hadd⟩, lamports, hpays⟩
    · rintro ⟨⟨hmint, P', hadd⟩, lamports, hpays⟩
      obtain ⟨-, -, hnew⟩ := hiff.mp ⟨P', hadd⟩
      have hvacant : w.vacant ctx.rewardVault = true := by
        rcases hw.unsquatted (Pda.create_of_find hfound) with hvacant | ⟨Q, i, hQ, hi, hkeys⟩
        · exact hvacant
        · rw [hP, Option.some.injEq] at hQ
          subst hQ
          exact absurd (congrArg Prod.fst hkeys) (hnew i hi)
      exact ⟨_, Instruction.step_alone hsigned hnow (AddReward.handler_eq_ok_iff.mpr
        ⟨List.mem_singleton_self _, hmint, s.pool, P', bump, lamports, hP, hadmin,
          Pda.create_of_find (hw.sound.pool hP).found, hfound, hvacant, hadd, hpays, rfl⟩)⟩

/-- The pool of the trial can be opened, but not by the keeper, who cannot pay for its vault as
well; and it takes no second slot for its mint. -/
theorem openings_unblocked_trial :
    (∃ w', World.trialStart.step World.trialRuntime
      ((Instruction.initializePool ⟨4, 5, 100, 101⟩ 3600 3).alone 0) = .ok w') ∧
    (¬ ∃ w', World.trialStart.step World.trialRuntime
      ((Instruction.initializePool ⟨3, 5, 100, 101⟩ 3600 3).alone 0) = .ok w') ∧
    ¬ ∃ w', World.trial.step World.trialRuntime
      ((Instruction.addReward ⟨4, 100, 7, 102⟩ 50).alone 60) = .ok w' := by
  have hstart : World.trialStart.Reachable World.trialRuntime :=
    ⟨_, [], World.initial_trialStart, .refl⟩
  have hclock : World.trialStart.clock.val ≤ (0 : I64).val := by decide
  refine ⟨?_, ?_, ?_⟩
  · have hpays : ∃ lamports, InitializePool.Pays World.trialRuntime World.trialStart
        ⟨4, 5, 100, 101⟩ lamports := by
      unfold InitializePool.Pays
      exact ⟨_, _, rfl, rfl⟩
    exact ((openings_unblocked hstart hclock).1 ⟨4, 5, 100, 101⟩ 3600 3 255 255
      (by decide) (by decide) (by decide)).mpr ⟨⟨by decide, by decide, rfl⟩, hpays⟩
  · intro hopen
    obtain ⟨-, lamports, between, hpool, hvault⟩ := ((openings_unblocked hstart hclock).1
      ⟨3, 5, 100, 101⟩ 3600 3 255 255 (by decide) (by decide) (by decide)).mp hopen
    cases hpool
    cases hvault
  · obtain ⟨P, hP⟩ := Option.isSome_iff_exists.mp
      (show (World.trial.pools 100).isSome = true by decide +kernel)
    have hvals : (World.trial.pools 100).map (fun P => (P.admin, (P.rewards 0).mint)) =
        some (4, 7) := by decide +kernel
    rw [hP, Option.map_some, Option.some.injEq, Prod.mk.injEq] at hvals
    have hclock : World.trial.clock.val ≤ (60 : I64).val := by decide +kernel
    intro hadd
    obtain ⟨⟨-, -, -, hnew⟩, -⟩ := ((openings_unblocked World.reachable_trial hclock).2
      ⟨4, 100, 7, 102⟩ 50 P 255 hP (by rw [hvals.1]; decide) hvals.1.symm (by decide)).mp hadd
    refine hnew 0 ?_ hvals.2
    rw [Pool.Registered, hvals.2]
    decide

end MmStaking
