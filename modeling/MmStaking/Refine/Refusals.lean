import MmStaking.Refine.Failures
import MmStaking.Refine.Handlers

/-! How the handlers fail in the program: by an error of their own checks, or by the error of
their logic on the accounts that passed them. The constraints and the token program have errors
of their own. -/
namespace MmStaking
open Words Loops

section Checks
variable {env : Env} {w : World} {key payer mint authority source dest : Pubkey}
  {seeds : Seeds} {bump : U8} {tokens : Tokens} {amount : U64} {f : Fault}

@[simp] theorem ofLogic_eq_program_iff {α : Type} {x : Result α} :
    ofLogic x = .error (.program f) ↔ x = .error f := by
  cases x <;> simp [ofLogic]

theorem ensure_eq_program_iff {c : Prop} [Decidable c] {e : TxError} :
    ensure c e = .error (.program f) ↔ ¬ c ∧ e = .program f := by
  unfold ensure
  by_cases hc : c <;> simp [hc]

@[simp] theorem loaded_ne_program {α : Type} {o : Option α} :
    loaded o ≠ .error (.program f) := by
  cases o <;> simp [loaded]

@[simp] theorem signer_ne_program : signer env key ≠ .error (.program f) := by
  simp [signer, ensure_eq_program_iff]

@[simp] theorem loadMint_ne_program : loadMint w key ≠ .error (.program f) := by
  simp [loadMint, ensure_eq_program_iff]

@[simp] theorem seedsMatch_ne_program : seedsMatch env seeds bump key ≠ .error (.program f) := by
  simp [seedsMatch, ensure_eq_program_iff]

@[simp] theorem seedsFound_ne_program : seedsFound env seeds key ≠ .error (.program f) := by
  unfold seedsFound
  cases env.rt.find seeds with
  | none => simp
  | some found =>
      obtain ⟨key', bump⟩ := found
      by_cases hkey : key' = key <;> simp [hkey]

@[simp] theorem createAccount_ne_program :
    createAccount env w payer seeds key ≠ .error (.program f) := by
  intro h
  simp only [createAccount, bind_eq_error_iff, ensure_eq_program_iff, reduceCtorEq, and_false,
    false_or] at h
  obtain ⟨_, -, h⟩ := h
  split at h <;> cases h

@[simp] theorem initAt_ne_program : initAt env w payer seeds key ≠ .error (.program f) := by
  intro h
  simp only [initAt, bind_eq_error_iff, seedsFound_ne_program, createAccount_ne_program,
    pure_ne_error, and_false, exists_false, or_false] at h

@[simp] theorem stakerOrInit_ne_program :
    stakerOrInit env w payer seeds key ≠ .error (.program f) := by
  unfold stakerOrInit
  cases w.stakers key with
  | none =>
      intro h
      simp only [bind_eq_error_iff, createAccount_ne_program, pure_ne_error, and_false,
        exists_false, or_false] at h
  | some staker => simp

@[simp] theorem tokenMatches_ne_program {holding : Holding} :
    tokenMatches holding mint authority ≠ .error (.program f) := by
  intro h
  simp only [tokenMatches, bind_eq_error_iff, ensure_eq_program_iff, reduceCtorEq, and_false,
    exists_false, or_false] at h

@[simp] theorem transferTokens_ne_program :
    transferTokens env tokens source dest authority amount ≠ .error (.program f) := by
  unfold transferTokens
  cases env.rt.transfer tokens source dest authority amount <;> simp [Except.mapError]

@[simp] theorem transferSigned_ne_program {stakeMint : Pubkey} :
    transferSigned env tokens source dest authority stakeMint bump amount ≠
      .error (.program f) := by
  intro h
  simp only [transferSigned, bind_eq_error_iff, ensure_eq_program_iff, reduceCtorEq,
    transferTokens_ne_program, and_false, exists_false, or_false] at h

end Checks

section Logic
variable {pool : Pool} {slot : U8} {f : Fault}

theorem setRewardActive_error {active : Bool} (h : setRewardActive pool slot active = .error f) :
    f = .err .rewardNotFound := by
  simp only [setRewardActive, bind_eq_error_iff, okOr_eq_error_iff, pure_ne_error, and_false,
    exists_false, or_false] at h
  exact h.2

theorem setDuration_error {d : I64} (h : setDuration pool slot d = .error f) :
    f = .err .invalidDuration ∨ f = .err .rewardNotFound := by
  simp only [setDuration, bind_eq_error_iff, require_eq_error_iff, okOr_eq_error_iff,
    pure_ne_error, and_false, exists_false, or_false] at h
  obtain ⟨-, hf⟩ | ⟨_, -, -, hf⟩ := h
  · exact .inl hf
  · exact .inr hf

end Logic

section Handlers
variable {env : Env} {w : World} {f : Fault}

theorem InitializePool.handler_error {ctx : InitializePool} {d : I64} {keeper : Pubkey}
    (h : ctx.handler env w d keeper = .error (.program f)) : f = .err .invalidDuration := by
  simp only [InitializePool.handler, initPool, bind_eq_error_iff, Prod.exists, signer_ne_program,
    loadMint_ne_program, initAt_ne_program, ofLogic_eq_program_iff, require_eq_error_iff,
    pure_ne_error, and_false, exists_false, or_false, false_or] at h
  obtain ⟨_, -, _, -, _, _, -, _, _, -, -, hf⟩ := h
  exact hf

theorem AddReward.handler_error {ctx : AddReward} {d : I64}
    (h : ctx.handler env w d = .error (.program f)) : f = .err .unauthorized ∨
      ∃ P, w.pools ctx.pool = some P ∧
        addReward P ctx.rewardMint ctx.rewardVault d env.now = .error f := by
  simp only [AddReward.handler, bind_eq_error_iff, Prod.exists, signer_ne_program,
    loadMint_ne_program, initAt_ne_program, loaded_ne_program, loaded_eq_ok_iff,
    seedsMatch_ne_program, ofLogic_eq_program_iff, require_eq_error_iff, pure_ne_error, and_false,
    exists_false, or_false, false_or] at h
  obtain ⟨_, -, P, hP, _, -, _, _, -, ⟨-, hf⟩ | ⟨_, -, _, -, hadd⟩⟩ := h
  · exact .inl hf
  · exact .inr ⟨P, hP, hadd⟩

theorem AdminOnly.run_error {ctx : AdminOnly} {logic : Pool → Result Pool}
    (h : ctx.run env w logic = .error (.program f)) : f = .err .unauthorized ∨
      ∃ P, w.pools ctx.pool = some P ∧ logic P = .error f := by
  simp only [AdminOnly.run, AdminOnly.tryAccounts, bind_eq_error_iff, signer_ne_program,
    loaded_ne_program, loaded_eq_ok_iff, seedsMatch_ne_program, ofLogic_eq_program_iff,
    require_eq_error_iff, bind_eq_ok_iff, pure_eq_ok_iff, pure_ne_error, and_false, exists_false,
    or_false, false_or] at h
  obtain ⟨_, -, P, hP, -, hf⟩ | ⟨P, ⟨_, -, _, hP, _, -, _, -, rfl⟩, hlogic⟩ := h
  · exact .inl hf
  · exact .inr ⟨_, hP, hlogic⟩

theorem Stake.tryAccounts_ne_program {ctx : Stake} :
    ctx.tryAccounts env w ≠ .error (.program f) := by
  intro h
  simp only [Stake.tryAccounts, bind_eq_error_iff, signer_ne_program, loaded_ne_program,
    loadMint_ne_program, seedsFound_ne_program, stakerOrInit_ne_program, seedsMatch_ne_program,
    ensure_eq_program_iff, tokenMatches_ne_program, reduceCtorEq, pure_ne_error, and_false,
    exists_false, or_false] at h

theorem Stake.handler_error {ctx : Stake} {amount : U64}
    (h : ctx.handler env w amount = .error (.program f)) :
    (f = .err .zeroAmount ∨ f = .err .paused) ∨ ∃ P a bump, ctx.Loads env w P a bump ∧
      stake P a ctx.owner ctx.pool bump amount env.now = .error f := by
  simp only [Stake.handler, bind_eq_error_iff, Prod.exists, Stake.tryAccounts_ne_program,
    Stake.tryAccounts_eq_ok_iff, ofLogic_eq_program_iff, require_eq_error_iff,
    transferTokens_ne_program, pure_ne_error, and_false, exists_false, or_false, false_or] at h
  obtain ⟨P, a, bump, _, ⟨hloads, -⟩, ⟨-, hf⟩ | ⟨_, -, ⟨-, hf⟩ | ⟨_, -, hstake⟩⟩⟩ := h
  · exact .inl (.inl hf)
  · exact .inl (.inr hf)
  · exact .inr ⟨P, a, bump, hloads, hstake⟩

theorem Unstake.tryAccounts_error {ctx : Unstake}
    (h : ctx.tryAccounts env w = .error (.program f)) : f = .err .unauthorized := by
  simp only [Unstake.tryAccounts, bind_eq_error_iff, signer_ne_program, loaded_ne_program,
    loadMint_ne_program, seedsMatch_ne_program, ofLogic_eq_program_iff, require_eq_error_iff,
    ensure_eq_program_iff, tokenMatches_ne_program, reduceCtorEq, pure_ne_error, and_false,
    exists_false, or_false, false_or] at h
  obtain ⟨_, -, _, -, _, -, _, -, _, -, _, -, _, -, _, -, -, hf⟩ := h
  exact hf

theorem Unstake.handler_error {ctx : Unstake} {amount : U64}
    (h : ctx.handler env w amount = .error (.program f)) : f = .err .unauthorized ∨
      ∃ P a, ctx.Loads env w P a ∧ unstake P a amount env.now = .error f := by
  simp only [Unstake.handler, bind_eq_error_iff, Prod.exists, Unstake.tryAccounts_eq_ok_iff,
    ofLogic_eq_program_iff, transferSigned_ne_program, pure_ne_error, and_false, exists_false,
    or_false] at h
  rcases h with h | ⟨P, a, hloads, hunstake⟩
  · exact .inl (Unstake.tryAccounts_error h)
  · exact .inr ⟨P, a, hloads, hunstake⟩

theorem EmergencyWithdraw.handler_error {ctx : EmergencyWithdraw}
    (h : EmergencyWithdraw.handler env w ctx = .error (.program f)) :
    f = .err .unauthorized ∨ f = .err .zeroAmount := by
  simp only [EmergencyWithdraw.handler, bind_eq_error_iff, Prod.exists, emergencyWithdraw,
    ofLogic_eq_program_iff, require_eq_error_iff, transferSigned_ne_program, reduceCtorEq,
    pure_ne_error, and_false, exists_false, or_false, false_or] at h
  rcases h with h | ⟨_, _, -, _, _, _, -, -, hf⟩
  · exact .inl (Unstake.tryAccounts_error h)
  · exact .inr hf

theorem DepositRewards.tryAccounts_error {ctx : DepositRewards}
    (h : ctx.tryAccounts env w = .error (.program f)) :
    f = .err .unauthorized ∨ f = .err .rewardNotFound := by
  simp only [DepositRewards.tryAccounts, findRewardVault, bind_eq_error_iff, signer_ne_program,
    loaded_ne_program, loadMint_ne_program, seedsMatch_ne_program, ofLogic_eq_program_iff,
    require_eq_error_iff, okOr_eq_error_iff, ensure_eq_program_iff, tokenMatches_ne_program,
    reduceCtorEq, pure_ne_error, and_false, exists_false, or_false, false_or] at h
  obtain ⟨_, -, _, -, _, -, _, -, _, -, ⟨-, hf⟩ | ⟨_, -, _, -, _, -, -, hf⟩⟩ := h
  · exact .inl hf
  · exact .inr hf

theorem DepositRewards.handler_error {ctx : DepositRewards} {amount : U64}
    (h : ctx.handler env w amount = .error (.program f)) :
    (f = .err .unauthorized ∨ f = .err .rewardNotFound) ∨ f = .err .zeroAmount ∨
      ∃ P vault tokens reloaded, ctx.Loads env w P vault ∧
        env.rt.transfer w.tokens ctx.keeperTokenAccount ctx.rewardVault ctx.keeper amount =
          .ok tokens ∧ tokens ctx.rewardVault = some reloaded ∧
        (reloaded.amount.checkedSub vault.amount = none ∨
          ∃ received, reloaded.amount.checkedSub vault.amount = some received ∧
            depositRewards P ctx.rewardMint received env.now = .error f) := by
  simp only [DepositRewards.handler, bind_eq_error_iff, Prod.exists,
    DepositRewards.tryAccounts_eq_ok_iff, ofLogic_eq_program_iff, ofLogic_eq_ok_iff,
    require_eq_error_iff, okOr_eq_error_iff, okOr_eq_ok_iff, transferTokens_ne_program,
    transferTokens_eq_ok_iff, loaded_ne_program, loaded_eq_ok_iff, pure_ne_error, and_false,
    exists_false, or_false, false_or] at h
  rcases h with h | ⟨P, vault, hloads, ⟨-, hf⟩ | ⟨_, -, tokens, hmoved, reloaded, hreloaded, h⟩⟩
  · exact .inl (DepositRewards.tryAccounts_error h)
  · exact .inr (.inl hf)
  · refine .inr (.inr ⟨P, vault, tokens, reloaded, hloads, hmoved, hreloaded, ?_⟩)
    exact h.imp_left And.left

theorem Claim.tryAccounts_error {ctx : Claim}
    (h : ctx.tryAccounts env w = .error (.program f)) : f = .err .unauthorized := by
  simp only [Claim.tryAccounts, bind_eq_error_iff, signer_ne_program, loaded_ne_program,
    seedsMatch_ne_program, ofLogic_eq_program_iff, require_eq_error_iff, pure_ne_error, and_false,
    exists_false, or_false, false_or] at h
  obtain ⟨_, -, _, -, _, -, _, -, _, -, -, hf⟩ := h
  exact hf

theorem Claim.turn_error {ctx : Claim} {stakeMint : Pubkey} {bump : U8} {P : Pool}
    {state : StakerAccount × Tokens} {pair : Pubkey × Pubkey}
    (h : ctx.turn env stakeMint bump P state pair = .error (.program f)) :
    f = .err .vaultMismatch ∨ f = .err .unauthorized ∨ f = .err .mintMismatch := by
  simp only [Claim.turn, claimTakeSlot, bind_eq_error_iff, Prod.exists, ofLogic_eq_program_iff,
    okOr_eq_error_iff, pure_ne_error, and_false, exists_false, or_false] at h
  rcases h with ⟨-, hf⟩ | ⟨_, _, _, -, h⟩
  · exact .inl hf
  · split at h
    · exact absurd h pure_ne_error
    · simp only [bind_eq_error_iff, ofLogic_eq_program_iff, require_eq_error_iff,
        loaded_ne_program, transferSigned_ne_program, pure_ne_error, and_false, exists_false,
        or_false, false_or] at h
      obtain ⟨-, hf⟩ | ⟨_, -, _, -, _, -, ⟨-, hf⟩ | ⟨_, -, -, hf⟩⟩ := h
      · exact .inl hf
      · exact .inr (.inl hf)
      · exact .inr (.inr hf)

theorem Claim.handler_error {ctx : Claim} (h : ctx.handler env w = .error (.program f)) :
    (f = .err .vaultMismatch ∨ f = .err .unauthorized ∨ f = .err .mintMismatch) ∨
      ∃ P a, ctx.Loads env w P a ∧ claimSettleAll P a env.now = .error f := by
  simp only [Claim.handler, bind_eq_error_iff, Prod.exists, Claim.tryAccounts_eq_ok_iff,
    ofLogic_eq_program_iff, require_eq_error_iff, pure_ne_error, and_false, exists_false,
    or_false] at h
  rcases h with h | ⟨P, a, hloads, hset | ⟨P', a₁, -, ⟨-, hf⟩ | ⟨_, -, hloop⟩⟩⟩
  · exact .inl (.inr (.inl (Claim.tryAccounts_error h)))
  · exact .inr ⟨P, a, hloads, hset⟩
  · exact .inl (.inl hf)
  · obtain ⟨state, pair, hturn⟩ := foldlM_error hloop
    exact .inl (Claim.turn_error hturn)

end Handlers
end MmStaking
