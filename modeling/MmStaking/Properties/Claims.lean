import MmStaking.Properties.Solvency
import MmStaking.Refine.Claims

/-! The claim loop over any list of accounts: every listed slot is paid once and in full,
whatever the order and the repetitions, and no other slot is touched. -/
namespace MmStaking
open Words Loops

def vaultKeys (remaining : List AccountInfo) : List Pubkey :=
  pairKeys (chunks2 remaining)

/-- What a claim over these accounts takes out of the vault of slot `i`. -/
def paidOut (pool : Pool) (staker : StakerAccount) (remaining : List AccountInfo) (i : Slot) : ℕ :=
  if (pool.rewards i).vault ∈ vaultKeys remaining then (staker.entries i).rewardsAccrued.val else 0

variable {ι : Type} [DecidableEq ι]

/-- A settlement alone is a claim over no accounts. -/
theorem Sys.Reachable.settle {s : Sys ι} (hs : s.Reachable) {v : ι} {now : I64}
    (hnow : s.clock.val ≤ now.val) {pool : Pool} {staker : StakerAccount}
    (hset : claimSettleAll s.pool (s.staker v) now = .ok (pool, staker)) :
    ({ s.put pool v staker with clock := now } : Sys ι).Reachable := by
  refine hs.step (c := ⟨now, .claim v []⟩)
    (Sys.step_eq_ok_iff.mpr ⟨hnow, s.put pool v staker, ?_, rfl⟩)
  simp only [Sys.perform, bind_eq_ok_iff, pure_eq_ok_iff, Prod.exists]
  exact ⟨pool, staker, hset, staker, [], rfl, rfl⟩

theorem Sys.Reachable.settled_covered [Fintype ι] {s : Sys ι} (hs : s.Reachable) {v : ι} {now : I64}
    (hnow : s.clock.val ≤ now.val) {pool : Pool} {staker : StakerAccount}
    (hset : claimSettleAll s.pool (s.staker v) now = .ok (pool, staker)) :
    staker.CoveredBy s.ledger := by
  intro i
  simpa [Sys.put] using (hs.settle hnow hset).accrued_le_vault i v

/-- A claim the handler lets through is the claim of the system over the listed vaults. -/
theorem Sys.Reachable.claimHandler_perform [Fintype ι] {token : VaultTransfer ι} {s s' : Sys ι}
    (hs : s.Reachable) {now : I64} (hnow : s.clock.val ≤ now.val) {v : ι} {owner : Pubkey}
    {remaining : List AccountInfo} (h : claimHandler token s now v owner remaining = .ok s') :
    s.perform now (.claim v (vaultKeys remaining)) = .ok s' := by
  simp only [claimHandler, bind_eq_ok_iff, ofProgram_eq_ok_iff, Prod.exists, pure_eq_ok_iff] at h
  obtain ⟨pool, staker, hset, -, -, staker', ledger', hloop, rfl⟩ := h
  obtain ⟨paid, htake, rfl⟩ := claimPairs_claimTakeAll (hs.settled_covered hnow hset) hloop
  simp only [Sys.perform, bind_eq_ok_iff, pure_eq_ok_iff, Prod.exists]
  exact ⟨pool, staker, hset, staker', paid, htake, rfl⟩

section
variable {pool : Pool} {staker : StakerAccount} {remaining : List AccountInfo}

theorem Resolves.not_payable_iff (h : Resolves pool staker) {owner : Pubkey} :
    ¬ Payable pool owner staker (chunks2 remaining) ↔
      (∃ vaultKey ∈ vaultKeys remaining, ∀ i, (pool.rewards i).vault ≠ vaultKey) ∨
      ∃ i pair, (staker.entries i).rewardsAccrued.val ≠ 0 ∧
        (chunks2 remaining).find? (fun pair => pair.1.key = (pool.rewards i).vault) = some pair ∧
        ¬ Passes owner pair := by
  have hknown : ∀ vaultKey, (¬ ∃ i, findVault pool vaultKey = some i) ↔
      ∀ i, (pool.rewards i).vault ≠ vaultKey := by
    intro vaultKey
    rw [← findVault_eq_none_iff, Option.eq_none_iff_forall_ne_some, not_exists]
  have hfirst : ∀ i, (staker.entries i).rewardsAccrued.val ≠ 0 →
      (chunks2 remaining).find? (fun pair => findVault pool pair.1.key = some i) =
        (chunks2 remaining).find? fun pair => pair.1.key = (pool.rewards i).vault := by
    intro i hi
    simp only [h i hi]
  rw [Payable, not_and_or]
  refine or_congr ?_ ?_
  · simp only [vaultKeys, pairKeys, List.mem_map, not_forall, exists_prop, hknown]
    constructor
    · rintro ⟨pair, hmem, hne⟩
      exact ⟨pair.1.key, ⟨pair, hmem, rfl⟩, hne⟩
    · rintro ⟨_, ⟨pair, hmem, hkey⟩, hne⟩
      exact ⟨pair, hmem, hkey ▸ hne⟩
  · simp only [not_forall, exists_prop]
    refine exists_congr fun i => exists_congr fun pair => and_congr_right fun hi => ?_
    rw [hfirst i hi]

end

/-- The claim loop on a reachable pool and a staker settled at `now`, for any accounts: a
claim that succeeds takes out of each listed vault what is accrued there, whatever the order
and the repetitions, zeroes just those entries and leaves the rest as settled; and it fails
just on an odd number of accounts, on a key that is no slot's vault, and on a first pair with
something to pay that does not pass its checks. -/
theorem claim_pays_once [Fintype ι] (token : VaultTransfer ι) {s : Sys ι} (hs : s.Reachable)
    (hv : s.pool.DistinctVaults) {v : ι} {now : I64} (hnow : s.clock.val ≤ now.val) {pool : Pool}
    {staker : StakerAccount}
    (hset : claimSettleAll s.pool (s.staker v) now = .ok (pool, staker)) (owner : Pubkey)
    (remaining : List AccountInfo) :
    (∀ s', claimHandler token s now v owner remaining = .ok s' →
      s'.pool = pool ∧
      s'.staker = Function.update s.staker v { staker with
        entries := fun i => { staker.entries i with
          rewardsAccrued := if (pool.rewards i).vault ∈ vaultKeys remaining then 0
            else (staker.entries i).rewardsAccrued } } ∧
      ∀ i,
        s'.ledger.rewardVault i = s.ledger.rewardVault i - paidOut pool staker remaining i ∧
        s'.ledger.claimed v i = s.ledger.claimed v i + paidOut pool staker remaining i) ∧
    ((∃ e, claimHandler token s now v owner remaining = .error e) ↔
      remaining.length % 2 = 1 ∨
      (∃ vaultKey ∈ vaultKeys remaining, ∀ i, (pool.rewards i).vault ≠ vaultKey) ∨
      ∃ i pair, (staker.entries i).rewardsAccrued.val ≠ 0 ∧
        (chunks2 remaining).find? (fun pair => pair.1.key = (pool.rewards i).vault) = some pair ∧
        ¬ Passes owner pair) := by
  have hreach := hs.settle hnow hset
  have hp : pool.Packed := hreach.registry.2
  have hcover : staker.CoveredBy s.ledger := hs.settled_covered hnow hset
  have hblank : ∀ i, ¬ pool.Registered i → staker.entries i = .zeroed := by
    intro i hi
    simpa [Sys.put] using hreach.registry.1.empty_entry i hi v
  have hslots := (claimSettleAll_eq_ok_iff.mp hset).1
  have hv' : pool.DistinctVaults := hv.congr fun i =>
    RewardInfo.keys_of_terms (settleSlots_terms hs.registry.1.last_nonneg hslots i)
  have hresolves := hp.resolves hv' hblank
  have hok : ∀ s', claimHandler token s now v owner remaining = .ok s' ↔
      remaining.length % 2 = 0 ∧ Payable pool owner staker (chunks2 remaining) ∧
        s' = { s.put pool v
            (staker.takeAll fun i => (pool.rewards i).vault ∈ vaultKeys remaining) with
          ledger := s.ledger.payAll v
            (staker.due fun i => (pool.rewards i).vault ∈ vaultKeys remaining) } := by
    intro s'
    simp only [claimHandler, bind_eq_ok_iff, ofProgram_eq_ok_iff, hset, Except.ok.injEq,
      exists_eq_left', require_eq_ok_iff, claimPairs_eq_ok_iff hcover, pure_eq_ok_iff,
      hresolves.takeAll, hresolves.due]
    constructor
    · rintro ⟨-, heven, _, ⟨hpay, rfl⟩, rfl⟩
      exact ⟨heven, hpay, rfl⟩
    · rintro ⟨heven, hpay, rfl⟩
      exact ⟨(), heven, _, ⟨hpay, rfl⟩, rfl⟩
  refine ⟨?_, ?_⟩
  · intro s' h
    obtain ⟨-, -, rfl⟩ := (hok s').mp h
    refine ⟨rfl, ?_, ?_⟩
    · simp only [Sys.put, StakerAccount.takeAll, decide_eq_true_eq]
    · intro i
      simp [Ledger.payAll, StakerAccount.due, paidOut]
  · have herror : (∃ e, claimHandler token s now v owner remaining = .error e) ↔
        ¬ ∃ s', claimHandler token s now v owner remaining = .ok s' := by
      cases claimHandler token s now v owner remaining <;> simp
    rw [herror, ← hresolves.not_payable_iff]
    constructor
    · intro hnone
      by_contra hc
      obtain ⟨hodd, hpay⟩ := not_or.mp hc
      exact hnone ⟨_, (hok _).mpr ⟨by omega, not_not.mp hpay, rfl⟩⟩
    · rintro hstop ⟨s', h⟩
      obtain ⟨heven, hpay, -⟩ := (hok s').mp h
      rcases hstop with hodd | hstop
      · omega
      · exact hstop hpay

/-- The second staker of the trial run lists the one vault twice, the second time with an
account of no use, and is paid what it had accrued, once. -/
theorem claim_pays_once_trial : ∃ pool staker s',
    claimSettleAll Sys.trial.pool (Sys.trial.staker 1) 60 = .ok (pool, staker) ∧
    claimHandler trialVaultTransfer Sys.trial 60 1 2
      [⟨11, some ⟨9, 7⟩⟩, ⟨33, some ⟨2, 7⟩⟩, ⟨11, none⟩, ⟨44, none⟩] = .ok s' ∧
    s'.ledger.claimed 1 0 = Sys.trial.ledger.claimed 1 0 + (staker.entries 0).rewardsAccrued.val ∧
    (staker.entries 0).rewardsAccrued = 375 := by
  obtain ⟨⟨pool, staker⟩, hset⟩ := exists_ok
    (x := claimSettleAll Sys.trial.pool (Sys.trial.staker 1) 60) (by decide +kernel)
  have hview : (claimSettleAll Sys.trial.pool (Sys.trial.staker 1) 60).map (fun r =>
      ((r.1.rewards 0).vault, (r.2.entries 0).rewardsAccrued)) = .ok (11, 375) := by decide +kernel
  rw [hset, Except.map, Except.ok.injEq, Prod.mk.injEq] at hview
  obtain ⟨hvault, haccrued⟩ := hview
  have hdistinct : Sys.trial.pool.DistinctVaults := by
    intro i j
    revert i j
    decide +kernel
  obtain ⟨s', h⟩ := exists_ok (x := claimHandler trialVaultTransfer Sys.trial 60 1 2
    [⟨11, some ⟨9, 7⟩⟩, ⟨33, some ⟨2, 7⟩⟩, ⟨11, none⟩, ⟨44, none⟩]) (by decide +kernel)
  have hpays := claim_pays_once trialVaultTransfer Sys.reachable_trial hdistinct (v := 1)
    (by decide +kernel) hset 2 [⟨11, some ⟨9, 7⟩⟩, ⟨33, some ⟨2, 7⟩⟩, ⟨11, none⟩, ⟨44, none⟩]
  obtain ⟨-, -, hledger⟩ := hpays.1 s' h
  refine ⟨pool, staker, s', hset, h, ?_, haccrued⟩
  rw [(hledger 0).2, paidOut, if_pos]
  rw [hvault]
  decide

end MmStaking
