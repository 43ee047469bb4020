import MmStaking.Program.Claim
import MmStaking.Refine.Packed

/-! The claim loop in closed form. Over accounts whose vaults cover what is accrued, the
loop takes each slot it finds once and fails only on a key it does not find or on the first
pair of a slot that has something to pay. -/
namespace MmStaking
open Words Loops

@[simp] theorem ofProgram_eq_ok_iff {α : Type} {x : Result α} {a : α} :
    ofProgram x = .ok a ↔ x = .ok a := by
  cases x <;> simp [ofProgram]

@[simp] theorem tryFrom_eq_ok_iff {account : AccountInfo} {token : TokenAccount} :
    account.tryFrom = .ok token ↔ account.token = some token := by
  unfold AccountInfo.tryFrom
  split <;> simp_all

/-- The token-account, owner and mint checks on a pair. -/
def Passes (owner : Pubkey) (pair : AccountInfo × AccountInfo) : Prop :=
  ∃ vaultAcc userAcc, pair.1.token = some vaultAcc ∧ pair.2.token = some userAcc ∧
    userAcc.owner = owner ∧ userAcc.mint = vaultAcc.mint

/-- The account with the rewards of the slots in `taken` zeroed. -/
def StakerAccount.takeAll (staker : StakerAccount) (taken : Slot → Bool) : StakerAccount :=
  { staker with
    entries := fun i => { staker.entries i with
      rewardsAccrued := if taken i then 0 else (staker.entries i).rewardsAccrued } }

/-- The slots the listed vaults are resolved to. -/
def takenBy (pool : Pool) (vaultKeys : List Pubkey) (i : Slot) : Bool :=
  vaultKeys.any fun vaultKey => findVault pool vaultKey = some i

/-- The vault keys of the pairs passed to a claim. -/
def pairKeys (pairs : List (AccountInfo × AccountInfo)) : List Pubkey :=
  pairs.map fun pair => pair.1.key

variable {ι : Type} [DecidableEq ι]

/-- The ledger after `v` is paid these amounts out of the vaults. -/
def Ledger.payAll (l : Ledger ι) (v : ι) (amount : Slot → ℕ) : Ledger ι :=
  { l with
    rewardVault := fun i => l.rewardVault i - amount i
    claimed := Function.update l.claimed v fun i => l.claimed v i + amount i }

/-- What the slots in `taken` pay. -/
def StakerAccount.due (staker : StakerAccount) (taken : Slot → Bool) (i : Slot) : ℕ :=
  if taken i then (staker.entries i).rewardsAccrued.val else 0

section Loop
variable {token : VaultTransfer ι} {pool : Pool} {owner : Pubkey} {v : ι}
  {staker staker' : StakerAccount} {ledger ledger' : Ledger ι}

omit [DecidableEq ι] in
theorem takeAll_takeAll (t t' : Slot → Bool) :
    (staker.takeAll t).takeAll t' = staker.takeAll fun i => t i || t' i := by
  simp only [StakerAccount.takeAll, StakerAccount.mk.injEq, true_and]
  funext i
  by_cases h : t i = true <;> by_cases h' : t' i = true <;> simp [h, h']

theorem payAll_payAll (t t' : Slot → Bool) :
    (ledger.payAll v (staker.due t)).payAll v ((staker.takeAll t).due t') =
      ledger.payAll v (staker.due fun i => t i || t' i) := by
  have hsum : ∀ i, staker.due t i + (staker.takeAll t).due t' i =
      staker.due (fun i => t i || t' i) i := by
    intro i
    simp only [StakerAccount.due, StakerAccount.takeAll]
    by_cases h : t i = true <;> by_cases h' : t' i = true <;> simp [h, h']
  simp only [Ledger.payAll, Function.update_self, Function.update_idem, add_assoc, hsum, sub_sub,
    ← Nat.cast_add]

omit [DecidableEq ι] in
theorem takenBy_cons {vaultKey : Pubkey} {vaultKeys : List Pubkey} {i : Slot}
    (hi : findVault pool vaultKey = some i) : takenBy pool (vaultKey :: vaultKeys) =
      fun j => decide (i = j) || takenBy pool vaultKeys j := by
  funext j
  simp [takenBy, hi]

theorem payAll_eq_self {amount : Slot → ℕ} (h : ∀ i, amount i = 0) :
    ledger.payAll v amount = ledger := by
  simp [Ledger.payAll, h]

omit [DecidableEq ι] in
theorem claimTakeSlot_eq_ok_iff {vaultKey : Pubkey} {r : StakerAccount × Slot × U64} :
    claimTakeSlot pool staker vaultKey = .ok r ↔ ∃ i, findVault pool vaultKey = some i ∧
      r = (staker.takeAll (fun j => i = j), i, (staker.entries i).rewardsAccrued) := by
  have htake : ∀ i, { staker with
      entries := Function.update staker.entries i
        { staker.entries i with rewardsAccrued := 0 } } = staker.takeAll fun j => i = j := by
    intro i
    simp only [StakerAccount.takeAll, StakerAccount.mk.injEq, true_and]
    funext j
    by_cases hij : i = j
    · subst hij
      simp
    · simp [hij, Ne.symm hij]
  simp only [claimTakeSlot, bind_eq_ok_iff, okOr_eq_ok_iff, pure_eq_ok_iff, htake]
  exact exists_congr fun i => and_congr_right fun _ => eq_comm

theorem recordClaim_eq_payAll (i : Slot) :
    ledger.recordClaim v (i, (staker.entries i).rewardsAccrued) =
      ledger.payAll v (staker.due fun j => i = j) := by
  have hvault : Function.update ledger.rewardVault i
      (ledger.rewardVault i - (staker.entries i).rewardsAccrued.val) =
        fun j => ledger.rewardVault j - (staker.due (fun j => i = j) j : ℤ) := by
    funext j
    by_cases hij : i = j
    · subst hij
      simp [StakerAccount.due]
    · simp [StakerAccount.due, hij, Ne.symm hij]
  have hclaimed : Function.update (ledger.claimed v) i
      (ledger.claimed v i + (staker.entries i).rewardsAccrued.val) =
        fun j => ledger.claimed v j + staker.due (fun j => i = j) j := by
    funext j
    by_cases hij : i = j
    · subst hij
      simp [StakerAccount.due]
    · simp [StakerAccount.due, hij, Ne.symm hij]
  simp only [Ledger.recordClaim, Ledger.payAll, hvault, hclaimed]

/-- The vaults hold what is accrued. -/
def StakerAccount.CoveredBy (staker : StakerAccount) (ledger : Ledger ι) : Prop :=
  ∀ i, ((staker.entries i).rewardsAccrued.val : ℤ) ≤ ledger.rewardVault i

theorem StakerAccount.CoveredBy.take (h : staker.CoveredBy ledger) (i : Slot) :
    (staker.takeAll fun j => i = j).CoveredBy (ledger.payAll v (staker.due fun j => i = j)) := by
  intro j
  have hj := h j
  by_cases hij : i = j
  · subst hij
    simpa [StakerAccount.takeAll, Ledger.payAll, StakerAccount.due] using hj
  · simpa [StakerAccount.takeAll, Ledger.payAll, StakerAccount.due, hij] using hj

theorem claimPair_eq_ok_iff {pair : AccountInfo × AccountInfo}
    {result : StakerAccount × Ledger ι} (hcover : staker.CoveredBy ledger) :
    claimPair token pool owner v (staker, ledger) pair = .ok result ↔
      ∃ i, findVault pool pair.1.key = some i ∧
        ((staker.entries i).rewardsAccrued.val ≠ 0 → Passes owner pair) ∧
        result =
          (staker.takeAll (fun j => i = j), ledger.payAll v (staker.due fun j => i = j)) := by
  have hnothing : ∀ i, (staker.entries i).rewardsAccrued.val = 0 →
      ledger.payAll v (staker.due fun j => i = j) = ledger := by
    intro i hz
    refine payAll_eq_self ?_
    intro j
    by_cases hij : i = j
    · subst hij
      simp [StakerAccount.due, hz]
    · simp [StakerAccount.due, hij]
  simp only [claimPair, bind_eq_ok_iff, ofProgram_eq_ok_iff, claimTakeSlot_eq_ok_iff]
  constructor
  · rintro ⟨_, ⟨i, hi, rfl⟩, h⟩
    refine ⟨i, hi, ?_⟩
    dsimp only at h
    split at h
    · rename_i hz
      rw [pure_eq_ok_iff] at h
      exact ⟨fun hne => absurd hz hne, by rw [hnothing i hz, h]⟩
    · rename_i hz
      simp only [bind_eq_ok_iff, ofProgram_eq_ok_iff, require_eq_ok_iff, tryFrom_eq_ok_iff,
        token.transfer_covered (hcover i), pure_eq_ok_iff] at h
      obtain ⟨-, -, vaultAcc, hva, userAcc, hua, -, howner, -, hmint, paid, hpaid, rfl⟩ := h
      rw [recordClaim_eq_payAll, Except.ok.injEq] at hpaid
      exact ⟨fun _ => ⟨vaultAcc, userAcc, hva, hua, howner, hmint⟩, by rw [hpaid]⟩
  · rintro ⟨i, hi, hpass, rfl⟩
    refine ⟨_, ⟨i, hi, rfl⟩, ?_⟩
    dsimp only
    split
    · rename_i hz
      rw [pure_eq_ok_iff, hnothing i hz]
    · rename_i hz
      obtain ⟨vaultAcc, userAcc, hva, hua, howner, hmint⟩ := hpass hz
      have hkey : pair.1.key = (pool.rewards i).vault := (findVault_eq_some_iff.mp hi).1.symm
      simp only [bind_eq_ok_iff, ofProgram_eq_ok_iff, require_eq_ok_iff, tryFrom_eq_ok_iff,
        token.transfer_covered (hcover i), pure_eq_ok_iff]
      refine ⟨(), hkey, vaultAcc, hva, userAcc, hua, (), howner, (), hmint, _, ?_, rfl⟩
      rw [recordClaim_eq_payAll]

/-- The pairs that would stop the loop: a key that is no slot's vault, and the first pair of
a slot with something to pay, if it does not pass. -/
def Payable (pool : Pool) (owner : Pubkey) (staker : StakerAccount)
    (pairs : List (AccountInfo × AccountInfo)) : Prop :=
  (∀ pair ∈ pairs, ∃ i, findVault pool pair.1.key = some i) ∧
    ∀ i pair, (staker.entries i).rewardsAccrued.val ≠ 0 →
      pairs.find? (fun pair => findVault pool pair.1.key = some i) = some pair →
        Passes owner pair

omit [DecidableEq ι] in
/-- Paying the first pair leaves the rest payable, as its slot has nothing more to pay. -/
theorem payable_cons {pair : AccountInfo × AccountInfo} {pairs : List (AccountInfo × AccountInfo)}
    {i : Slot} (hi : findVault pool pair.1.key = some i) :
    Payable pool owner staker (pair :: pairs) ↔
      ((staker.entries i).rewardsAccrued.val ≠ 0 → Passes owner pair) ∧
        Payable pool owner (staker.takeAll fun j => i = j) pairs := by
  have hzero : ((staker.takeAll fun j => i = j).entries i).rewardsAccrued.val = 0 := by
    simp [StakerAccount.takeAll]
  have hsame : ∀ j, i ≠ j → ((staker.takeAll fun j => i = j).entries j).rewardsAccrued =
      (staker.entries j).rewardsAccrued := by
    intro j hij
    simp [StakerAccount.takeAll, hij]
  have hskip : ∀ j, i ≠ j →
      (pair :: pairs).find? (fun pair => findVault pool pair.1.key = some j) =
        pairs.find? fun pair => findVault pool pair.1.key = some j := by
    intro j hij
    have hne : ¬ findVault pool pair.1.key = some j := by
      rw [hi]
      exact fun h => hij (Option.some.inj h)
    rw [List.find?_cons_of_neg (by simpa using hne)]
  constructor
  · intro ⟨hall, hfirst⟩
    refine ⟨?_, fun p hp => hall p (List.mem_cons_of_mem _ hp), ?_⟩
    · intro hne
      exact hfirst i pair hne (List.find?_cons_of_pos (by simpa using hi))
    · intro j p hne hp
      by_cases hij : i = j
      · subst hij
        exact absurd hzero hne
      · rw [hsame j hij] at hne
        exact hfirst j p hne ((hskip j hij).trans hp)
  · intro ⟨hpass, hall, hfirst⟩
    refine ⟨?_, ?_⟩
    · intro p hp
      rcases List.mem_cons.mp hp with rfl | hp
      · exact ⟨i, hi⟩
      · exact hall p hp
    · intro j p hne hp
      by_cases hij : i = j
      · subst hij
        rw [List.find?_cons_of_pos (by simpa using hi), Option.some.injEq] at hp
        exact hp ▸ hpass hne
      · rw [hskip j hij] at hp
        exact hfirst j p (by rwa [hsame j hij]) hp

theorem claimPairs_eq_ok_iff {pairs : List (AccountInfo × AccountInfo)}
    {result : StakerAccount × Ledger ι} (hcover : staker.CoveredBy ledger) :
    claimPairs token pool owner v (staker, ledger) pairs = .ok result ↔
      Payable pool owner staker pairs ∧
        result = (staker.takeAll (takenBy pool (pairKeys pairs)),
          ledger.payAll v (staker.due (takenBy pool (pairKeys pairs)))) := by
  induction pairs generalizing staker ledger with
  | nil =>
      have hnone : ledger.payAll v (staker.due (takenBy pool (pairKeys []))) = ledger :=
        payAll_eq_self fun _ => rfl
      have hpay : Payable pool owner staker [] := ⟨by simp, by simp⟩
      rw [hnone, and_iff_right hpay]
      simp only [claimPairs, List.foldlM_nil, pure_eq_ok_iff]
      exact eq_comm
  | cons pair pairs ih =>
      simp only [claimPairs, List.foldlM_cons, bind_eq_ok_iff, claimPair_eq_ok_iff hcover] at ih ⊢
      have htaken : ∀ i, findVault pool pair.1.key = some i →
          takenBy pool (pairKeys (pair :: pairs)) =
            fun j => decide (i = j) || takenBy pool (pairKeys pairs) j :=
        fun i hi => takenBy_cons hi
      constructor
      · rintro ⟨_, ⟨i, hi, hpass, rfl⟩, hrest⟩
        obtain ⟨hpay, rfl⟩ := (ih (hcover.take i)).mp hrest
        refine ⟨(payable_cons hi).mpr ⟨hpass, hpay⟩, ?_⟩
        rw [htaken i hi, takeAll_takeAll, payAll_payAll]
      · rintro ⟨hpay, rfl⟩
        obtain ⟨i, hi⟩ := hpay.1 pair List.mem_cons_self
        obtain ⟨hpass, hpay'⟩ := (payable_cons hi).mp hpay
        refine ⟨_, ⟨i, hi, hpass, rfl⟩, (ih (hcover.take i)).mpr ⟨hpay', ?_⟩⟩
        rw [htaken i hi, takeAll_takeAll, payAll_payAll]

theorem claimTakeAll_eq_ok (v : ι) (ledger : Ledger ι) {vaultKeys : List Pubkey}
    {paid : List (Slot × U64)} (h : claimTakeAll pool staker vaultKeys = .ok (staker', paid)) :
    staker' = staker.takeAll (takenBy pool vaultKeys) ∧
      paid.foldl (Ledger.recordClaim v) ledger =
        ledger.payAll v (staker.due (takenBy pool vaultKeys)) := by
  induction vaultKeys generalizing staker ledger paid with
  | nil =>
      simp only [claimTakeAll, Except.ok.injEq, Prod.mk.injEq] at h
      obtain ⟨rfl, rfl⟩ := h
      exact ⟨rfl, (payAll_eq_self fun _ => rfl).symm⟩
  | cons vaultKey rest ih =>
      simp only [claimTakeAll, bind_eq_ok_iff, pure_eq_ok_iff, claimTakeSlot_eq_ok_iff] at h
      obtain ⟨_, ⟨i, hi, rfl⟩, ⟨staker₂, paid₂⟩, hrest, hpair⟩ := h
      cases hpair
      obtain ⟨rfl, hledger⟩ := ih (ledger.payAll v (staker.due fun j => i = j)) hrest
      refine ⟨?_, ?_⟩
      · rw [takenBy_cons hi, takeAll_takeAll]
      · rw [List.foldl_cons, recordClaim_eq_payAll, hledger, takenBy_cons hi, payAll_payAll]

theorem claimPairs_claimTakeAll {pairs : List (AccountInfo × AccountInfo)}
    (hcover : staker.CoveredBy ledger)
    (h : claimPairs token pool owner v (staker, ledger) pairs = .ok (staker', ledger')) :
    ∃ paid, claimTakeAll pool staker (pairKeys pairs) = .ok (staker', paid) ∧
      ledger' = paid.foldl (Ledger.recordClaim v) ledger := by
  induction pairs generalizing staker ledger with
  | nil =>
      simp only [claimPairs, List.foldlM_nil, pure_eq_ok_iff, Prod.mk.injEq] at h
      obtain ⟨rfl, rfl⟩ := h
      exact ⟨[], rfl, rfl⟩
  | cons pair pairs ih =>
      simp only [claimPairs, List.foldlM_cons, bind_eq_ok_iff, claimPair_eq_ok_iff hcover] at ih h
      obtain ⟨_, ⟨i, hi, -, rfl⟩, hrest⟩ := h
      obtain ⟨paid, htake, rfl⟩ := ih (hcover.take i) hrest
      refine ⟨(i, (staker.entries i).rewardsAccrued) :: paid, ?_, ?_⟩
      · simp only [pairKeys, List.map_cons, claimTakeAll, bind_eq_ok_iff, pure_eq_ok_iff]
        exact ⟨_, claimTakeSlot_eq_ok_iff.mpr ⟨i, hi, rfl⟩, _, htake, rfl⟩
      · rw [List.foldl_cons, recordClaim_eq_payAll]

end Loop

section Resolved
variable {pool : Pool} {staker : StakerAccount}

/-- A slot with something to pay is the one its vault key is resolved to. -/
def Resolves (pool : Pool) (staker : StakerAccount) : Prop :=
  ∀ i, (staker.entries i).rewardsAccrued.val ≠ 0 → ∀ vaultKey,
    (findVault pool vaultKey = some i ↔ vaultKey = (pool.rewards i).vault)

theorem Pool.Packed.resolves (hp : pool.Packed) (hv : pool.DistinctVaults)
    (hblank : ∀ i, ¬ pool.Registered i → staker.entries i = .zeroed) : Resolves pool staker := by
  intro i hi vaultKey
  have hreg : pool.Registered i := by
    by_contra hempty
    rw [hblank i hempty] at hi
    exact hi rfl
  rw [hp.findVault_iff hv hreg, eq_comm]

theorem Resolves.takenBy_iff (h : Resolves pool staker) {vaultKeys : List Pubkey} {i : Slot}
    (hi : (staker.entries i).rewardsAccrued.val ≠ 0) :
    takenBy pool vaultKeys i = true ↔ (pool.rewards i).vault ∈ vaultKeys := by
  simp [takenBy, h i hi]

theorem Resolves.takeAll (h : Resolves pool staker) (vaultKeys : List Pubkey) :
    staker.takeAll (takenBy pool vaultKeys) =
      staker.takeAll fun i => (pool.rewards i).vault ∈ vaultKeys := by
  simp only [StakerAccount.takeAll, StakerAccount.mk.injEq, true_and, decide_eq_true_eq]
  funext i
  by_cases hi : (staker.entries i).rewardsAccrued.val = 0
  · have hz : (staker.entries i).rewardsAccrued = 0 := Unsigned.ext hi
    simp [hz]
  · simp only [h.takenBy_iff hi]

theorem Resolves.due (h : Resolves pool staker) (vaultKeys : List Pubkey) :
    staker.due (takenBy pool vaultKeys) =
      staker.due fun i => (pool.rewards i).vault ∈ vaultKeys := by
  funext i
  simp only [StakerAccount.due, decide_eq_true_eq]
  by_cases hi : (staker.entries i).rewardsAccrued.val = 0
  · simp [hi]
  · simp only [h.takenBy_iff hi]

end Resolved

end MmStaking
