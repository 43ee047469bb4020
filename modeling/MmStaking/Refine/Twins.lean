import MmStaking.Lib.Division
import MmStaking.Refine.Charges
import MmStaking.Refine.Local

/-! A staker against two accounts in its place, that divide its amounts between them and
make its other calls both. The second of two calls at one time finds the pool settled, so
it moves nothing the first has not moved. -/
namespace MmStaking
open Words Loops Runs Accrual

variable {ι : Type}

/-- `x` and `y` are the two accounts in place of `u`, in either order. -/
def Twins (u : ι) (x y : Option ι) : Prop := x = some u ∧ y = none ∨ x = none ∧ y = some u

/-- The calls in place of a call: those of `u` are made by both accounts, with its amounts
divided, and those of others stay. -/
inductive SplitCall (u : ι) : Call ι → List (Call (Option ι)) → Prop
  | other {now op} : op.actor ≠ some u → SplitCall u ⟨now, op⟩ [⟨now, op.map some⟩]
  | stake {now x y owner poolKey stakerBump owner₁ poolKey₁ stakerBump₁ owner₂ poolKey₂
      stakerBump₂} {amount amount₁ amount₂ : U64} :
      Twins u x y → 0 < amount₁.val → 0 < amount₂.val →
      amount₁.val + amount₂.val = amount.val →
      SplitCall u ⟨now, .stake u owner poolKey stakerBump amount⟩
        [⟨now, .stake x owner₁ poolKey₁ stakerBump₁ amount₁⟩,
          ⟨now, .stake y owner₂ poolKey₂ stakerBump₂ amount₂⟩]
  | unstake {now x y} {amount amount₁ amount₂ : U64} :
      Twins u x y → 0 < amount₁.val → 0 < amount₂.val →
      amount₁.val + amount₂.val = amount.val →
      SplitCall u ⟨now, .unstake u amount⟩ [⟨now, .unstake x amount₁⟩, ⟨now, .unstake y amount₂⟩]
  | claim {now x y vaultKeys} : Twins u x y →
      SplitCall u ⟨now, .claim u vaultKeys⟩ [⟨now, .claim x vaultKeys⟩, ⟨now, .claim y vaultKeys⟩]
  | emergencyWithdraw {now x y} : Twins u x y →
      SplitCall u ⟨now, .emergencyWithdraw u⟩
        [⟨now, .emergencyWithdraw x⟩, ⟨now, .emergencyWithdraw y⟩]

/-- The two systems agree but for `u`, which `x` and `y` divide at a loss of at most `n i`
in slot `i`. -/
structure Divides (u : ι) (x y : Option ι) (n : Slot → ℕ) (s : Sys ι) (s' : Sys (Option ι)) :
    Prop where
  pool : s'.pool = s.pool
  other : ∀ w, w ≠ u → s'.row (some w) = s.row w
  divided : ∀ i, Divided ((s.staker u).holder i) ((s'.staker x).holder i)
    ((s'.staker y).holder i) (s.ledger.claimed u i) (s'.ledger.claimed x i)
    (s'.ledger.claimed y i) (n i)

section Twins
variable {u : ι} {x y : Option ι}

theorem Twins.ne (h : Twins u x y) : x ≠ y := by
  rcases h with ⟨rfl, rfl⟩ | ⟨rfl, rfl⟩ <;> simp

theorem Twins.ne_other (h : Twins u x y) {w : ι} (hw : w ≠ u) : some w ≠ x ∧ some w ≠ y := by
  rcases h with ⟨rfl, rfl⟩ | ⟨rfl, rfl⟩ <;> simp [hw]

theorem Divides.symm {n : Slot → ℕ} {s : Sys ι} {s' : Sys (Option ι)}
    (d : Divides u x y n s s') : Divides u y x n s s' :=
  ⟨d.pool, d.other, fun i => (d.divided i).symm⟩

theorem Divides.mono {n n' : Slot → ℕ} {s : Sys ι} {s' : Sys (Option ι)}
    (d : Divides u x y n s s') (h : ∀ i, n i ≤ n' i) : Divides u x y n' s s' :=
  ⟨d.pool, d.other, fun i => (d.divided i).mono (h i)⟩

theorem Divides.set_clock {n : Slot → ℕ} {s : Sys ι} {s' : Sys (Option ι)}
    (d : Divides u x y n s s') (now now' : I64) :
    Divides u x y n { s with clock := now } { s' with clock := now' } :=
  ⟨d.pool, d.other, d.divided⟩

theorem Twins.divides_iff (h : Twins u x y) {n : Slot → ℕ} {s : Sys ι} {s' : Sys (Option ι)} :
    Divides u x y n s s' ↔ Divides u (some u) none n s s' := by
  rcases h with ⟨rfl, rfl⟩ | ⟨rfl, rfl⟩
  · rfl
  · exact ⟨Divides.symm, Divides.symm⟩

end Twins

theorem divided_settleEntries {pool : Pool} {a a₁ a₂ b b₁ b₂ : StakerAccount} {i : Slot}
    {c c₁ c₂ n : ℕ} (d : Divided (a.holder i) (a₁.holder i) (a₂.holder i) c c₁ c₂ n)
    (he : settleEntries pool a = .ok b) (he₁ : settleEntries pool a₁ = .ok b₁)
    (he₂ : settleEntries pool a₂ = .ok b₂) :
    Divided (b.holder i) (b₁.holder i) (b₂.holder i) c c₁ c₂
      (n + if pool.Registered i then 1 else 0) := by
  rw [settleEntries_holder he, settleEntries_holder he₁, settleEntries_holder he₂]
  split
  · exact d.settle P _
  · exact d

theorem settleSlots_again {pool pool₁ pool₂ : Pool} {now : I64}
    (hlast : ∀ i, 0 ≤ (pool.rewards i).lastUpdateTime.val)
    (hs : settleSlots pool now = .ok pool₁) {total : U64}
    (hs₂ : settleSlots { pool₁ with totalStaked := total } now = .ok pool₂) :
    pool₂ = { pool₁ with totalStaked := total } := by
  have hsettled : ({ pool₁ with totalStaked := total } : Pool).SettledAt now :=
    fun i hi => settleSlots_settledAt hlast hs i hi
  rw [settleSlots_of_settledAt hsettled, Except.ok.injEq] at hs₂
  exact hs₂.symm

variable [DecidableEq ι]

section Block
variable {u : ι} {x y : Option ι} {n : Slot → ℕ} {s t : Sys ι} {s' m t' : Sys (Option ι)}
  {now : I64}

theorem Divides.other_block (d : Divides u x y n s s') (hxy : Twins u x y) {op : Op ι}
    {op₁ op₂ : Op (Option ι)} (hop : op.actor = some u) (hop₁ : op₁.actor = some x)
    (hop₂ : op₂.actor = some y) (h : s.perform now op = .ok t)
    (h₁ : s'.perform now op₁ = .ok m) (h₂ : Sys.perform { m with clock := now } now op₂ = .ok t') :
    ∀ w, w ≠ u → t'.row (some w) = t.row w := by
  intro w hw
  obtain ⟨hx, hy⟩ := hxy.ne_other hw
  have hu : op.actor ≠ some w := by
    rw [hop]
    exact fun e => hw (Option.some.inj e).symm
  have hx' : op₁.actor ≠ some (some w) := by
    rw [hop₁]
    exact fun e => hx (Option.some.inj e).symm
  have hy' : op₂.actor ≠ some (some w) := by
    rw [hop₂]
    exact fun e => hy (Option.some.inj e).symm
  exact (perform_frame h₂ hy').trans ((perform_frame h₁ hx').trans
    ((d.other w hw).trans (perform_frame h hu).symm))

omit [DecidableEq ι] in
/-- Both calls of a block settle: the second time at the pool of the first. -/
theorem Divides.settle_both (ht : s.Tidy) (d : Divides u x y n s s') {p p₁ p₂ : Pool}
    {a a₁ a₂ b b₁ b₂ : StakerAccount} {total₁ : U64}
    (ha : ∀ i, a.holder i = (s.staker u).holder i)
    (ha₁ : ∀ i, a₁.holder i = (s'.staker x).holder i)
    (ha₂ : ∀ i, a₂.holder i = (s'.staker y).holder i)
    (hs : settleSlots s.pool now = .ok p) (he : settleEntries p a = .ok b)
    (hs₁ : settleSlots s'.pool now = .ok p₁) (he₁ : settleEntries p₁ a₁ = .ok b₁)
    (hs₂ : settleSlots { p₁ with totalStaked := total₁ } now = .ok p₂)
    (he₂ : settleEntries p₂ a₂ = .ok b₂) :
    p₁ = p ∧ p₂ = { p with totalStaked := total₁ } ∧
      ∀ i, Divided (b.holder i) (b₁.holder i) (b₂.holder i) (s.ledger.claimed u i)
        (s'.ledger.claimed x i) (s'.ledger.claimed y i)
        (n i + if s.pool.Registered i then 1 else 0) := by
  rw [d.pool] at hs₁
  cases hs.symm.trans hs₁
  obtain rfl := settleSlots_again ht.last_nonneg hs hs₂
  change settleEntries p a₂ = .ok b₂ at he₂
  refine ⟨rfl, rfl, ?_⟩
  intro i
  have hbefore : Divided (a.holder i) (a₁.holder i) (a₂.holder i) (s.ledger.claimed u i)
      (s'.ledger.claimed x i) (s'.ledger.claimed y i) (n i) := by
    rw [ha, ha₁, ha₂]
    exact d.divided i
  have hsettled := divided_settleEntries hbefore he he₁ he₂
  simpa only [settleSlots_registered ht.last_nonneg hs] using hsettled

theorem Divides.stake_block (ht : s.Tidy) (d : Divides u x y n s s') (hxy : Twins u x y)
    {owner poolKey owner₁ poolKey₁ owner₂ poolKey₂ : Pubkey}
    {stakerBump stakerBump₁ stakerBump₂ : U8} {amount amount₁ amount₂ : U64}
    (hamount : amount₁.val + amount₂.val = amount.val)
    (h : s.perform now (.stake u owner poolKey stakerBump amount) = .ok t)
    (h₁ : s'.perform now (.stake x owner₁ poolKey₁ stakerBump₁ amount₁) = .ok m)
    (h₂ : Sys.perform { m with clock := now } now
      (.stake y owner₂ poolKey₂ stakerBump₂ amount₂) = .ok t') :
    Divides u x y (fun i => n i + if s.pool.Registered i then 1 else 0) t t' := by
  have hother := d.other_block hxy rfl rfl rfl h h₁ h₂
  obtain ⟨-, -, p, b, staked, total, hs, he, hst, htot, rfl⟩ := perform_stake_eq_ok_iff.mp h
  obtain ⟨-, -, p₁, b₁, staked₁, total₁, hs₁, he₁, hst₁, htot₁, rfl⟩ :=
    perform_stake_eq_ok_iff.mp h₁
  obtain ⟨-, -, p₂, b₂, staked₂, total₂, hs₂, he₂, hst₂, htot₂, rfl⟩ :=
    perform_stake_eq_ok_iff.mp h₂
  obtain ⟨rfl, rfl, hsettled⟩ := d.settle_both ht (StakerAccount.opened_holder _ _ _ _)
    (StakerAccount.opened_holder _ _ _ _) (fun i => by simp [Sys.put, hxy.ne.symm])
    hs he hs₁ he₁ hs₂ he₂
  have htotal : total₂ = total := by
    refine Unsigned.ext ?_
    simp only at htot₂
    omega
  refine ⟨by simp [Sys.put, htotal], hother, ?_⟩
  intro i
  have hsum : staked₁.val + staked₂.val = staked.val := by
    have hweight : b₁.stakedAmount.val + b₂.stakedAmount.val = b.stakedAmount.val :=
      (hsettled i).weight_add
    omega
  simpa [Sys.put, Ledger.recordStake, hxy.ne, StakerAccount.holder] using
    (hsettled i).reweigh hsum

theorem Divides.unstake_block (ht : s.Tidy) (d : Divides u x y n s s') (hxy : Twins u x y)
    {amount amount₁ amount₂ : U64} (hamount : amount₁.val + amount₂.val = amount.val)
    (h : s.perform now (.unstake u amount) = .ok t)
    (h₁ : s'.perform now (.unstake x amount₁) = .ok m)
    (h₂ : Sys.perform { m with clock := now } now (.unstake y amount₂) = .ok t') :
    Divides u x y (fun i => n i + if s.pool.Registered i then 1 else 0) t t' := by
  have hother := d.other_block hxy rfl rfl rfl h h₁ h₂
  obtain ⟨-, -, p, b, staked, total, hs, he, hst, htot, rfl⟩ := perform_unstake_eq_ok_iff.mp h
  obtain ⟨-, -, p₁, b₁, staked₁, total₁, hs₁, he₁, hst₁, htot₁, rfl⟩ :=
    perform_unstake_eq_ok_iff.mp h₁
  obtain ⟨-, -, p₂, b₂, staked₂, total₂, hs₂, he₂, hst₂, htot₂, rfl⟩ :=
    perform_unstake_eq_ok_iff.mp h₂
  obtain ⟨rfl, rfl, hsettled⟩ := d.settle_both ht (fun _ => rfl) (fun _ => rfl)
    (fun i => by simp [Sys.put, hxy.ne.symm]) hs he hs₁ he₁ hs₂ he₂
  have htotal : total₂ = total := by
    refine Unsigned.ext ?_
    simp only at htot₂
    omega
  refine ⟨by simp [Sys.put, htotal], hother, ?_⟩
  intro i
  have hsum : staked₁.val + staked₂.val = staked.val := by
    have hweight : b₁.stakedAmount.val + b₂.stakedAmount.val = b.stakedAmount.val :=
      (hsettled i).weight_add
    omega
  simpa [Sys.put, Ledger.recordUnstake, hxy.ne, StakerAccount.holder] using
    (hsettled i).reweigh hsum

theorem Divides.claim_block (ht : s.Tidy) (d : Divides u x y n s s') (hxy : Twins u x y)
    {vaultKeys : List Pubkey} (h : s.perform now (.claim u vaultKeys) = .ok t)
    (h₁ : s'.perform now (.claim x vaultKeys) = .ok m)
    (h₂ : Sys.perform { m with clock := now } now (.claim y vaultKeys) = .ok t') :
    Divides u x y (fun i => n i + if s.pool.Registered i then 1 else 0) t t' := by
  have hother := d.other_block hxy rfl rfl rfl h h₁ h₂
  obtain ⟨p, b, a, paid, hs, he, hc, rfl⟩ := perform_claim_eq_ok_iff.mp h
  obtain ⟨p₁, b₁, a₁, paid₁, hs₁, he₁, hc₁, rfl⟩ := perform_claim_eq_ok_iff.mp h₁
  obtain ⟨p₂, b₂, a₂, paid₂, hs₂, he₂, hc₂, rfl⟩ := perform_claim_eq_ok_iff.mp h₂
  obtain ⟨rfl, hp₂, hsettled⟩ := d.settle_both ht (fun _ => rfl) (fun _ => rfl)
    (fun i => by simp [Sys.put, hxy.ne.symm]) hs he hs₁ he₁ hs₂ he₂
  obtain rfl : p₁ = p₂ := hp₂.symm
  obtain ⟨rfl, hledger⟩ := claimTakeAll_eq_ok u s.ledger hc
  obtain ⟨rfl, hledger₁⟩ := claimTakeAll_eq_ok x s'.ledger hc₁
  obtain ⟨rfl, hledger₂⟩ := claimTakeAll_eq_ok y (paid₁.foldl (Ledger.recordClaim x) s'.ledger) hc₂
  refine ⟨rfl, hother, ?_⟩
  intro i
  rw [hledger, hledger₂, hledger₁]
  cases htaken : takenBy p₁ vaultKeys i with
  | false =>
      simpa [Sys.put, Ledger.payAll, StakerAccount.takeAll, StakerAccount.due, StakerAccount.holder,
        hxy.ne, hxy.ne.symm, htaken] using hsettled i
  | true =>
      simpa [Sys.put, Ledger.payAll, StakerAccount.takeAll, StakerAccount.due, StakerAccount.holder,
        hxy.ne, hxy.ne.symm, htaken] using (hsettled i).take

theorem Divides.emergency_block (d : Divides u x y n s s') (hxy : Twins u x y)
    (h : s.perform now (.emergencyWithdraw u) = .ok t)
    (h₁ : s'.perform now (.emergencyWithdraw x) = .ok m)
    (h₂ : Sys.perform { m with clock := now } now (.emergencyWithdraw y) = .ok t') :
    Divides u x y n t t' := by
  have hother := d.other_block hxy rfl rfl rfl h h₁ h₂
  obtain rfl := perform_emergencyWithdraw_eq_ok_iff.mp h
  obtain rfl := perform_emergencyWithdraw_eq_ok_iff.mp h₁
  obtain rfl := perform_emergencyWithdraw_eq_ok_iff.mp h₂
  have hy : ∀ account, Function.update s'.staker x account y = s'.staker y :=
    fun account => Function.update_of_ne hxy.ne.symm _ _
  have hsum : (s'.staker x).stakedAmount.val + (s'.staker y).stakedAmount.val =
      (s.staker u).stakedAmount.val := (d.divided 0).weight_add
  refine ⟨?_, hother, ?_⟩
  · have htotal : (s.pool.totalStaked.saturatingSub (s'.staker x).stakedAmount).saturatingSub
          (s'.staker y).stakedAmount =
        s.pool.totalStaked.saturatingSub (s.staker u).stakedAmount := by
      refine Unsigned.ext ?_
      simp only [Unsigned.val_saturatingSub]
      omega
    simp only [Sys.put, hy, d.pool, htotal]
  · intro i
    have hexit := (d.divided i).exit (s.pool.rewards i).rewardPerTokenStored.val
    simpa [Sys.put, Ledger.recordWithdraw, StakerAccount.holder, hxy.ne, d.pool] using hexit

theorem Divides.other_call (d : Divides u x y n s s') (hxy : Twins u x y) {op : Op ι}
    (hop : op.actor ≠ some u) (h : s.perform now op = .ok t)
    (h' : s'.perform now (op.map some) = .ok t') : Divides u x y n t t' := by
  have hactor : (op.map some).actor = op.actor.map some := by
    cases op <;> rfl
  have htwin : ∀ z, z = some u ∨ z = none → (op.map some).actor ≠ some z := by
    intro z hz e
    rw [hactor, Option.map_eq_some_iff] at e
    obtain ⟨v, hv, rfl⟩ := e
    rcases hz with hz | hz
    · exact hop (hv.trans hz)
    · cases hz
  have hcaller : ∀ v ∈ op.actor, s'.row (some v) = s.row v := by
    intro v hv
    refine d.other v ?_
    rintro rfl
    exact hop hv
  obtain ⟨hpool, hrow⟩ := perform_local d.pool hcaller h h'
  refine ⟨hpool, ?_, ?_⟩
  · intro w hw
    by_cases hwop : op.actor = some w
    · exact hrow w hwop
    · have hwop' : (op.map some).actor ≠ some (some w) := by
        rw [hactor]
        intro e
        obtain ⟨v, hv, hvw⟩ := Option.map_eq_some_iff.mp e
        exact hwop (hv.trans hvw)
      rw [perform_frame h' hwop', perform_frame h hwop, d.other w hw]
  · intro i
    have hx : x = some u ∨ x = none := by rcases hxy with h | h <;> simp [h.1]
    have hy : y = some u ∨ y = none := by rcases hxy with h | h <;> simp [h.2]
    obtain ⟨hu, hcu, -⟩ := Sys.row_ext (perform_frame h hop)
    obtain ⟨hx, hcx, -⟩ := Sys.row_ext (perform_frame h' (htwin x hx))
    obtain ⟨hy, hcy, -⟩ := Sys.row_ext (perform_frame h' (htwin y hy))
    rw [hu, hx, hy, hcu, hcx, hcy]
    exact d.divided i

end Block
end MmStaking
