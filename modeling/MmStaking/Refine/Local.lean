import MmStaking.Refine.Acts
import MmStaking.Refine.Claims

/-! An instruction of a staker is local: it reads the pool and the account of its caller,
and writes these two and what its caller was paid. -/
namespace MmStaking
open Words Loops

variable {ι κ : Type}

/-- The same instruction under other names of the stakers. -/
def Op.map (f : ι → κ) : Op ι → Op κ
  | .addReward mint vault durationArg => .addReward mint vault durationArg
  | .setRewardActive slot active => .setRewardActive slot active
  | .stake v owner poolKey stakerBump amount => .stake (f v) owner poolKey stakerBump amount
  | .unstake v amount => .unstake (f v) amount
  | .depositRewards mint received => .depositRewards mint received
  | .claim v vaultKeys => .claim (f v) vaultKeys
  | .emergencyWithdraw v => .emergencyWithdraw (f v)
  | .setPaused paused => .setPaused paused
  | .setKeeperAuthority keeper => .setKeeperAuthority keeper
  | .setAdmin newAdmin => .setAdmin newAdmin
  | .setDuration slot duration => .setDuration slot duration

/-- What a staker was paid: rewards by slot, and principal by either way out. -/
def Ledger.payouts (l : Ledger ι) (v : ι) : (Slot → ℕ) × ℕ × ℕ :=
  (l.claimed v, l.unstaked v, l.withdrawn v)

/-- The account of a staker, with what it was paid. -/
def Sys.row (s : Sys ι) (v : ι) : StakerAccount × (Slot → ℕ) × ℕ × ℕ :=
  (s.staker v, s.ledger.payouts v)

variable [DecidableEq ι] [DecidableEq κ]

section Rows
variable {s : Sys ι} {pool : Pool} {v w : ι} {account : StakerAccount} {ledger : Ledger ι}

omit [DecidableEq ι] [DecidableEq κ] in
theorem Sys.row_ext {s : Sys ι} {s' : Sys κ} {x : κ} (h : s'.row x = s.row v) :
    s'.staker x = s.staker v ∧ s'.ledger.claimed x = s.ledger.claimed v ∧
      s'.ledger.unstaked x = s.ledger.unstaked v ∧
      s'.ledger.withdrawn x = s.ledger.withdrawn v := by
  simpa only [Sys.row, Ledger.payouts, Prod.mk.injEq] using h

theorem row_put_self :
    { s.put pool v account with ledger := ledger }.row v = (account, ledger.payouts v) := by
  simp [Sys.row, Sys.put]

theorem row_put_ne (h : w ≠ v) :
    { s.put pool v account with ledger := ledger }.row w = (s.staker w, ledger.payouts w) := by
  simp [Sys.row, Sys.put, h]

theorem payouts_unstake_ne (h : w ≠ v) (amount : U64) :
    (ledger.recordUnstake v amount).payouts w = ledger.payouts w := by
  simp [Ledger.payouts, Ledger.recordUnstake, h]

theorem payouts_withdraw_ne (h : w ≠ v) (amount : U64) :
    (ledger.recordWithdraw v amount).payouts w = ledger.payouts w := by
  simp [Ledger.payouts, Ledger.recordWithdraw, h]

theorem payouts_payAll_ne (h : w ≠ v) (amount : Slot → ℕ) :
    (ledger.payAll v amount).payouts w = ledger.payouts w := by
  simp [Ledger.payouts, Ledger.payAll, h]

end Rows

theorem perform_frame {s s' : Sys ι} {now : I64} {op : Op ι} (h : s.perform now op = .ok s')
    {w : ι} (hw : op.actor ≠ some w) : s'.row w = s.row w := by
  have hne : ∀ v, some v ≠ some w → w ≠ v := fun v hv e => hv (congrArg some e.symm)
  cases op with
  | stake v owner poolKey stakerBump amount =>
      simp only [Sys.perform, bind_eq_ok_iff, pure_eq_ok_iff, Prod.exists] at h
      obtain ⟨pool, account, -, rfl⟩ := h
      exact row_put_ne (hne v hw)
  | unstake v amount =>
      simp only [Sys.perform, bind_eq_ok_iff, pure_eq_ok_iff, Prod.exists] at h
      obtain ⟨pool, account, -, rfl⟩ := h
      rw [row_put_ne (hne v hw), payouts_unstake_ne (hne v hw)]
      rfl
  | claim v vaultKeys =>
      simp only [Sys.perform, bind_eq_ok_iff, pure_eq_ok_iff, Prod.exists] at h
      obtain ⟨pool, account, -, account', paid, htake, rfl⟩ := h
      obtain ⟨-, hledger⟩ := claimTakeAll_eq_ok v s.ledger htake
      rw [row_put_ne (hne v hw), hledger, payouts_payAll_ne (hne v hw)]
      rfl
  | emergencyWithdraw v =>
      simp only [Sys.perform, bind_eq_ok_iff, pure_eq_ok_iff, Prod.exists] at h
      obtain ⟨pool, account, amount, -, rfl⟩ := h
      rw [row_put_ne (hne v hw), payouts_withdraw_ne (hne v hw)]
      rfl
  | addReward mint vault durationArg =>
      simp only [Sys.perform, bind_eq_ok_iff, pure_eq_ok_iff] at h
      obtain ⟨pool, -, rfl⟩ := h
      rfl
  | setRewardActive slot active =>
      simp only [Sys.perform, bind_eq_ok_iff, pure_eq_ok_iff] at h
      obtain ⟨pool, -, rfl⟩ := h
      rfl
  | depositRewards mint received =>
      simp only [Sys.perform, bind_eq_ok_iff, pure_eq_ok_iff] at h
      obtain ⟨i, -, pool, -, rfl⟩ := h
      rfl
  | setDuration slot duration =>
      simp only [Sys.perform, bind_eq_ok_iff, pure_eq_ok_iff] at h
      obtain ⟨pool, -, rfl⟩ := h
      rfl
  | setPaused paused =>
      cases h
      rfl
  | setKeeperAuthority keeper =>
      cases h
      rfl
  | setAdmin newAdmin =>
      cases h
      rfl

/-- The outcome of an instruction follows from the pool and the row of its caller. -/
theorem perform_local {s t : Sys ι} {s' t' : Sys κ} {now : I64} {op : Op ι} {f : ι → κ}
    (hpool : s'.pool = s.pool) (hrow : ∀ v ∈ op.actor, s'.row (f v) = s.row v)
    (h : s.perform now op = .ok t) (h' : s'.perform now (op.map f) = .ok t') :
    t'.pool = t.pool ∧ ∀ v ∈ op.actor, t'.row (f v) = t.row v := by
  have hnobody : ∀ {P : ι → Prop}, ∀ v ∈ (none : Option ι), P v := by
    intro P v hv
    cases hv
  have hnone : ∀ {r r' : Result Pool}, r' = r → ∀ {p p'}, r = .ok p → r' = .ok p' → p' = p := by
    intro r r' hr p p' hp hp'
    rw [hr, hp, Except.ok.injEq] at hp'
    exact hp'.symm
  cases op with
  | stake v owner poolKey stakerBump amount =>
      obtain ⟨hstaker, hclaimed, hunstaked, hwithdrawn⟩ := Sys.row_ext (hrow v rfl)
      simp only [Op.map, Sys.perform, bind_eq_ok_iff, pure_eq_ok_iff, Prod.exists] at h h'
      obtain ⟨pool, account, hcall, rfl⟩ := h
      obtain ⟨pool', account', hcall', rfl⟩ := h'
      rw [hpool, hstaker] at hcall'
      cases hcall.symm.trans hcall'
      refine ⟨rfl, ?_⟩
      rintro _ ⟨⟩
      rw [row_put_self, row_put_self]
      simp [Ledger.payouts, Ledger.recordStake, hclaimed, hunstaked, hwithdrawn]
  | unstake v amount =>
      obtain ⟨hstaker, hclaimed, hunstaked, hwithdrawn⟩ := Sys.row_ext (hrow v rfl)
      simp only [Op.map, Sys.perform, bind_eq_ok_iff, pure_eq_ok_iff, Prod.exists] at h h'
      obtain ⟨pool, account, hcall, rfl⟩ := h
      obtain ⟨pool', account', hcall', rfl⟩ := h'
      rw [hpool, hstaker] at hcall'
      cases hcall.symm.trans hcall'
      refine ⟨rfl, ?_⟩
      rintro _ ⟨⟩
      rw [row_put_self, row_put_self]
      simp [Ledger.payouts, Ledger.recordUnstake, hclaimed, hunstaked, hwithdrawn]
  | claim v vaultKeys =>
      obtain ⟨hstaker, hclaimed, hunstaked, hwithdrawn⟩ := Sys.row_ext (hrow v rfl)
      simp only [Op.map, Sys.perform, bind_eq_ok_iff, pure_eq_ok_iff, Prod.exists] at h h'
      obtain ⟨pool, account, hcall, account₁, paid, htake, rfl⟩ := h
      obtain ⟨pool', account', hcall', account₁', paid', htake', rfl⟩ := h'
      rw [hpool, hstaker] at hcall'
      cases hcall.symm.trans hcall'
      cases htake.symm.trans htake'
      obtain ⟨-, hledger⟩ := claimTakeAll_eq_ok v s.ledger htake
      obtain ⟨-, hledger'⟩ := claimTakeAll_eq_ok (f v) s'.ledger htake
      refine ⟨rfl, ?_⟩
      rintro _ ⟨⟩
      rw [row_put_self, row_put_self, hledger, hledger']
      simp [Ledger.payouts, Ledger.payAll, hclaimed, hunstaked, hwithdrawn]
  | emergencyWithdraw v =>
      obtain ⟨hstaker, hclaimed, hunstaked, hwithdrawn⟩ := Sys.row_ext (hrow v rfl)
      simp only [Op.map, Sys.perform, bind_eq_ok_iff, pure_eq_ok_iff, Prod.exists] at h h'
      obtain ⟨pool, account, amount, hcall, rfl⟩ := h
      obtain ⟨pool', account', amount', hcall', rfl⟩ := h'
      rw [hpool, hstaker] at hcall'
      cases hcall.symm.trans hcall'
      refine ⟨rfl, ?_⟩
      rintro _ ⟨⟩
      rw [row_put_self, row_put_self]
      simp [Ledger.payouts, Ledger.recordWithdraw, hclaimed, hunstaked, hwithdrawn]
  | addReward mint vault durationArg =>
      simp only [Op.map, Sys.perform, bind_eq_ok_iff, pure_eq_ok_iff] at h h'
      obtain ⟨pool, hcall, rfl⟩ := h
      obtain ⟨pool', hcall', rfl⟩ := h'
      exact ⟨hnone (by rw [hpool]) hcall hcall', hnobody⟩
  | setRewardActive slot active =>
      simp only [Op.map, Sys.perform, bind_eq_ok_iff, pure_eq_ok_iff] at h h'
      obtain ⟨pool, hcall, rfl⟩ := h
      obtain ⟨pool', hcall', rfl⟩ := h'
      exact ⟨hnone (by rw [hpool]) hcall hcall', hnobody⟩
  | depositRewards mint received =>
      simp only [Op.map, Sys.perform, bind_eq_ok_iff, pure_eq_ok_iff] at h h'
      obtain ⟨i, -, pool, hcall, rfl⟩ := h
      obtain ⟨i', -, pool', hcall', rfl⟩ := h'
      exact ⟨hnone (by rw [hpool]) hcall hcall', hnobody⟩
  | setDuration slot duration =>
      simp only [Op.map, Sys.perform, bind_eq_ok_iff, pure_eq_ok_iff] at h h'
      obtain ⟨pool, hcall, rfl⟩ := h
      obtain ⟨pool', hcall', rfl⟩ := h'
      exact ⟨hnone (by rw [hpool]) hcall hcall', hnobody⟩
  | setPaused paused =>
      cases h
      cases h'
      exact ⟨by simp [hpool], hnobody⟩
  | setKeeperAuthority keeper =>
      cases h
      cases h'
      exact ⟨by simp [hpool], hnobody⟩
  | setAdmin newAdmin =>
      cases h
      cases h'
      exact ⟨by simp [hpool], hnobody⟩

end MmStaking
