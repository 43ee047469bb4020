import MmStaking.Lib.Commute
import MmStaking.Refine.Invariant
import MmStaking.Refine.Terms

/-! Instructions of one time that act for different parties: what each does to the frame
of the pool, to the identities of the stakers and to the books does not depend on what
the others did before. -/
namespace MmStaking
open Words Loops Accrual

variable {ι : Type}

/-- The party an instruction settles and acts for: a staker, or the slot of a mint. -/
def Op.party : Op ι → Option (ι ⊕ Pubkey)
  | .stake v _ _ _ _ | .unstake v _ | .claim v _ => some (.inl v)
  | .depositRewards mint _ => some (.inr mint)
  | .addReward _ _ _ | .setRewardActive _ _ | .emergencyWithdraw _ | .setPaused _
  | .setKeeperAuthority _ | .setAdmin _ | .setDuration _ _ => none

def Sys.identities (s : Sys ι) (v : ι) : Pubkey × Pubkey × U8 := (s.staker v).identity

section Moves
variable [DecidableEq ι] {pool : Pool} {i : Slot} {now : I64}

/-- On slot `i` a staker's instruction moves the staker alone, and a deposit the terms of
the stream, if the slot is the one of its mint. -/
def Touches (pool : Pool) (i : Slot) : ι ⊕ Pubkey → Act ι → Prop
  | .inl v, a => a.Moves (some v)
  | .inr mint, a => a.Moves none ∧ findSlot pool mint = some i

omit [DecidableEq ι] in
theorem acts_eq_append (pool : Pool) (i : Slot) (now : I64) {op : Op ι} {p : ι ⊕ Pubkey}
    (hp : op.party = some p) :
    ∃ l, op.acts pool i now = settleActs pool i now ++ l ∧ ∀ a ∈ l, Touches pool i p a := by
  have hfor : ∀ v, ∃ l : List (Act ι), settleActsFor pool i now v = settleActs pool i now ++ l ∧
      ∀ a ∈ l, a.Moves (some v) := by
    intro v
    unfold settleActsFor settleActs
    split
    · refine ⟨[.checkpoint v], rfl, ?_⟩
      intro a ha
      rw [List.mem_singleton.mp ha]
      exact rfl
    · exact ⟨[], rfl, by simp⟩
  cases op with
  | stake v owner poolKey stakerBump amount =>
      cases hp
      obtain ⟨l, hl, hmoves⟩ := hfor v
      refine ⟨l ++ [.grow v amount.val], by rw [Op.acts, hl, List.append_assoc], ?_⟩
      intro a ha
      rcases List.mem_append.mp ha with ha | ha
      · exact hmoves a ha
      · rw [List.mem_singleton.mp ha]
        exact rfl
  | unstake v amount =>
      cases hp
      obtain ⟨l, hl, hmoves⟩ := hfor v
      refine ⟨l ++ [.shrink v amount.val], by rw [Op.acts, hl, List.append_assoc], ?_⟩
      intro a ha
      rcases List.mem_append.mp ha with ha | ha
      · exact hmoves a ha
      · rw [List.mem_singleton.mp ha]
        exact rfl
  | depositRewards mint received =>
      cases hp
      refine ⟨_, rfl, ?_⟩
      intro a ha
      split at ha
      · rename_i hslot
        rw [List.mem_singleton.mp ha]
        exact ⟨trivial, hslot⟩
      · cases ha
  | claim v vaultKeys =>
      cases hp
      obtain ⟨l, hl, hmoves⟩ := hfor v
      refine ⟨l ++ takeActs pool i v vaultKeys, by rw [Op.acts, hl, List.append_assoc], ?_⟩
      intro a ha
      rcases List.mem_append.mp ha with ha | ha
      · exact hmoves a ha
      · obtain ⟨key, -, rfl⟩ := List.mem_map.mp ha
        exact rfl
  | _ => cases hp

theorem Touches.comm {p p' : ι ⊕ Pubkey} (hne : p ≠ p') {a a' : Act ι} (h : Touches pool i p a)
    (h' : Touches pool i p' a') (b : Book ι) :
    (b.apply P a).apply P a' = (b.apply P a').apply P a := by
  cases p with
  | inl v =>
      cases p' with
      | inl u =>
          have hvu : some v ≠ some u := fun e => hne (congrArg Sum.inl (Option.some.inj e))
          exact Book.apply_comm P hvu h h' b
      | inr mint' => exact Book.apply_comm P (by simp) h h'.1 b
  | inr mint =>
      cases p' with
      | inl u => exact Book.apply_comm P (by simp) h.1 h' b
      | inr mint' =>
          have hmint : mint = mint' := (findSlot_some h.2).symm.trans (findSlot_some h'.2)
          exact absurd (congrArg Sum.inr hmint) hne

theorem acts_comm {op op' : Op ι} (h : op.party ≠ none) (h' : op'.party ≠ none)
    (hne : op.party ≠ op'.party) (b : Book ι) :
    (b.run P (op.acts pool i now)).run P (op'.acts pool i now) =
      (b.run P (op'.acts pool i now)).run P (op.acts pool i now) := by
  obtain ⟨p, hp⟩ := Option.ne_none_iff_exists'.mp h
  obtain ⟨p', hp'⟩ := Option.ne_none_iff_exists'.mp h'
  have hpp : p ≠ p' := by
    intro e
    rw [hp, hp', e] at hne
    exact hne rfl
  obtain ⟨l, hl, htouch⟩ := acts_eq_append pool i now hp
  obtain ⟨l', hl', htouch'⟩ := acts_eq_append pool i now hp'
  have hcomm : ∀ b : Book ι, (b.run P l).run P l' = (b.run P l').run P l :=
    Book.run_comm fun a ha a' ha' => Touches.comm hpp (htouch a ha) (htouch' a' ha')
  have hat := acts_at op pool i now
  have hat' := acts_at op' pool i now
  rw [hl] at hat ⊢
  rw [hl'] at hat' ⊢
  unfold settleActs
  split
  · exact Book.run_settled_comm (fun a ha => hat a (List.mem_append_right _ ha))
      (fun a ha => hat' a (List.mem_append_right _ ha)) hcomm b
  · exact hcomm b

end Moves

section Identities
variable [DecidableEq ι]

/-- The identities after an instruction: staking fills in a blank one. -/
def Op.identify (ids : ι → Pubkey × Pubkey × U8) : Op ι → ι → Pubkey × Pubkey × U8
  | .stake v owner poolKey stakerBump _ =>
      if (ids v).1 = 0 then Function.update ids v (owner, poolKey, stakerBump) else ids
  | _ => ids

theorem identify_comm {op op' : Op ι} (hne : op.party ≠ op'.party)
    (ids : ι → Pubkey × Pubkey × U8) :
    op'.identify (op.identify ids) = op.identify (op'.identify ids) := by
  cases op with
  | stake v owner poolKey stakerBump amount =>
      cases op' with
      | stake u owner' poolKey' stakerBump' amount' =>
          have hvu : v ≠ u := by
            intro e
            exact hne (by rw [e]; rfl)
          simp only [Op.identify]
          split <;> split <;> simp_all [Function.update_comm hvu, hvu.symm]
      | _ => rfl
  | _ => rfl

theorem StakerAccount.opened_identity (staker : StakerAccount) (owner poolKey : Pubkey)
    (stakerBump : U8) : (staker.opened owner poolKey stakerBump).identity =
      if staker.identity.1 = 0 then (owner, poolKey, stakerBump) else staker.identity := by
  unfold opened
  change (if staker.owner = 0 then _ else staker).identity =
    if staker.owner = 0 then (owner, poolKey, stakerBump) else staker.identity
  split <;> rfl

theorem identity_update (staker : ι → StakerAccount) (v : ι) (account : StakerAccount) :
    (fun u => (Function.update staker v account u).identity) =
      Function.update (fun u => (staker u).identity) v account.identity := by
  funext u
  exact Function.apply_update (fun _ => StakerAccount.identity) staker v account u

theorem perform_views {s s' : Sys ι} (ht : s.Tidy) {now : I64} (h0 : 0 ≤ now.val) {op : Op ι}
    (hop : op.party ≠ none) (h : s.perform now op = .ok s') :
    s'.pool.frame = s.pool.frame ∧ s'.identities = op.identify s.identities ∧
      ∀ i, s'.book i = (s.book i).run P (op.acts s.pool i now) := by
  have hsettle : ∀ pool, settleSlots s.pool now = .ok pool → pool.frame = s.pool.frame :=
    fun _ hp => settleSlots_frame ht.last_nonneg hp
  cases op with
  | stake v owner poolKey stakerBump amount =>
      have hbook := fun i => (simulate_stake ht h i).1
      obtain ⟨-, -, p₁, a₁, _, _, hs, he, -, -, rfl⟩ := perform_stake_eq_ok_iff.mp h
      have hid : a₁.identity =
          if (s.identities v).1 = 0 then (owner, poolKey, stakerBump) else s.identities v :=
        (settleEntries_identity he).trans ((s.staker v).opened_identity owner poolKey stakerBump)
      refine ⟨hsettle p₁ hs, (identity_update s.staker v _).trans ?_, hbook⟩
      change Function.update s.identities v a₁.identity = _
      rw [hid]
      simp only [Op.identify]
      split
      · rfl
      · exact Function.update_eq_self v _
  | unstake v amount =>
      have hbook := fun i => (simulate_unstake ht h i).1
      obtain ⟨-, -, p₁, a₁, _, _, hs, he, -, -, rfl⟩ := perform_unstake_eq_ok_iff.mp h
      have hid : a₁.identity = s.identities v := settleEntries_identity he
      refine ⟨hsettle p₁ hs, (identity_update s.staker v _).trans ?_, hbook⟩
      change Function.update s.identities v a₁.identity = _
      rw [hid]
      exact Function.update_eq_self v _
  | depositRewards mint received =>
      have hbook := fun i => (simulate_depositRewards ht h0 h i).1
      obtain ⟨j, -, -, p₁, _, _, hs, -, -, rfl⟩ := perform_depositRewards_eq_ok_iff.mp h
      refine ⟨(Pool.frame_eq rfl ?_).trans (hsettle p₁ hs), rfl, hbook⟩
      intro i
      rw [setReward_terms]
      split
      · rename_i hji
        rw [← hji]
        rfl
      · rfl
  | claim v vaultKeys =>
      have hbook := fun i => (simulate_claim ht h i).1
      obtain ⟨p₁, a₁, a₂, _, hs, he, hc, rfl⟩ := perform_claim_eq_ok_iff.mp h
      have hid : a₂.identity = s.identities v :=
        (claimTakeAll_identity hc).trans (settleEntries_identity he)
      refine ⟨hsettle p₁ hs, (identity_update s.staker v _).trans ?_, hbook⟩
      rw [hid]
      exact Function.update_eq_self v _
  | _ => exact absurd rfl hop

end Identities

end MmStaking
