import MmStaking.Refine.Batch

/-! Order inside one timestamp: a batch of stakes, unstakes, claims and deposits, each of
another staker or into another slot, ends the same in every order that succeeds. -/
namespace MmStaking
open Words Loops Accrual

variable {ι : Type} [DecidableEq ι]

def Sys.performAll (s : Sys ι) (now : I64) : List (Op ι) → Result (Sys ι)
  | [] => .ok s
  | op :: rest => do
      let t ← s.perform now op
      t.performAll now rest

/-- What a batch does, read off the accounts part by part: every instruction as if it
met the terms of the first state. -/
theorem performAll_views {s s' : Sys ι} (ht : s.Tidy) {now : I64} (h0 : 0 ≤ now.val)
    {ops : List (Op ι)} (hops : ∀ op ∈ ops, op.party ≠ none) (h : s.performAll now ops = .ok s') :
    s'.pool.frame = s.pool.frame ∧ s'.identities = ops.foldl Op.identify s.identities ∧
      ∀ i, s'.book i = ops.foldl (fun b op => b.run P (op.acts s.pool i now)) (s.book i) := by
  induction ops generalizing s with
  | nil =>
      simp only [Sys.performAll, Except.ok.injEq] at h
      subst h
      exact ⟨rfl, rfl, fun _ => rfl⟩
  | cons op rest ih =>
      simp only [Sys.performAll, bind_eq_ok_iff] at h
      obtain ⟨t, hop, hrest⟩ := h
      obtain ⟨hframe, hids, hbook⟩ := perform_views ht h0 (hops op List.mem_cons_self) hop
      obtain ⟨hframe', hids', hbook'⟩ := ih (tidy_perform ht h0 hop)
        (fun x hx => hops x (List.mem_cons_of_mem op hx)) hrest
      refine ⟨hframe'.trans hframe, ?_, ?_⟩
      · rw [hids', hids]
        rfl
      · intro i
        have hacts : ∀ x : Op ι, x.acts t.pool i now = x.acts s.pool i now :=
          fun x => acts_congr (Pool.terms_of_frame hframe) x i now
        simp only [hbook', hacts]
        rw [hbook i]
        rfl

/-- Two successful orders of a batch end in the same pool, the same staker accounts and
the same totals claimed; a staker makes at most one of the claims. -/
theorem batch_order {s : Sys ι} [Fintype ι] (hs : s.Reachable) {now : I64} (h0 : 0 ≤ now.val)
    {ops ops' : List (Op ι)} (hdrawn : ∀ op ∈ ops, op.party ≠ none)
    (hapart : (ops.map Op.party).Nodup) (hperm : ops.Perm ops') {s₁ s₂ : Sys ι}
    (h₁ : s.performAll now ops = .ok s₁) (h₂ : s.performAll now ops' = .ok s₂) :
    s₁.pool = s₂.pool ∧ s₁.staker = s₂.staker ∧ s₁.ledger.claimed = s₂.ledger.claimed := by
  have ht := hs.inv.tidy
  have hdrawn' : ∀ op ∈ ops', op.party ≠ none := fun op hop => hdrawn op (hperm.mem_iff.mpr hop)
  obtain ⟨hframe₁, hids₁, hbook₁⟩ := performAll_views ht h0 hdrawn h₁
  obtain ⟨hframe₂, hids₂, hbook₂⟩ := performAll_views ht h0 hdrawn' h₂
  have hparty : ∀ x ∈ ops, ∀ y ∈ ops, x ≠ y → x.party ≠ y.party := by
    intro x hx y hy hne hsame
    exact hne (List.inj_on_of_nodup_map hapart hx hy hsame)
  have hids : s₁.identities = s₂.identities := by
    rw [hids₁, hids₂]
    refine hperm.foldl_eq' ?_ _
    intro x hx y hy ids
    by_cases hxy : x = y
    · rw [hxy]
    · exact identify_comm (hparty x hx y hy hxy) ids
  have hbook : ∀ i, s₁.book i = s₂.book i := by
    intro i
    rw [hbook₁ i, hbook₂ i]
    refine hperm.foldl_eq' ?_ _
    intro x hx y hy b
    by_cases hxy : x = y
    · rw [hxy]
    · exact acts_comm (hdrawn x hx) (hdrawn y hy) (hparty x hx y hy hxy) b
  refine ⟨?_, ?_, ?_⟩
  · have htotal : (s₁.pool.totalStaked.val : ℤ) = s₂.pool.totalStaked.val :=
      congrArg Book.total (hbook 0)
    exact Pool.eq_of_views (hframe₁.trans hframe₂.symm) (Unsigned.ext (Int.ofNat.inj htotal))
      fun i => congrArg Book.stream (hbook i)
  · funext v
    exact StakerAccount.eq_of_views (congrFun hids v)
      fun i => congrFun (congrArg Book.holder (hbook i)) v
  · funext v i
    exact congrFun (congrArg Book.claimed (hbook i)) v

/-- Both stakers of the trial run leave while more is deposited, in either order. -/
theorem batch_order_trial : ∃ s₁ s₂ : Sys (Fin 2),
    Sys.trial.performAll 60 [.unstake 0 100, .depositRewards 7 500, .unstake 1 300] = .ok s₁ ∧
      Sys.trial.performAll 60 [.unstake 1 300, .depositRewards 7 500, .unstake 0 100] = .ok s₂ ∧
      s₁.pool = s₂.pool ∧ s₁.staker = s₂.staker ∧ s₁.ledger.claimed = s₂.ledger.claimed := by
  obtain ⟨s₁, h₁⟩ := exists_ok (x := Sys.trial.performAll 60
    [.unstake 0 100, .depositRewards 7 500, .unstake 1 300]) (by decide +kernel)
  obtain ⟨s₂, h₂⟩ := exists_ok (x := Sys.trial.performAll 60
    [.unstake 1 300, .depositRewards 7 500, .unstake 0 100]) (by decide +kernel)
  refine ⟨s₁, s₂, h₁, h₂, ?_⟩
  exact batch_order Sys.reachable_trial (by decide) (by decide) (by decide)
    (List.reverse_perm [.unstake 1 300, .depositRewards 7 500, .unstake 0 100]) h₁ h₂

end MmStaking
