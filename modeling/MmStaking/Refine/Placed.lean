import MmStaking.Program.Chain
import MmStaking.Refine.Terms
import MmStaking.Refine.Tokens

/-! Where the program's accounts are. Every pool, staker account and vault is at its derived
address, the vaults are held by their pool, and no transaction and nothing outside changes
that. -/
namespace MmStaking
open Words Loops Runs Custody

/-- What the addresses of a pool's accounts hang on: its mint, vault and bump, and the mint
and vault of every slot. -/
def Pool.anchor (pool : Pool) : Pubkey × Pubkey × U8 × (Slot → Pubkey × Pubkey) :=
  (pool.stakeMint, pool.stakeVault, pool.bump, fun i => (pool.rewards i).keys)

section Keeps
variable {pool pool' : Pool} {staker staker' : StakerAccount} {now : I64}

/-- Addresses are kept, and empty slots left alone. -/
structure Pool.Keeps (pool pool' : Pool) : Prop where
  anchor : pool'.anchor = pool.anchor
  empty : ∀ i, ¬ pool.Registered i → pool'.rewards i = pool.rewards i

theorem Pool.mint_of_anchor (h : pool'.anchor = pool.anchor) (i : Slot) :
    (pool'.rewards i).mint = (pool.rewards i).mint :=
  congrArg Prod.fst (congrFun (congrArg (fun a => a.2.2.2) h) i)

theorem Pool.registered_of_anchor (h : pool'.anchor = pool.anchor) (i : Slot) :
    pool'.Registered i ↔ pool.Registered i := by
  rw [Pool.Registered, Pool.Registered, Pool.mint_of_anchor h]

theorem Pool.Keeps.setReward {i : Slot} {slot : RewardInfo} (hi : pool.Registered i)
    (h : slot.keys = (pool.rewards i).keys) : pool.Keeps (pool.setReward i slot) := by
  have hkeys : ∀ j, ((pool.setReward i slot).rewards j).keys = (pool.rewards j).keys := by
    intro j
    by_cases hj : j = i
    · subst hj
      simpa [Pool.setReward] using h
    · simp [Pool.setReward, hj]
  constructor
  · simp only [Pool.anchor, hkeys]
    rfl
  · intro j hj
    have hne : j ≠ i := by
      rintro rfl
      exact hj hi
    simp [Pool.setReward, hne]

theorem Pool.Keeps.trans {pool'' : Pool} (h : pool.Keeps pool') (h' : pool'.Keeps pool'') :
    pool.Keeps pool'' := by
  refine ⟨h'.anchor.trans h.anchor, ?_⟩
  intro i hi
  have hi' : ¬ pool'.Registered i := mt (Pool.registered_of_anchor h.anchor i).mp hi
  exact (h'.empty i hi').trans (h.empty i hi)

theorem Pool.Keeps.blank (h : pool.Keeps pool')
    (hempty : ∀ i, ¬ pool.Registered i → pool.rewards i = .zeroed) (i : Slot)
    (hi : ¬ pool'.Registered i) : pool'.rewards i = .zeroed := by
  have hi' : ¬ pool.Registered i := mt (Pool.registered_of_anchor h.anchor i).mpr hi
  exact (h.empty i hi').trans (hempty i hi')

theorem settleSlot_keys {slot slot' : RewardInfo} {total : U64}
    (h : settleSlot slot total now = .ok slot') : slot'.keys = slot.keys := by
  unfold settleSlot at h
  dsimp only at h
  split at h
  · simp only [bind_eq_ok_iff, pure_eq_ok_iff] at h
    obtain ⟨_, -, rfl⟩ := h
    rfl
  · simp only [bind_eq_ok_iff, pure_eq_ok_iff] at h
    obtain ⟨_, -, rfl⟩ := h
    rfl

theorem settleSlots_keeps (h : settleSlots pool now = .ok pool') : pool.Keeps pool' := by
  obtain ⟨heq, hslots⟩ := settleSlots_eq_ok_iff.mp h
  have hkeys : ∀ i, (pool'.rewards i).keys = (pool.rewards i).keys := by
    intro i
    have hi := hslots i
    split at hi
    · rw [Except.ok.inj hi]
    · exact settleSlot_keys hi
  refine ⟨?_, fun i => settleSlots_empty h⟩
  rw [heq]
  simp only [Pool.anchor, hkeys]

theorem stake_keeps {owner poolKey : Pubkey} {bump : U8} {amount : U64}
    (h : stake pool staker owner poolKey bump amount now = .ok (pool', staker')) :
    pool.Keeps pool' ∧ staker'.identity = (staker.opened owner poolKey bump).identity := by
  obtain ⟨-, -, p₁, a₁, _, _, hp, he, -, -, rfl, rfl⟩ := stake_eq_ok_iff.mp h
  have hkeeps := settleSlots_keeps hp
  have hidentity := settleEntries_identity he
  exact ⟨⟨hkeeps.anchor, hkeeps.empty⟩, hidentity⟩

theorem unstake_keeps {amount : U64} (h : unstake pool staker amount now = .ok (pool', staker')) :
    pool.Keeps pool' ∧ staker'.identity = staker.identity := by
  obtain ⟨-, -, p₁, a₁, _, _, hp, he, -, -, rfl, rfl⟩ := unstake_eq_ok_iff.mp h
  have hkeeps := settleSlots_keeps hp
  have hidentity := settleEntries_identity he
  exact ⟨⟨hkeeps.anchor, hkeeps.empty⟩, hidentity⟩

theorem emergencyWithdraw_keeps {amount : U64}
    (h : emergencyWithdraw pool staker = .ok (pool', staker', amount)) :
    pool.Keeps pool' ∧ staker'.identity = staker.identity := by
  simp only [emergencyWithdraw, Except.ok.injEq, Prod.mk.injEq] at h
  obtain ⟨rfl, rfl, -⟩ := h
  exact ⟨⟨rfl, fun _ _ => rfl⟩, rfl⟩

theorem registered_of_active (hempty : ∀ i, ¬ pool.Registered i → pool.rewards i = .zeroed)
    {i : Slot} (ha : (pool.rewards i).active.val = 1) : pool.Registered i := by
  by_contra hi
  rw [hempty i hi] at ha
  cases ha

theorem depositRewards_keeps (hempty : ∀ i, ¬ pool.Registered i → pool.rewards i = .zeroed)
    {mint : Pubkey} {received : U64} (h : depositRewards pool mint received now = .ok pool') :
    pool.Keeps pool' := by
  obtain ⟨i, -, ha, p₁, _, _, hp, -, -, rfl⟩ := depositRewards_eq_ok_iff.mp h
  have hi := registered_of_active hempty ha
  have hsettled := settleSlots_keeps hp
  have hreg := Pool.registered_of_anchor hsettled.anchor
  exact hsettled.trans (Pool.Keeps.setReward ((hreg i).mpr hi) rfl)

theorem setDuration_keeps {slot : U8} {d : I64} (h : setDuration pool slot d = .ok pool') :
    pool.Keeps pool' := by
  obtain ⟨-, i, hi, rfl⟩ := setDuration_eq_ok_iff.mp h
  exact Pool.Keeps.setReward (slotArg_some hi) rfl

theorem setRewardActive_keeps {slot : U8} {active : Bool}
    (h : setRewardActive pool slot active = .ok pool') : pool.Keeps pool' := by
  obtain ⟨i, hi, rfl⟩ := setRewardActive_eq_ok_iff.mp h
  exact Pool.Keeps.setReward (slotArg_some hi) rfl

/-- Only in an occupied slot has something accrued. -/
def Pool.Confines (pool : Pool) (staker : StakerAccount) : Prop :=
  ∀ i, ¬ pool.Registered i → (staker.entries i).rewardsAccrued.val = 0

theorem Pool.Confines.kept (h : pool.Confines staker) (ha : pool'.anchor = pool.anchor) :
    pool'.Confines staker :=
  fun i hi => h i (mt (Pool.registered_of_anchor ha i).mpr hi)

theorem Pool.Confines.settle (h : pool.Confines staker) {p₁ : Pool}
    (hp : settleSlots pool now = .ok p₁) (he : settleEntries p₁ staker = .ok staker') :
    p₁.Confines staker' := by
  intro i hi
  rw [settleEntries_empty he hi]
  exact h.kept (settleSlots_keeps hp).anchor i hi

theorem Pool.Confines.stake {owner poolKey : Pubkey} {bump : U8} {amount : U64}
    (h : pool.Confines staker)
    (hstake : stake pool staker owner poolKey bump amount now = .ok (pool', staker')) :
    pool'.Confines staker' := by
  obtain ⟨-, -, p₁, a₁, _, _, hp, he, -, -, rfl, rfl⟩ := stake_eq_ok_iff.mp hstake
  have hopened : pool.Confines (staker.opened owner poolKey bump) := by
    intro i hi
    rw [StakerAccount.opened_entries]
    exact h i hi
  have hsettled := hopened.settle hp he
  exact hsettled

theorem Pool.Confines.unstake {amount : U64} (h : pool.Confines staker)
    (hunstake : unstake pool staker amount now = .ok (pool', staker')) :
    pool'.Confines staker' := by
  obtain ⟨-, -, p₁, a₁, _, _, hp, he, -, -, rfl, rfl⟩ := unstake_eq_ok_iff.mp hunstake
  have hsettled := h.settle hp he
  exact hsettled

theorem emergencyWithdraw_confines {amount : U64}
    (h : emergencyWithdraw pool staker = .ok (pool', staker', amount)) :
    pool'.Confines staker' := by
  simp only [emergencyWithdraw, Except.ok.injEq, Prod.mk.injEq] at h
  obtain ⟨-, rfl, -⟩ := h
  exact fun _ _ => rfl

end Keeps

/-- The pool at `p` and its vaults are at their addresses, and the pool holds its vaults, alone. -/
structure Pool.Placed (rt : Runtime) (tokens : Tokens) (p : Pubkey) (pool : Pool) : Prop where
  found : rt.find (.pool pool.stakeMint) = some (p, pool.bump)
  vault_found : ∃ bump, rt.find (.stakeVault p) = some (pool.stakeVault, bump)
  vault_held : ∃ x, tokens pool.stakeVault = some x ∧ x.owner = p ∧ x.mint = pool.stakeMint
  reward_found : ∀ i, pool.Registered i →
    ∃ bump, rt.find (.rewardVault p (pool.rewards i).mint) = some ((pool.rewards i).vault, bump)
  reward_held : ∀ i, pool.Registered i → ∃ x, tokens (pool.rewards i).vault = some x ∧
    x.owner = p ∧ x.mint = (pool.rewards i).mint
  vault_alone : Undelegated tokens pool.stakeVault
  reward_alone : ∀ i, pool.Registered i → Undelegated tokens (pool.rewards i).vault

/-- The staker account at `key` is at the address of its owner in its pool, and its owner is
somebody who can sign. -/
structure StakerAccount.Placed (rt : Runtime) (key : Pubkey) (staker : StakerAccount) : Prop where
  found : rt.find (.staker staker.pool staker.owner) = some (key, staker.bump)
  signable : rt.signable staker.owner = true

/-- Token accounts at derived addresses stay, with their owner and mint and no new delegate. -/
def TokensKept (rt : Runtime) (tokens tokens' : Tokens) : Prop :=
  ∀ {seeds bump key x}, rt.create seeds bump = some key → tokens key = some x →
    (∃ x', tokens' key = some x' ∧ x'.owner = x.owner ∧ x'.mint = x.mint) ∧
      (Undelegated tokens key → Undelegated tokens' key)

/-- The program's accounts are in place, and in empty slots there is nothing. -/
structure World.Sound (rt : Runtime) (w : World) : Prop where
  pool : ∀ {p P}, w.pools p = some P → P.Placed rt w.tokens p
  staker : ∀ {k a}, w.stakers k = some a → a.Placed rt k ∧ ∃ P, w.pools a.pool = some P
  empty : ∀ {p P}, w.pools p = some P → ∀ i, ¬ P.Registered i → P.rewards i = .zeroed
  blank : ∀ {k a P}, w.stakers k = some a → w.pools a.pool = some P → P.Confines a

theorem World.Sound.stakeMint_eq {rt : Runtime} {w w' : World} {p : Pubkey} {P P' : Pool}
    (hw : w.Sound rt) (hw' : w'.Sound rt) (hP : w.pools p = some P)
    (hP' : w'.pools p = some P') : P'.stakeMint = P.stakeMint := by
  have hseeds := rt.injective (Pda.create_of_find (hw'.pool hP').found)
    (Pda.create_of_find (hw.pool hP).found)
  rwa [Seeds.pool.injEq] at hseeds

section Kept
variable {rt : Runtime} {tokens tokens' : Tokens} {p : Pubkey} {P P' : Pool}

theorem TokensKept.of_moves {A B : Set Pubkey} (h : Moves A B (custody tokens) (custody tokens'))
    (halone : ∀ {key}, Undelegated tokens key → Undelegated tokens' key) :
    TokensKept rt tokens tokens' := by
  intro _ _ key x _ hx
  refine ⟨?_, halone⟩
  obtain ⟨z, hz, howner, hmint, -⟩ := h.account (custody_eq_some hx)
  simp only [custody, Option.map_eq_some_iff] at hz
  obtain ⟨x', hx', rfl⟩ := hz
  exact ⟨x', hx', howner, hmint⟩

theorem TokensKept.of_transfer {token : TokenProgram} {source dest authority : Pubkey}
    {amount : U64} (h : token.transfer tokens source dest authority amount = .ok tokens') :
    TokensKept rt tokens tokens' := by
  obtain ⟨x, y, hx, hy, -⟩ := token.transfer_ok h
  exact TokensKept.of_moves (transfer_moves h hx hy) (transfer_undelegated h)

theorem TokensKept.of_update {key : Pubkey} (hnone : tokens key = none) (x : Holding) :
    TokensKept rt tokens (Function.update tokens key (some x)) := by
  intro _ _ k y _ hy
  have hne : k ≠ key := by
    rintro rfl
    rw [hnone] at hy
    cases hy
  have hsame : Function.update tokens key (some x) k = tokens k := Function.update_of_ne hne _ _
  refine ⟨⟨y, hsame.trans hy, rfl, rfl⟩, ?_⟩
  intro halone z hz
  exact halone z (hsame.symm.trans hz)

theorem Pool.Placed.kept (h : P.Placed rt tokens p) (ht : TokensKept rt tokens tokens') :
    P.Placed rt tokens' p := by
  obtain ⟨x, hx, howner, hmint⟩ := h.vault_held
  obtain ⟨bump, hfound⟩ := h.vault_found
  obtain ⟨⟨x', hx', howner', hmint'⟩, halone⟩ := ht (Pda.create_of_find hfound) hx
  refine ⟨h.found, h.vault_found, ⟨x', hx', howner'.trans howner, hmint'.trans hmint⟩,
    h.reward_found, ?_, halone h.vault_alone, ?_⟩
  · intro i hi
    obtain ⟨x, hx, howner, hmint⟩ := h.reward_held i hi
    obtain ⟨bump, hfound⟩ := h.reward_found i hi
    obtain ⟨⟨x', hx', howner', hmint'⟩, -⟩ := ht (Pda.create_of_find hfound) hx
    exact ⟨x', hx', howner'.trans howner, hmint'.trans hmint⟩
  · intro i hi
    obtain ⟨x, hx, -⟩ := h.reward_held i hi
    obtain ⟨bump, hfound⟩ := h.reward_found i hi
    exact (ht (Pda.create_of_find hfound) hx).2 (h.reward_alone i hi)

theorem Pool.Placed.congr (h : P.Placed rt tokens p) (ha : P'.anchor = P.anchor) :
    P'.Placed rt tokens p := by
  have hm := Pool.mint_of_anchor ha
  have hv : ∀ i, (P'.rewards i).vault = (P.rewards i).vault :=
    fun i => congrArg Prod.snd (congrFun (congrArg (fun a => a.2.2.2) ha) i)
  have hreg := fun i => (Pool.registered_of_anchor ha i).mp
  simp only [Pool.anchor, Prod.mk.injEq] at ha
  obtain ⟨hmint, hvault, hbump, -⟩ := ha
  refine ⟨?_, ?_, ?_, ?_, ?_, ?_, ?_⟩
  · rw [hmint, hbump]
    exact h.found
  · rw [hvault]
    exact h.vault_found
  · rw [hvault, hmint]
    exact h.vault_held
  · intro i hi
    rw [hm, hv]
    exact h.reward_found i (hreg i hi)
  · intro i hi
    rw [hm, hv]
    exact h.reward_held i (hreg i hi)
  · rw [hvault]
    exact h.vault_alone
  · intro i hi
    rw [hv]
    exact h.reward_alone i (hreg i hi)

/-- Slots that share a vault share its mint: the seeds of the vault name it. -/
theorem Pool.Placed.vault_inj (h : P.Placed rt tokens p) {i j : Slot} (hi : P.Registered i)
    (hj : P.Registered j) (hsame : (P.rewards i).vault = (P.rewards j).vault) :
    (P.rewards i).mint = (P.rewards j).mint := by
  obtain ⟨bump, hfound⟩ := h.reward_found i hi
  obtain ⟨bump', hfound'⟩ := h.reward_found j hj
  rw [hsame] at hfound
  have hseeds := rt.injective (Pda.create_of_find hfound) (Pda.create_of_find hfound')
  simp only [Seeds.rewardVault.injEq] at hseeds
  exact hseeds.2

end Kept

section Sound
variable {rt : Runtime} {w w' : World}

theorem World.Sound.putPool (hw : w.Sound rt) {p : Pubkey} {P P' : Pool} {tokens : Tokens}
    (hP : w.pools p = some P) (ha : P.Keeps P')
    (ht : TokensKept rt w.tokens tokens) : ((w.putPool p P').putTokens tokens).Sound rt := by
  refine ⟨?_, ?_, ?_, ?_⟩
  · intro q Q hQ
    by_cases hq : q = p
    · subst hq
      simp only [World.putPool, World.putTokens, Function.update_self, Option.some.injEq] at hQ
      subst hQ
      exact ((hw.pool hP).congr ha.anchor).kept ht
    · simp only [World.putPool, World.putTokens, Function.update_of_ne hq] at hQ
      exact (hw.pool hQ).kept ht
  · intro k a hk
    obtain ⟨hplaced, Q, hQ⟩ := hw.staker hk
    refine ⟨hplaced, ?_⟩
    by_cases hq : a.pool = p
    · exact ⟨P', by simp [World.putPool, World.putTokens, hq]⟩
    · exact ⟨Q, by simpa [World.putPool, World.putTokens, hq] using hQ⟩
  · intro q Q hQ
    by_cases hq : q = p
    · subst hq
      simp only [World.putPool, World.putTokens, Function.update_self, Option.some.injEq] at hQ
      subst hQ
      exact ha.blank (hw.empty hP)
    · simp only [World.putPool, World.putTokens, Function.update_of_ne hq] at hQ
      exact hw.empty hQ
  · intro k a Q hk hQ
    by_cases hq : a.pool = p
    · simp only [World.putPool, World.putTokens, hq, Function.update_self,
        Option.some.injEq] at hQ
      rw [← hQ]
      exact (hw.blank hk (by rw [hq, hP])).kept ha.anchor
    · simp only [World.putPool, World.putTokens, Function.update_of_ne hq] at hQ
      exact hw.blank hk hQ

theorem World.Sound.putStaker (hw : w.Sound rt) {k : Pubkey} {a : StakerAccount} {P : Pool}
    (ha : a.Placed rt k) (hP : w.pools a.pool = some P) (hconf : P.Confines a) :
    (w.putStaker k a).Sound rt := by
  refine ⟨hw.pool, ?_, hw.empty, ?_⟩
  · intro k' a' hk'
    by_cases hkk : k' = k
    · subst hkk
      simp only [World.putStaker, Function.update_self, Option.some.injEq] at hk'
      subst hk'
      exact ⟨ha, P, hP⟩
    · simp only [World.putStaker, Function.update_of_ne hkk] at hk'
      exact hw.staker hk'
  · intro k' a' Q hk' hQ
    by_cases hkk : k' = k
    · subst hkk
      simp only [World.putStaker, Function.update_self, Option.some.injEq] at hk'
      subst hk'
      obtain rfl : P = Q := Option.some.inj (hP.symm.trans hQ)
      exact hconf
    · simp only [World.putStaker, Function.update_of_ne hkk] at hk'
      exact hw.blank hk' hQ

theorem World.Sound.putLamports (hw : w.Sound rt) (lamports : Lamports) :
    (w.putLamports lamports).Sound rt :=
  ⟨hw.pool, hw.staker, hw.empty, hw.blank⟩

theorem StakerAccount.Placed.congr {k : Pubkey} {a a' : StakerAccount} (h : a.Placed rt k)
    (hi : a'.identity = a.identity) : a'.Placed rt k ∧ a'.pool = a.pool := by
  simp only [StakerAccount.identity, Prod.mk.injEq] at hi
  obtain ⟨howner, hpool, hbump⟩ := hi
  refine ⟨⟨?_, ?_⟩, hpool⟩
  · rw [howner, hpool, hbump]
    exact h.found
  · rw [howner]
    exact h.signable

theorem World.Sound.putBoth (hw : w.Sound rt) {p k : Pubkey} {P P' : Pool}
    {a a' : StakerAccount} {tokens : Tokens} (hP : w.pools p = some P)
    (hP' : P.Keeps P') (hk : w.stakers k = some a) (ha : a'.identity = a.identity)
    (hpool : a.pool = p) (hconf : P'.Confines a') (ht : TokensKept rt w.tokens tokens) :
    (((w.putPool p P').putStaker k a').putTokens tokens).Sound rt := by
  obtain ⟨hplaced', hpool'⟩ := (hw.staker hk).1.congr ha
  refine (hw.putPool hP hP' ht).putStaker (P := P') hplaced' ?_ hconf
  rw [hpool', hpool]
  exact Function.update_self _ _ _

theorem World.Sound.staker_pool (hw : w.Sound rt) {k p u : Pubkey} {a : StakerAccount}
    {bump : U8} (hk : w.stakers k = some a) (h : rt.create (.staker p u) bump = some k) :
    a.pool = p ∧ a.owner = u := by
  have hseeds := rt.injective (Pda.create_of_find (hw.staker hk).1.found) h
  rw [Seeds.staker.injEq] at hseeds
  exact hseeds

variable {env : Env}

theorem Stake.Loads.placed {ctx : Stake} {P : Pool} {a : StakerAccount} {bump : U8}
    (hw : w.Sound env.rt) (hsign : ∀ key ∈ env.signers, env.rt.signable key = true)
    (h : ctx.Loads env w P a bump) :
    (a.opened ctx.owner ctx.pool bump).Placed env.rt ctx.staker ∧
      (a.opened ctx.owner ctx.pool bump).pool = ctx.pool ∧
      (a.opened ctx.owner ctx.pool bump).owner = ctx.owner := by
  have howner := hsign _ h.signed
  rcases h.staker with hk | ⟨-, -, rfl⟩
  · have hplaced := (hw.staker hk).1
    have hne : a.owner ≠ 0 := by
      intro hzero
      have hs := hplaced.signable
      rw [hzero, env.rt.zero_unsignable] at hs
      cases hs
    rw [StakerAccount.opened, if_neg hne]
    exact ⟨hplaced, hw.staker_pool hk (Pda.create_of_find h.found)⟩
  · -- a new account is zeroed, and gets its owner and pool here
    have hopen : StakerAccount.zeroed.opened ctx.owner ctx.pool bump =
        { StakerAccount.zeroed with owner := ctx.owner, pool := ctx.pool, bump := bump } :=
      if_pos rfl
    rw [hopen]
    exact ⟨⟨h.found, howner⟩, rfl, rfl⟩

theorem Stake.Loads.confines {ctx : Stake} {P : Pool} {a : StakerAccount} {bump : U8}
    (hw : w.Sound env.rt) (h : ctx.Loads env w P a bump) : P.Confines a := by
  rcases h.staker with hk | ⟨-, -, rfl⟩
  · have hpool := (hw.staker_pool hk (Pda.create_of_find h.found)).1
    exact hw.blank hk (by rw [hpool, h.pool])
  · exact fun _ _ => rfl

theorem Claim.loop_confines {ctx : Claim} {stakeMint : Pubkey} {bump : U8} {P : Pool}
    {a a' : StakerAccount} {tokens tokens' : Tokens} {pairs : List (Pubkey × Pubkey)}
    (hconf : P.Confines a)
    (h : pairs.foldlM (ctx.turn env stakeMint bump P) (a, tokens) = .ok (a', tokens')) :
    P.Confines a' := by
  refine foldlM_invariant (I := fun state : StakerAccount × Tokens => P.Confines state.1)
    hconf ?_ h
  rintro ⟨b, tokens₁⟩ ⟨vaultAi, userAi⟩ ⟨b', tokens₂⟩ hb hturn j hj
  obtain ⟨i, -, rfl, -⟩ := Claim.turn_eq_ok_iff.mp hturn
  simp only [StakerAccount.takeAll]
  split
  · rfl
  · exact hb j hj

theorem Claim.Loads.paidFrom {ctx : Claim} {P P' : Pool} {a a₁ : StakerAccount}
    (hw : w.Sound env.rt) (h : ctx.Loads env w P a) {now : I64}
    (hset : claimSettleAll P a now = .ok (P', a₁)) :
    P'.Confines a₁ ∧ a₁.PaidFrom P' ctx.pool w.tokens := by
  obtain ⟨hp, he⟩ := claimSettleAll_eq_ok_iff.mp hset
  have hpool := (hw.staker_pool h.staker h.derived_staker).1
  have hconf := (hw.blank h.staker (by rw [hpool, h.pool])).settle hp he
  refine ⟨hconf, ?_⟩
  intro i hne
  exact ((hw.pool h.pool).congr (settleSlots_keeps hp).anchor).reward_held i
    (not_not.mp fun hi => hne (hconf i hi))

theorem InitializePool.sound {ctx : InitializePool} {d : I64} {keeper : Pubkey}
    (hw : w.Sound env.rt) (h : ctx.handler env w d keeper = .ok w') : w'.Sound env.rt := by
  obtain ⟨-, -, bump, vaultBump, pool, _, hfound, hvacant, hvault, hvacant', hinit, -, rfl⟩ :=
    InitializePool.handler_eq_ok_iff.mp h
  obtain ⟨hnone, -⟩ := World.vacant_iff.mp hvacant
  obtain ⟨-, -, htoken, -⟩ := World.vacant_iff.mp hvacant'
  have hkept : TokensKept env.rt w.tokens (Function.update w.tokens ctx.stakeVault
      (some (.opened ctx.stakeMint ctx.pool))) := TokensKept.of_update htoken _
  have hother : ∀ {k a}, w.stakers k = some a → a.pool ≠ ctx.pool := by
    intro k a hk hq
    obtain ⟨-, Q, hQ⟩ := hw.staker hk
    rw [hq, hnone] at hQ
    cases hQ
  simp only [initPool, bind_eq_ok_iff, require_eq_ok_iff, pure_eq_ok_iff] at hinit
  obtain ⟨-, -, rfl⟩ := hinit
  refine World.Sound.putLamports ⟨?_, ?_, ?_, ?_⟩ _
  · intro q Q hQ
    by_cases hq : q = ctx.pool
    · subst hq
      simp only [World.putPool, World.putToken, Function.update_self, Option.some.injEq] at hQ
      subst hQ
      refine ⟨hfound, ⟨vaultBump, hvault⟩, ⟨_, Function.update_self _ _ _, rfl, rfl⟩,
        fun i hi => absurd rfl hi, fun i hi => absurd rfl hi, ?_, fun i hi => absurd rfl hi⟩
      exact Undelegated.opened
    · simp only [World.putPool, World.putToken, Function.update_of_ne hq] at hQ
      exact (hw.pool hQ).kept hkept
  · intro k a hk
    obtain ⟨hplaced, Q, hQ⟩ := hw.staker hk
    have hq : a.pool ≠ ctx.pool := hother hk
    exact ⟨hplaced, Q, by simpa [World.putPool, World.putToken, hq] using hQ⟩
  · intro q Q hQ
    by_cases hq : q = ctx.pool
    · subst hq
      simp only [World.putPool, World.putToken, Function.update_self, Option.some.injEq] at hQ
      subst hQ
      exact fun _ _ => rfl
    · simp only [World.putPool, World.putToken, Function.update_of_ne hq] at hQ
      exact hw.empty hQ
  · intro k a Q hk hQ
    have hq : a.pool ≠ ctx.pool := hother hk
    simp only [World.putPool, World.putToken, Function.update_of_ne hq] at hQ
    exact hw.blank hk hQ

theorem Pool.empty_of_setReward {P : Pool} {idx i : Slot} {slot : RewardInfo}
    (hslot : slot.mint ≠ 0) (hi : ¬ (P.setReward idx slot).Registered i) :
    i ≠ idx ∧ ¬ P.Registered i := by
  have hne : i ≠ idx := by
    rintro rfl
    simp only [Pool.Registered, Pool.setReward, Function.update_self, not_not] at hi
    exact hslot hi
  exact ⟨hne, by simpa [Pool.Registered, Pool.setReward, hne] using hi⟩

theorem AddReward.sound {ctx : AddReward} {d : I64} (hw : w.Sound env.rt)
    (h : ctx.handler env w d = .ok w') : w'.Sound env.rt := by
  obtain ⟨-, -, P, P', bump, _, hP, -, -, hfound, hvacant, hadd, -, rfl⟩ :=
    AddReward.handler_eq_ok_iff.mp h
  obtain ⟨-, -, htoken, -⟩ := World.vacant_iff.mp hvacant
  have hkept : TokensKept env.rt w.tokens (Function.update w.tokens ctx.rewardVault
      (some (.opened ctx.rewardMint ctx.pool))) := TokensKept.of_update htoken _
  obtain ⟨hnew, idx, count, hidx, -, rfl⟩ := addReward_eq_ok_iff.mp hadd
  -- an empty slot has mint zero, so zero is no new mint
  have hmint : ctx.rewardMint ≠ 0 := by
    intro hzero
    have hempty : (P.rewards idx).mint = 0 := not_not.mp (freeSlot_some hidx)
    exact findSlot_none hnew idx (hempty.trans hzero.symm)
  have hplaced := (hw.pool hP).kept hkept
  refine World.Sound.putLamports ⟨?_, ?_, ?_, ?_⟩ _
  · intro q Q hQ
    by_cases hq : q = ctx.pool
    · subst hq
      simp only [World.putPool, World.putToken, Function.update_self, Option.some.injEq] at hQ
      subst hQ
      -- the new slot is at the address of its mint, the others as they were
      refine ⟨hplaced.found, hplaced.vault_found, hplaced.vault_held, ?_, ?_,
        hplaced.vault_alone, ?_⟩
      · intro i hi
        by_cases hidx' : i = idx
        · subst hidx'
          simpa [Pool.setReward] using ⟨bump, hfound⟩
        · have hi' : P.Registered i := by simpa [Pool.Registered, Pool.setReward, hidx'] using hi
          simpa [Pool.setReward, hidx'] using hplaced.reward_found i hi'
      · intro i hi
        by_cases hidx' : i = idx
        · subst hidx'
          refine ⟨.opened ctx.rewardMint ctx.pool, ?_, rfl, ?_⟩
          · simp [Pool.setReward, World.putToken, World.putPool]
          · simp [Pool.setReward, Holding.opened]
        · have hi' : P.Registered i := by simpa [Pool.Registered, Pool.setReward, hidx'] using hi
          simpa [Pool.setReward, hidx', World.putToken, World.putPool] using
            hplaced.reward_held i hi'
      · intro i hi
        by_cases hidx' : i = idx
        · subst hidx'
          simp only [Pool.setReward, Function.update_self]
          exact Undelegated.opened
        · have hi' : P.Registered i := by simpa [Pool.Registered, Pool.setReward, hidx'] using hi
          simpa [Pool.setReward, hidx', World.putToken, World.putPool] using
            hplaced.reward_alone i hi'
    · simp only [World.putPool, World.putToken, Function.update_of_ne hq] at hQ
      exact (hw.pool hQ).kept hkept
  · intro k a hk
    obtain ⟨hstaker, Q, hQ⟩ := hw.staker hk
    refine ⟨hstaker, ?_⟩
    by_cases hq : a.pool = ctx.pool
    · rw [hq]
      exact ⟨_, Function.update_self _ _ _⟩
    · exact ⟨Q, by simpa [World.putPool, World.putToken, hq] using hQ⟩
  · intro q Q hQ
    by_cases hq : q = ctx.pool
    · subst hq
      simp only [World.putPool, World.putToken, Function.update_self, Option.some.injEq] at hQ
      subst hQ
      intro i hi
      obtain ⟨hne, hi'⟩ := Pool.empty_of_setReward (P := P) hmint hi
      simpa [Pool.setReward, hne] using hw.empty hP i hi'
    · simp only [World.putPool, World.putToken, Function.update_of_ne hq] at hQ
      exact hw.empty hQ
  · intro k a Q hk hQ
    by_cases hq : a.pool = ctx.pool
    · simp only [World.putPool, World.putToken, hq, Function.update_self,
        Option.some.injEq] at hQ
      subst hQ
      intro i hi
      exact hw.blank hk (by rw [hq, hP]) i (Pool.empty_of_setReward (P := P) hmint hi).2
    · simp only [World.putPool, World.putToken, Function.update_of_ne hq] at hQ
      exact hw.blank hk hQ

theorem AdminOnly.sound {ctx : AdminOnly} {logic : Pool → Result Pool} (hw : w.Sound env.rt)
    (hlogic : ∀ P P', logic P = .ok P' → P.Keeps P')
    (h : ctx.run env w logic = .ok w') : w'.Sound env.rt := by
  obtain ⟨-, P, P', hP, -, -, hP', rfl⟩ := AdminOnly.run_eq_ok_iff.mp h
  have hkept : TokensKept env.rt w.tokens w.tokens := fun _ hx => ⟨⟨_, hx, rfl, rfl⟩, id⟩
  exact hw.putPool hP (hlogic P P' hP') hkept

theorem World.Sound.handle (hw : w.Sound env.rt)
    (hsign : ∀ key ∈ env.signers, env.rt.signable key = true) {ix : Instruction}
    (h : ix.handle env w = .ok w') : w'.Sound env.rt := by
  cases ix with
  | initializePool ctx d keeper => exact InitializePool.sound hw h
  | addReward ctx d => exact AddReward.sound hw h
  | setRewardActive ctx slot active =>
      exact AdminOnly.sound hw (fun _ _ => setRewardActive_keeps) h
  | setDuration ctx slot d => exact AdminOnly.sound hw (fun _ _ => setDuration_keeps) h
  | setPaused ctx paused =>
      refine AdminOnly.sound hw ?_ h
      intro P P' hP'
      cases hP'
      exact ⟨rfl, fun _ _ => rfl⟩
  | setKeeperAuthority ctx keeper =>
      refine AdminOnly.sound hw ?_ h
      intro P P' hP'
      cases hP'
      exact ⟨rfl, fun _ _ => rfl⟩
  | setAdmin ctx newAdmin =>
      refine AdminOnly.sound hw ?_ h
      intro P P' hP'
      cases hP'
      exact ⟨rfl, fun _ _ => rfl⟩
  | stake ctx amount =>
      obtain ⟨P, a, bump, P', a', tokens, _, hloads, -, hstake, htransfer, rfl⟩ :=
        Stake.handler_eq_ok_iff.mp h
      obtain ⟨hkeeps, hidentity⟩ := stake_keeps hstake
      obtain ⟨hplaced, hpool, -⟩ := hloads.placed hw hsign
      obtain ⟨hplaced', hpool'⟩ := hplaced.congr hidentity
      have hkept : TokensKept env.rt w.tokens tokens := TokensKept.of_transfer htransfer
      refine World.Sound.putLamports ?_ _
      refine (hw.putPool hloads.pool hkeeps hkept).putStaker (P := P') hplaced' ?_
        ((hloads.confines hw).stake hstake)
      rw [hpool', hpool]
      exact Function.update_self _ _ _
  | unstake ctx amount =>
      obtain ⟨P, a, P', a', tokens, hloads, hunstake, htransfer, rfl⟩ :=
        Unstake.handler_eq_ok_iff.mp h
      obtain ⟨hkeeps, hidentity⟩ := unstake_keeps hunstake
      have hpool := (hw.staker_pool hloads.staker hloads.derived_staker).1
      have hconf := hw.blank hloads.staker (by rw [hpool, hloads.pool])
      exact hw.putBoth hloads.pool hkeeps hloads.staker hidentity hpool (hconf.unstake hunstake)
        (TokensKept.of_transfer htransfer)
  | emergencyWithdraw ctx =>
      obtain ⟨P, a, P', a', tokens, hloads, -, hexit, htransfer, rfl⟩ :=
        EmergencyWithdraw.handler_eq_ok_iff.mp h
      obtain ⟨hkeeps, hidentity⟩ := emergencyWithdraw_keeps hexit
      have hpool := (hw.staker_pool hloads.staker hloads.derived_staker).1
      exact hw.putBoth hloads.pool hkeeps hloads.staker hidentity hpool
        (emergencyWithdraw_confines hexit) (TokensKept.of_transfer htransfer)
  | depositRewards ctx amount =>
      obtain ⟨P, vault, tokens, _, received, P', hloads, -, htransfer, -, -, hdeposit, rfl⟩ :=
        DepositRewards.handler_eq_ok_iff.mp h
      exact hw.putPool hloads.pool (depositRewards_keeps (hw.empty hloads.pool) hdeposit)
        (TokensKept.of_transfer htransfer)
  | claim ctx =>
      obtain ⟨P, a, P', a₁, a', tokens, hloads, hset, -, hloop, rfl⟩ :=
        Claim.handler_eq_ok_iff.mp h
      obtain ⟨hp, he⟩ := claimSettleAll_eq_ok_iff.mp hset
      obtain ⟨hconf, hvaults⟩ := hloads.paidFrom hw hset
      obtain ⟨hidentity, hmoves⟩ := Claim.loop_moves hvaults hloop
      exact hw.putBoth hloads.pool (settleSlots_keeps hp) hloads.staker
        (hidentity.trans (settleEntries_identity he))
        (hw.staker_pool hloads.staker hloads.derived_staker).1 (Claim.loop_confines hconf hloop)
        (TokensKept.of_moves hmoves (Claim.loop_undelegated hloop))

theorem World.step_eq_ok_iff {tx : Tx} : w.step rt tx = .ok w' ↔
    w.clock.val ≤ tx.now.val ∧ (∀ key ∈ tx.signers, rt.signable key = true) ∧
      ∃ t, tx.instruction.handle (tx.env rt) w = .ok t ∧ w' = { t with clock := tx.now } := by
  simp only [World.step, bind_eq_ok_iff, ensure_eq_ok_iff, pure_eq_ok_iff, List.all_eq_true]
  constructor
  · rintro ⟨-, hclock, -, hsign, t, ht, rfl⟩
    exact ⟨hclock, hsign, t, ht, rfl⟩
  · rintro ⟨hclock, hsign, t, ht, rfl⟩
    exact ⟨(), hclock, (), hsign, t, ht, rfl⟩

theorem World.Sound.step {e : Event} (hw : w.Sound rt) (h : w.Step rt e w') : w'.Sound rt := by
  cases h with
  | @tx tx _ h =>
      obtain ⟨-, hsign, t, ht, rfl⟩ := World.step_eq_ok_iff.mp h
      have hw : w.Sound (tx.env rt).rt := hw
      have hsound := hw.handle hsign ht
      exact ⟨hsound.pool, hsound.staker, hsound.empty, hsound.blank⟩
  | outside h =>
      refine ⟨?_, ?_, ?_, ?_⟩
      · intro p P hP
        rw [h.pools_eq] at hP
        refine (hw.pool hP).kept ?_
        intro _ _ _ x hcreate hx
        obtain ⟨x', hx', howner, hmint, hdelegate, -⟩ := h.holding_kept hcreate hx
        refine ⟨⟨x', hx', howner, hmint⟩, ?_⟩
        intro halone z hz
        rw [← Option.some.inj (hx'.symm.trans hz), hdelegate]
        exact halone x hx
      · rw [h.pools_eq, h.stakers_eq]
        exact hw.staker
      · rw [h.pools_eq]
        exact hw.empty
      · rw [h.pools_eq, h.stakers_eq]
        exact hw.blank

theorem World.Reachable.sound (hw : w.Reachable rt) : w.Sound rt := by
  refine hw.invariant ?_ fun w e w' hw h => hw.step h
  intro w h
  refine ⟨?_, ?_, ?_, ?_⟩
  · intro p P hP
    rw [h.pools_none] at hP
    cases hP
  · intro k a hk
    rw [h.stakers_none] at hk
    cases hk
  · intro p P hP
    rw [h.pools_none] at hP
    cases hP
  · intro k a P hk
    rw [h.stakers_none] at hk
    cases hk

end Sound
end MmStaking
