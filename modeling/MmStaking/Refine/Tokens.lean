import MmStaking.Lib.Custody
import MmStaking.Refine.Claims
import MmStaking.Refine.Handlers

/-! The token accounts as accounts in custody: a transfer of the token program is a move,
and the loop of the claim handler moves from the vaults of the pool to accounts of the
claimer just what it takes from the slots. -/
namespace MmStaking
open Words Loops Custody

def Holding.account (a : Holding) : Account Pubkey Pubkey :=
  { owner := a.owner, kind := a.mint, amount := a.amount.val }

def custody (tokens : Tokens) : Accounts Pubkey Pubkey Pubkey :=
  fun key => (tokens key).map Holding.account

section Transfer
variable {token : TokenProgram} {tokens tokens' : Tokens}
  {source dest authority key : Pubkey} {amount : U64} {x y : Holding}

theorem custody_eq_some (h : tokens key = some x) : custody tokens key = some x.account := by
  rw [custody, h]
  rfl

theorem custody_update (a : Holding) : custody (Function.update tokens key (some a)) =
    Function.update (custody tokens) key (some a.account) := by
  funext k
  by_cases hk : k = key
  · subst hk
    simp [custody]
  · simp [custody, hk]

theorem Holding.lets_iff (howner : x.owner = authority) : x.Lets authority amount ↔
    (x.delegate = some authority → amount.val ≤ x.delegatedAmount.val) := by
  unfold Holding.Lets
  split
  · rename_i hdelegate
    exact ⟨fun hle _ => hle, fun h => h hdelegate⟩
  · rename_i hdelegate
    exact ⟨fun _ h => absurd h hdelegate, fun _ => howner⟩

theorem Holding.lets_of_undelegated (howner : x.owner = authority) (hnone : x.delegate = none) :
    x.Lets authority amount := by
  rw [Holding.lets_iff howner, hnone]
  intro hsome
  cases hsome

/-- A transfer to itself changes nothing. -/
theorem transfer_self (h : token.transfer tokens key key authority amount = .ok tokens') :
    tokens' = tokens := by
  obtain ⟨_, _, -, -, -, -, -, -, heffect⟩ := token.transfer_ok h
  rwa [if_pos rfl] at heffect

/-- Any other rewrites its two accounts. -/
theorem transfer_apart
    (h : token.transfer tokens source dest authority amount = .ok tokens') (hne : source ≠ dest) :
    ∃ x y left, ∃ grown : U64, tokens source = some x ∧ tokens dest = some y ∧
      x.Sends authority amount left ∧ grown.val = y.amount.val + amount.val ∧
      tokens' = Function.update (Function.update tokens source (some left)) dest
        (some { y with amount := grown }) := by
  obtain ⟨x, y, hx, hy, -, -, -, -, heffect⟩ := token.transfer_ok h
  rw [if_neg hne] at heffect
  obtain ⟨left, grown, hleft, hgrown, htokens⟩ := heffect
  exact ⟨x, y, left, grown, hx, hy, hleft, hgrown, htokens⟩

theorem transfer_moved
    (h : token.transfer tokens source dest authority amount = .ok tokens')
    (hx : tokens source = some x) (hy : tokens dest = some y) (hne : source ≠ dest) :
    x.mint = y.mint ∧ amount.val ≤ x.amount.val ∧
      custody tokens' = moved (custody tokens) source dest x.account y.account amount.val := by
  obtain ⟨x', y', hx', hy', -, hle, hmint, -⟩ := token.transfer_ok h
  obtain rfl : x = x' := Option.some.inj (hx.symm.trans hx')
  obtain rfl : y = y' := Option.some.inj (hy.symm.trans hy')
  refine ⟨hmint, hle, ?_⟩
  obtain ⟨x', y', left, grown, hx', hy', hleft, hgrown, rfl⟩ := transfer_apart h hne
  obtain rfl : x = x' := Option.some.inj (hx.symm.trans hx')
  obtain rfl : y = y' := Option.some.inj (hy.symm.trans hy')
  simp only [custody_update, moved, Holding.account, Account.take, Account.add, hleft.owner_eq,
    hleft.mint_eq, hleft.amount_eq, hgrown]

theorem transfer_isOk (hx : tokens source = some x) (hy : tokens dest = some y)
    (hfrozen : x.frozen = false ∧ y.frozen = false)
    (hle : amount.val ≤ x.amount.val) (hmint : x.mint = y.mint) (hlets : x.Lets authority amount)
    (hsingle : token.multisig authority = false) (hroom : y.amount.val + amount.val < 2 ^ 64) :
    ∃ tokens', token.transfer tokens source dest authority amount = .ok tokens' :=
  token.transfer_goes hx hy hfrozen hle hmint hlets hsingle (.inr hroom)

/-- What it takes to move the amount out of an account of one's own. -/
structure TokenProgram.Accepts (token : TokenProgram) (x y : Holding) (authority : Pubkey)
    (amount : U64) : Prop where
  enough : amount.val ≤ x.amount.val
  delegated : x.delegate = some authority → amount.val ≤ x.delegatedAmount.val
  single : token.multisig authority = false
  thawed : x.frozen = false ∧ y.frozen = false
  room : y.amount.val + amount.val < 2 ^ 64

theorem transfer_isOk_iff (hx : tokens source = some x) (hy : tokens dest = some y)
    (hne : source ≠ dest) (hmint : x.mint = y.mint) (howner : x.owner = authority) :
    (∃ tokens', token.transfer tokens source dest authority amount = .ok tokens') ↔
      token.Accepts x y authority amount := by
  constructor
  · intro htransfer
    obtain ⟨tokens', h⟩ := htransfer
    obtain ⟨x', y', hx', hy', hfrozen, hle, -, ⟨hlets, hsingle⟩, heffect⟩ := token.transfer_ok h
    obtain rfl : x = x' := Option.some.inj (hx.symm.trans hx')
    obtain rfl : y = y' := Option.some.inj (hy.symm.trans hy')
    rw [if_neg hne] at heffect
    obtain ⟨_, grown, -, hgrown, -⟩ := heffect
    exact ⟨hle, (Holding.lets_iff howner).mp hlets, hsingle, hfrozen, hgrown ▸ grown.isLt⟩
  · intro h
    exact transfer_isOk hx hy h.thawed h.enough hmint ((Holding.lets_iff howner).mpr h.delegated)
      h.single h.room

theorem transfer_dest
    (h : token.transfer tokens source dest authority amount = .ok tokens')
    (hy : tokens dest = some y) (hne : source ≠ dest) :
    ∃ grown : U64, tokens' dest = some { y with amount := grown } ∧
      grown.val = y.amount.val + amount.val := by
  obtain ⟨_, y', _, grown, -, hy', -, hgrown, rfl⟩ := transfer_apart h hne
  obtain rfl : y = y' := Option.some.inj (hy.symm.trans hy')
  exact ⟨grown, Function.update_self _ _ _, hgrown⟩

theorem transfer_dest_le {y' : Holding}
    (h : token.transfer tokens source dest authority amount = .ok tokens')
    (hy : tokens dest = some y) (hy' : tokens' dest = some y') : y.amount.val ≤ y'.amount.val := by
  by_cases hne : source = dest
  · subst hne
    rw [transfer_self h, hy, Option.some.injEq] at hy'
    rw [hy']
  · obtain ⟨grown, hdest, hgrown⟩ := transfer_dest h hy hne
    obtain rfl := Option.some.inj (hdest.symm.trans hy')
    rw [hgrown]
    exact Nat.le_add_right _ _

theorem transfer_other
    (h : token.transfer tokens source dest authority amount = .ok tokens') (hs : key ≠ source)
    (hd : key ≠ dest) : tokens' key = tokens key := by
  by_cases hne : source = dest
  · subst hne
    rw [transfer_self h]
  · obtain ⟨_, _, _, _, -, -, -, -, rfl⟩ := transfer_apart h hne
    rw [Function.update_of_ne hd, Function.update_of_ne hs]

theorem transfer_frozen
    (h : token.transfer tokens source dest authority amount = .ok tokens') (key : Pubkey) :
    (tokens' key).map Holding.frozen = (tokens key).map Holding.frozen := by
  by_cases hne : source = dest
  · subst hne
    rw [transfer_self h]
  · obtain ⟨x, y, left, grown, hx, hy, hleft, -, rfl⟩ := transfer_apart h hne
    by_cases hdest : key = dest
    · rw [hdest, Function.update_self, hy]
      rfl
    · rw [Function.update_of_ne hdest]
      by_cases hsource : key = source
      · rw [hsource, Function.update_self, hx]
        exact congrArg some hleft.frozen_eq
      · rw [Function.update_of_ne hsource]

/-- An account under the key, if there is one, has no delegate. -/
def Undelegated (tokens : Tokens) (key : Pubkey) : Prop :=
  ∀ x, tokens key = some x → x.delegate = none

theorem Undelegated.opened {mint owner : Pubkey} :
    Undelegated (Function.update tokens key (some (.opened mint owner))) key := by
  intro x hx
  rw [Function.update_self, Option.some.injEq] at hx
  rw [← hx]
  rfl

theorem transfer_undelegated
    (h : token.transfer tokens source dest authority amount = .ok tokens')
    (hnone : Undelegated tokens key) : Undelegated tokens' key := by
  by_cases hne : source = dest
  · subst hne
    rwa [transfer_self h]
  · obtain ⟨x, y, left, grown, hx, hy, hleft, -, rfl⟩ := transfer_apart h hne
    intro z hz
    by_cases hdest : key = dest
    · rw [hdest, Function.update_self, Option.some.injEq] at hz
      rw [← hz]
      exact hnone y (hdest ▸ hy)
    · rw [Function.update_of_ne hdest] at hz
      by_cases hsource : key = source
      · rw [hsource, Function.update_self, Option.some.injEq] at hz
        have hbefore := hnone x (hsource ▸ hx)
        rw [← hz, (hleft.delegate_eq (by simp [hbefore])).1, hbefore]
      · rw [Function.update_of_ne hsource] at hz
        exact hnone z hz

theorem transfer_moves
    (h : token.transfer tokens source dest authority amount = .ok tokens')
    (hx : tokens source = some x) (hy : tokens dest = some y) :
    Moves {x.owner} {y.owner} (custody tokens) (custody tokens') := by
  by_cases hne : source = dest
  · subst hne
    rw [transfer_self h]
    exact .refl
  · obtain ⟨hmint, hle, hmoved⟩ := transfer_moved h hx hy hne
    rw [hmoved]
    exact Moves.refl.move (custody_eq_some hx) (custody_eq_some hy) hne rfl rfl hmint hle

theorem balance_eq (h : tokens key = some x) : balance (custody tokens) key = x.amount.val := by
  simp [balance, custody, h, Holding.account]

theorem balance_congr (h : tokens' key = tokens key) :
    balance (custody tokens') key = balance (custody tokens) key := by
  rw [balance, balance, custody, custody, h]

theorem balance_moved {m : Accounts Pubkey Pubkey Pubkey} {a b : Pubkey}
    {x y : Account Pubkey Pubkey} {n : ℕ} (hab : a ≠ b) (hx : m a = some x) (hy : m b = some y)
    (hn : n ≤ x.amount) (k : Pubkey) : (balance (moved m a b x y n) k : ℤ) =
      balance m k - (if k = a then (n : ℤ) else 0) + if k = b then (n : ℤ) else 0 := by
  by_cases hb : k = b
  · subst hb
    simp [balance, moved_dest, hy, hab.symm, Account.add]
  · by_cases ha : k = a
    · subst ha
      simp [balance, moved_source hab, hx, hb, Account.take, Nat.cast_sub hn]
    · simp [balance, moved_other ha hb, ha, hb]

end Transfer

section Claim
variable {env : Env} {ctx : Claim} {stakeMint : Pubkey} {bump : U8} {P : Pool}
  {a a' : StakerAccount} {tokens tokens' : Tokens}

/-- One turn takes the slot of the key, and transfers what it takes, if anything, to an
account of the claimer. -/
theorem Claim.turn_eq_ok_iff {vaultAi userAi : Pubkey} :
    ctx.turn env stakeMint bump P (a, tokens) (vaultAi, userAi) = .ok (a', tokens') ↔
      ∃ i, findVault P vaultAi = some i ∧ a' = a.takeAll (fun j => i = j) ∧
        if (a.entries i).rewardsAccrued.val = 0 then tokens' = tokens
        else ∃ x y, tokens vaultAi = some x ∧ tokens userAi = some y ∧ y.owner = ctx.owner ∧
          y.mint = x.mint ∧ env.rt.create (.pool stakeMint) bump = some ctx.pool ∧
          env.rt.transfer tokens vaultAi userAi ctx.pool (a.entries i).rewardsAccrued =
            .ok tokens' := by
  simp only [Claim.turn, bind_eq_ok_iff, ofLogic_eq_ok_iff, claimTakeSlot_eq_ok_iff]
  constructor
  · rintro ⟨_, ⟨i, hi, rfl⟩, h⟩
    refine ⟨i, hi, ?_⟩
    dsimp only at h
    split at h
    · rename_i hz
      rw [pure_eq_ok_iff, Prod.mk.injEq] at h
      rw [if_pos hz]
      exact ⟨h.1.symm, h.2.symm⟩
    · rename_i hz
      simp only [bind_eq_ok_iff, ofLogic_eq_ok_iff, require_eq_ok_iff, loaded_eq_ok_iff,
        transferSigned_eq_ok_iff, pure_eq_ok_iff, Prod.mk.injEq] at h
      obtain ⟨-, -, x, hx, y, hy, -, howner, -, hmint, tokens₁, ⟨hcreate, htransfer⟩, rfl, rfl⟩ := h
      rw [if_neg hz]
      exact ⟨rfl, x, y, hx, hy, howner, hmint, hcreate, htransfer⟩
  · rintro ⟨i, hi, rfl, h⟩
    refine ⟨_, ⟨i, hi, rfl⟩, ?_⟩
    dsimp only
    split at h
    · rename_i hz
      rw [if_pos hz, pure_eq_ok_iff, h]
    · rename_i hz
      obtain ⟨x, y, hx, hy, howner, hmint, hcreate, htransfer⟩ := h
      have hkey : vaultAi = (P.rewards i).vault := (findVault_eq_some_iff.mp hi).1.symm
      rw [if_neg hz]
      simp only [bind_eq_ok_iff, ofLogic_eq_ok_iff, require_eq_ok_iff, loaded_eq_ok_iff,
        transferSigned_eq_ok_iff, pure_eq_ok_iff]
      exact ⟨(), hkey, x, hx, y, hy, (), howner, (), hmint, tokens', ⟨hcreate, htransfer⟩, rfl⟩

/-- Where something has accrued, there is a vault of the slot's mint at `p` to pay it from. -/
def StakerAccount.PaidFrom (a : StakerAccount) (P : Pool) (p : Pubkey) (tokens : Tokens) : Prop :=
  ∀ i, (a.entries i).rewardsAccrued.val ≠ 0 → ∃ x, tokens (P.rewards i).vault = some x ∧
    x.owner = p ∧ x.mint = (P.rewards i).mint

theorem StakerAccount.PaidFrom.moves {p : Pubkey} {A B : Set Pubkey} (h : a.PaidFrom P p tokens)
    (hmoves : Moves A B (custody tokens) (custody tokens')) (taken : Slot → Bool) :
    (a.takeAll taken).PaidFrom P p tokens' := by
  intro i hi
  have hi : (a.entries i).rewardsAccrued.val ≠ 0 := by
    intro hzero
    refine hi ?_
    simp only [StakerAccount.takeAll]
    split
    · rfl
    · exact hzero
  obtain ⟨x, hx, howner, hmint⟩ := h i hi
  obtain ⟨z, hz, hzo, hkind, -⟩ := hmoves.account (custody_eq_some hx)
  simp only [custody, Option.map_eq_some_iff] at hz
  obtain ⟨x', hx', rfl⟩ := hz
  exact ⟨x', hx', hzo.trans howner, hkind.trans hmint⟩

theorem Claim.turn_moves {pair : Pubkey × Pubkey} (hvaults : a.PaidFrom P ctx.pool tokens)
    (h : ctx.turn env stakeMint bump P (a, tokens) pair = .ok (a', tokens')) :
    Moves {ctx.pool} {ctx.owner} (custody tokens) (custody tokens') := by
  obtain ⟨vaultAi, userAi⟩ := pair
  obtain ⟨i, hi, -, heffect⟩ := Claim.turn_eq_ok_iff.mp h
  split at heffect
  · rw [heffect]
    exact .refl
  · rename_i hne
    obtain ⟨x, y, hx, hy, howner, -, -, htransfer⟩ := heffect
    have hkey : (P.rewards i).vault = vaultAi := (findVault_eq_some_iff.mp hi).1
    obtain ⟨x', hx', hpool, -⟩ := hvaults i hne
    rw [hkey] at hx'
    obtain rfl : x = x' := Option.some.inj (hx.symm.trans hx')
    have hmoves := transfer_moves htransfer hx hy
    rwa [hpool, howner] at hmoves

theorem Claim.loop_moves {pairs : List (Pubkey × Pubkey)} (hvaults : a.PaidFrom P ctx.pool tokens)
    (h : pairs.foldlM (ctx.turn env stakeMint bump P) (a, tokens) = .ok (a', tokens')) :
    a'.identity = a.identity ∧ Moves {ctx.pool} {ctx.owner} (custody tokens) (custody tokens') := by
  suffices hall : (a'.identity = a.identity ∧ Moves {ctx.pool} {ctx.owner} (custody tokens)
      (custody tokens')) ∧ a'.PaidFrom P ctx.pool tokens' from hall.1
  refine foldlM_invariant (I := fun state : StakerAccount × Tokens =>
    (state.1.identity = a.identity ∧
      Moves {ctx.pool} {ctx.owner} (custody tokens) (custody state.2)) ∧
        state.1.PaidFrom P ctx.pool state.2) ⟨⟨rfl, .refl⟩, hvaults⟩ ?_ h
  rintro ⟨b, tokens₁⟩ ⟨vaultAi, userAi⟩ ⟨b', tokens₂⟩ ⟨⟨hid, hmoves⟩, hvaults⟩ hturn
  have hmoved := Claim.turn_moves hvaults hturn
  obtain ⟨i, -, rfl, -⟩ := Claim.turn_eq_ok_iff.mp hturn
  exact ⟨⟨hid, hmoves.trans hmoved⟩, hvaults.moves hmoved _⟩

theorem Claim.loop_frozen {pairs : List (Pubkey × Pubkey)}
    (h : pairs.foldlM (ctx.turn env stakeMint bump P) (a, tokens) = .ok (a', tokens'))
    (key : Pubkey) : (tokens' key).map Holding.frozen = (tokens key).map Holding.frozen := by
  refine foldlM_invariant (I := fun state : StakerAccount × Tokens =>
    (state.2 key).map Holding.frozen = (tokens key).map Holding.frozen) rfl ?_ h
  rintro ⟨b, tokens₁⟩ ⟨vaultAi, userAi⟩ ⟨b', tokens₂⟩ hsame hturn
  obtain ⟨i, -, -, heffect⟩ := Claim.turn_eq_ok_iff.mp hturn
  dsimp only at hsame ⊢
  split at heffect
  · rw [heffect, hsame]
  · obtain ⟨x, y, -, -, -, -, -, htransfer⟩ := heffect
    rw [transfer_frozen htransfer, hsame]

theorem Claim.loop_undelegated {pairs : List (Pubkey × Pubkey)} {key : Pubkey}
    (h : pairs.foldlM (ctx.turn env stakeMint bump P) (a, tokens) = .ok (a', tokens'))
    (hnone : Undelegated tokens key) : Undelegated tokens' key := by
  refine foldlM_invariant (I := fun state : StakerAccount × Tokens => Undelegated state.2 key)
    hnone ?_ h
  rintro ⟨b, tokens₁⟩ ⟨vaultAi, userAi⟩ ⟨b', tokens₂⟩ hbefore hturn
  obtain ⟨i, -, -, heffect⟩ := Claim.turn_eq_ok_iff.mp hturn
  split at heffect
  · rwa [heffect]
  · obtain ⟨x, y, -, -, -, -, -, htransfer⟩ := heffect
    exact transfer_undelegated htransfer hbefore

theorem Claim.turn_vault {vaultAi userAi : Pubkey} (hne : ctx.owner ≠ ctx.pool)
    (hvaults : a.PaidFrom P ctx.pool tokens)
    (h : ctx.turn env stakeMint bump P (a, tokens) (vaultAi, userAi) = .ok (a', tokens'))
    {i : Slot} (hi : findVault P vaultAi = some i) {key : Pubkey} {z : Holding}
    (hz : tokens key = some z) (hpool : z.owner = ctx.pool) :
    (balance (custody tokens') key : ℤ) = balance (custody tokens) key -
      if (P.rewards i).vault = key then ((a.entries i).rewardsAccrued.val : ℤ) else 0 := by
  obtain ⟨i', hi', -, heffect⟩ := Claim.turn_eq_ok_iff.mp h
  obtain rfl : i = i' := Option.some.inj (hi.symm.trans hi')
  have hkey : (P.rewards i).vault = vaultAi := (findVault_eq_some_iff.mp hi).1
  split at heffect
  · rename_i hzero
    rw [heffect, hzero]
    simp
  · rename_i hnonzero
    obtain ⟨x, y, hx, hy, howner, -, -, htransfer⟩ := heffect
    -- the claimer's account is none of the pool's
    have hother : key ≠ userAi := by
      rintro rfl
      rw [hy, Option.some.injEq] at hz
      rw [← howner, hz] at hne
      exact hne hpool
    obtain ⟨x', hx', hxo, -⟩ := hvaults i hnonzero
    rw [hkey] at hx'
    obtain rfl : x = x' := Option.some.inj (hx.symm.trans hx')
    have hdist : vaultAi ≠ userAi := by
      rintro rfl
      rw [hy, Option.some.injEq] at hx
      rw [← howner, hx] at hne
      exact hne hxo
    obtain ⟨-, hle, hmoved⟩ := transfer_moved htransfer hx hy hdist
    rw [hmoved, balance_moved hdist (custody_eq_some hx) (custody_eq_some hy) hle, if_neg hother,
      add_zero, hkey]
    simp only [eq_comm]

/-- The loop takes from the slots what the logic alone would take, and every account the pool
holds pays what is taken from the slots it is the vault of. -/
theorem Claim.loop_ok {pairs : List (Pubkey × Pubkey)} (hne : ctx.owner ≠ ctx.pool)
    (hvaults : a.PaidFrom P ctx.pool tokens)
    (h : pairs.foldlM (ctx.turn env stakeMint bump P) (a, tokens) = .ok (a', tokens')) :
    ∃ paid, claimTakeAll P a (pairs.map Prod.fst) = .ok (a', paid) ∧
      ∀ key z, tokens key = some z → z.owner = ctx.pool →
        (balance (custody tokens') key : ℤ) = balance (custody tokens) key -
          (paid.map fun e => if (P.rewards e.1).vault = key then (e.2.val : ℤ) else 0).sum := by
  induction pairs generalizing a tokens with
  | nil =>
      rw [List.foldlM_nil, pure_eq_ok_iff, Prod.mk.injEq] at h
      obtain ⟨rfl, rfl⟩ := h
      exact ⟨[], rfl, fun key z _ _ => by simp⟩
  | cons pair pairs ih =>
      obtain ⟨vaultAi, userAi⟩ := pair
      rw [List.foldlM_cons, bind_eq_ok_iff] at h
      obtain ⟨⟨a₁, tokens₁⟩, hturn, hrest⟩ := h
      have hmoves := Claim.turn_moves hvaults hturn
      obtain ⟨i, hi, rfl, heffect⟩ := Claim.turn_eq_ok_iff.mp hturn
      obtain ⟨paid, htake, hvault⟩ := ih (hvaults.moves hmoves _) hrest
      refine ⟨(i, (a.entries i).rewardsAccrued) :: paid, ?_, ?_⟩
      · simp only [List.map_cons, claimTakeAll, bind_eq_ok_iff, pure_eq_ok_iff]
        exact ⟨_, claimTakeSlot_eq_ok_iff.mpr ⟨i, hi, rfl⟩, _, htake, rfl⟩
      · intro key z hz hpool
        obtain ⟨x, hx, howner, -⟩ := hmoves.account (custody_eq_some hz)
        simp only [custody, Option.map_eq_some_iff] at hx
        obtain ⟨x', hx', rfl⟩ := hx
        rw [hvault key x' hx' (howner.trans hpool), Claim.turn_vault hne hvaults hturn hi hz hpool,
          List.map_cons, List.sum_cons]
        ring

theorem claimTakeAll_paid {vaultKeys : List Pubkey} {paid : List (Slot × U64)}
    (h : claimTakeAll P a vaultKeys = .ok (a', paid)) :
    ∀ e ∈ paid, e.2.val ≠ 0 → (a.entries e.1).rewardsAccrued.val ≠ 0 := by
  induction vaultKeys generalizing a paid with
  | nil =>
      simp only [claimTakeAll, Except.ok.injEq, Prod.mk.injEq] at h
      rw [← h.2]
      simp
  | cons vaultKey rest ih =>
      simp only [claimTakeAll, bind_eq_ok_iff, pure_eq_ok_iff, claimTakeSlot_eq_ok_iff] at h
      obtain ⟨_, ⟨i, -, rfl⟩, ⟨a₂, paid₂⟩, hrest, hpair⟩ := h
      cases hpair
      intro e he hne
      rcases List.mem_cons.mp he with rfl | he
      · exact hne
      · -- a slot taken before is empty
        intro hz
        refine ih hrest e he hne ?_
        simp only [StakerAccount.takeAll]
        split
        · rfl
        · exact hz

end Claim
end MmStaking
