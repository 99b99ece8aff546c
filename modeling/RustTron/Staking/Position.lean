import RustTron.Staking.Actuators

/-!
# Positions

What an account holds and has staked, apart from everything that votes, rewards and usage do to
it. An operation of staking is described by what it does to the positions of the accounts it
saves.

## Main definitions

* `Position`, `Account.position`: the balance and the stakes of an account
* `Position.own`, `Position.staked`, `Position.weight`: what counts for the weight of a resource
* `Position.funds`: everything an account owns, liquid or staked
* `totalWeight`, `SetsWeight`: the total weight of a resource, and a move of it
* `Revotes`, `Follow`: an account keeps its votes, or a change of them is recorded

## Main results

* `stakedIn_addFrozenV2Items`, `sum_addFrozenV2Items`: the stake after `add_frozen_v2`
* `follow_recordVotes` and its siblings: a change of votes is followed
-/

namespace RustTron

open Actuator

/-- The balance and the stakes of an account. -/
@[ext] structure Position where
  balance : Int
  legacy : ResourceCode → List Frozen
  frozenV2 : List FreezeV2
  unfrozenV2 : List UnFreezeV2
  lentLegacy : ResourceCode → Int
  heldLegacy : ResourceCode → Int
  lent : ResourceCode → Int
  held : ResourceCode → Int

/-- The position of an account. -/
def Account.position (a : Account) : Position where
  balance := a.balance
  legacy
    | .bandwidth => a.frozen
    | .energy => a.resource.frozenBalanceForEnergy.toList
    | .tronPower => a.tronPower.toList
  frozenV2 := a.frozenV2
  unfrozenV2 := a.unfrozenV2
  lentLegacy := delegatedLegacy a
  heldLegacy := acquiredLegacy a
  lent := delegatedV2 a
  held := acquiredV2 a

namespace Position

/-- The legacy stake of a resource in a list of entries, as the code adds it up. -/
def ownIn (kind : ResourceCode) (items : List Frozen) : Int :=
  if kind = .bandwidth then wrap (items.map Frozen.frozenBalance).sum
  else (items.map Frozen.frozenBalance).sum

/-- The legacy stake of a resource. -/
def own (p : Position) (kind : ResourceCode) : Int := ownIn kind (p.legacy kind)

/-- The stake of a resource in a list of them: the first entry. -/
def stakedIn (items : List FreezeV2) (kind : ResourceCode) : Int :=
  ((items.find? fun item => item.type = kind.toI32).map FreezeV2.amount).getD 0

/-- The stake of a resource. -/
def staked (p : Position) (kind : ResourceCode) : Int := stakedIn p.frozenV2 kind

/-- The weight of an account in the total of a resource. -/
def weight (p : Position) (kind : ResourceCode) : Int :=
  (p.own kind).tdiv trxPrecision + (p.staked kind + p.lent kind).tdiv trxPrecision

/-- Everything an account owns: liquid, staked, unstaking and lent. -/
def funds (p : Position) : Int :=
  p.balance +
    (((p.legacy .bandwidth).map Frozen.frozenBalance).sum +
      ((p.legacy .energy).map Frozen.frozenBalance).sum +
      ((p.legacy .tronPower).map Frozen.frozenBalance).sum) +
    (p.frozenV2.map FreezeV2.amount).sum + (p.unfrozenV2.map UnFreezeV2.unfreezeAmount).sum +
    (p.lentLegacy .bandwidth + p.lentLegacy .energy) + (p.lent .bandwidth + p.lent .energy)

end Position

end RustTron

namespace RustTron.Actuator

open Position

/-! ## Reading the position -/

theorem frozenV2_eq_staked (a : Account) (kind : ResourceCode) :
    frozenV2 a kind = a.position.staked kind := rfl

theorem balance_position (a : Account) : a.position.balance = a.balance := rfl

theorem position_balance (a : Account) (x : Int) :
    ({ a with balance := x } : Account).position = { a.position with balance := x } := rfl

theorem unfrozenV2_position (a : Account) : a.position.unfrozenV2 = a.unfrozenV2 := rfl

theorem position_unfrozenV2 (a : Account) (items : List UnFreezeV2) :
    ({ a with unfrozenV2 := items } : Account).position =
      { a.position with unfrozenV2 := items } := rfl

theorem position_withdrawn (a : Account) (items : List UnFreezeV2) (x : Int) :
    ({ a with unfrozenV2 := items, balance := x } : Account).position =
      { a.position with unfrozenV2 := items, balance := x } := rfl

theorem weightBalance_eq_ok_iff {a : Account} {kind : ResourceCode} {x : Int} :
    weightBalance a kind = .ok x ↔ InI64 (a.position.staked kind + a.position.lent kind) ∧
      x = a.position.staked kind + a.position.lent kind := checkedAdd_eq_ok_iff

theorem legacyResourceBalance_eq_own (a : Account) (kind : ResourceCode) :
    legacyResourceBalance a kind = a.position.own kind := by
  cases kind with
  | bandwidth => rfl
  | energy =>
    cases h : a.resource.frozenBalanceForEnergy <;>
      simp [legacyResourceBalance, own, ownIn, Account.position, h]
  | tronPower =>
    cases h : a.tronPower <;> simp [legacyResourceBalance, own, ownIn, Account.position, h]

/-! ## Writing the position -/

section Setters

variable (a : Account) {kind : ResourceCode} (value : Int)

theorem position_setDelegatedV2 (h : kind ≠ .tronPower) :
    (setDelegatedV2 a kind value).position =
      { a.position with lent := Function.update a.position.lent kind value } := by
  have hl : delegatedV2 (setDelegatedV2 a kind value) =
      Function.update (delegatedV2 a) kind value := by
    funext k
    cases kind <;> cases k <;> first | rfl | exact absurd rfl h
  cases kind <;> exact Position.ext rfl rfl rfl rfl rfl rfl hl rfl

theorem position_setAcquiredV2 (h : kind ≠ .tronPower) :
    (setAcquiredV2 a kind value).position =
      { a.position with held := Function.update a.position.held kind value } := by
  have hh : acquiredV2 (setAcquiredV2 a kind value) =
      Function.update (acquiredV2 a) kind value := by
    funext k
    cases kind <;> cases k <;> first | rfl | exact absurd rfl h
  cases kind <;> exact Position.ext rfl rfl rfl rfl rfl rfl rfl hh

theorem position_setDelegatedLegacy (h : kind ≠ .tronPower) :
    (setDelegatedLegacy a kind value).position =
      { a.position with lentLegacy := Function.update a.position.lentLegacy kind value } := by
  have hl : delegatedLegacy (setDelegatedLegacy a kind value) =
      Function.update (delegatedLegacy a) kind value := by
    funext k
    cases kind <;> cases k <;> first | rfl | exact absurd rfl h
  cases kind <;> exact Position.ext rfl rfl rfl rfl hl rfl rfl rfl

theorem position_setAcquiredLegacy (h : kind ≠ .tronPower) :
    (setAcquiredLegacy a kind value).position =
      { a.position with heldLegacy := Function.update a.position.heldLegacy kind value } := by
  have hh : acquiredLegacy (setAcquiredLegacy a kind value) =
      Function.update (acquiredLegacy a) kind value := by
    funext k
    cases kind <;> cases k <;> first | rfl | exact absurd rfl h
  cases kind <;> exact Position.ext rfl rfl rfl rfl rfl hh rfl rfl

@[simp] theorem address_setDelegatedV2 (kind : ResourceCode) :
    (setDelegatedV2 a kind value).address = a.address := by cases kind <;> rfl

@[simp] theorem address_setAcquiredV2 (kind : ResourceCode) :
    (setAcquiredV2 a kind value).address = a.address := by cases kind <;> rfl

@[simp] theorem address_setDelegatedLegacy (kind : ResourceCode) :
    (setDelegatedLegacy a kind value).address = a.address := by cases kind <;> rfl

@[simp] theorem votes_setDelegatedLegacy (kind : ResourceCode) :
    (setDelegatedLegacy a kind value).votes = a.votes := by cases kind <;> rfl

@[simp] theorem votes_setAcquiredLegacy (kind : ResourceCode) :
    (setAcquiredLegacy a kind value).votes = a.votes := by cases kind <;> rfl

@[simp] theorem address_setAcquiredLegacy (kind : ResourceCode) :
    (setAcquiredLegacy a kind value).address = a.address := by cases kind <;> rfl

end Setters

/-! ## Staking -/

/-- The stake of every resource after one of them has moved. -/
theorem stakedIn_addFrozenV2Items {kind : ResourceCode} {delta : Int} {items items' : List FreezeV2}
    (h : addFrozenV2Items kind delta items = .ok items') (k : ResourceCode) :
    stakedIn items' k = stakedIn items k + if k = kind then delta else 0 := by
  induction items generalizing items' with
  | nil =>
    simp only [addFrozenV2Items, pure_eq_ok_iff] at h
    subst h
    by_cases hk : k = kind
    · simp [stakedIn, hk]
    · have hne : kind.toI32 ≠ k.toI32 := fun h => hk (ResourceCode.toI32_injective h).symm
      simp [stakedIn, hk, hne]
  | cons item items ih =>
    simp only [addFrozenV2Items] at h
    by_cases ht : item.type = kind.toI32
    · simp only [ht, if_true, bind_eq_ok_iff, checkedAdd_eq_ok_iff, pure_eq_ok_iff] at h
      obtain ⟨_, ⟨-, rfl⟩, rfl⟩ := h
      by_cases hk : k = kind
      · simp [stakedIn, ht, hk]
      · have hne : kind.toI32 ≠ k.toI32 := fun h => hk (ResourceCode.toI32_injective h).symm
        simp [stakedIn, ht, hk, hne]
    · simp only [ht, if_false, bind_eq_ok_iff, pure_eq_ok_iff] at h
      obtain ⟨rest, hr, rfl⟩ := h
      by_cases hk : item.type = k.toI32
      · have hne : k ≠ kind := fun h => ht (h ▸ hk)
        simp [stakedIn, hk, hne]
      · have := ih hr
        simpa [stakedIn, hk] using this

/-- The stakes together after one of them has moved. -/
theorem sum_addFrozenV2Items {kind : ResourceCode} {delta : Int} {items items' : List FreezeV2}
    (h : addFrozenV2Items kind delta items = .ok items') :
    (items'.map FreezeV2.amount).sum = (items.map FreezeV2.amount).sum + delta := by
  induction items generalizing items' with
  | nil =>
    simp only [addFrozenV2Items, pure_eq_ok_iff] at h
    simp [← h]
  | cons item items ih =>
    simp only [addFrozenV2Items] at h
    split at h
    · simp only [bind_eq_ok_iff, checkedAdd_eq_ok_iff, pure_eq_ok_iff] at h
      obtain ⟨_, ⟨-, rfl⟩, rfl⟩ := h
      simp only [List.map_cons, List.sum_cons]
      omega
    · simp only [bind_eq_ok_iff, pure_eq_ok_iff] at h
      obtain ⟨rest, hr, rfl⟩ := h
      simp only [List.map_cons, List.sum_cons, ih hr]
      omega

/-- An account with another stake and the rest as it was. -/
theorem addFrozenV2_ok {a b : Account} {kind : ResourceCode} {delta : Int}
    (h : addFrozenV2 a kind delta = .ok b) :
    ∃ items, addFrozenV2Items kind delta a.position.frozenV2 = .ok items ∧
      b.position = { a.position with frozenV2 := items } ∧ b.address = a.address ∧
      b.votes = a.votes ∧ b.oldTronPower = a.oldTronPower := by
  simp only [addFrozenV2, bind_eq_ok_iff, pure_eq_ok_iff] at h
  obtain ⟨items, hi, rfl⟩ := h
  exact ⟨items, hi, rfl, rfl, rfl, rfl⟩

theorem resource_eq_ok_iff {value : Int} {kind : ResourceCode} :
    resource value = .ok kind ↔ ResourceCode.ofI32? value = some kind := by
  unfold resource
  split <;> simp_all

theorem strictResource_eq_ok_iff {value : Int} {allow : Bool} {kind : ResourceCode} :
    strictResource value allow = .ok kind ↔
      ResourceCode.ofI32? value = some kind ∧ (allow = true ∨ kind ≠ .tronPower) := by
  simp only [strictResource, bind_eq_ok_iff, resource_eq_ok_iff]
  constructor
  · rintro ⟨k, hk, h⟩
    split at h
    · next hc =>
      rw [pure_eq_ok_iff] at h
      subst h
      exact ⟨hk, by rcases hc with rfl | rfl | h <;> simp_all⟩
    · exact absurd h throw_ne_ok
  · rintro ⟨hk, ha⟩
    refine ⟨kind, hk, ?_⟩
    have hc : kind = .bandwidth ∨ kind = .energy ∨ (allow = true ∧ kind = .tronPower) := by
      cases kind <;> simp_all
    rw [if_pos hc]
    rfl

/-! ## Total weights -/

/-- The total weight of a resource in a property store. -/
def totalWeight (props : FMap Property Bytes) (kind : ResourceCode) : Option Int :=
  (props.lookup (weightName kind)).bind fromBe64

theorem weightName_injective {k k' : ResourceCode} (h : weightName k = weightName k') : k = k' := by
  cases k <;> cases k' <;> first | rfl | exact absurd h (by decide)

/-- The total weight of a resource has moved by `delta`, and no other property has. -/
def SetsWeight (props : FMap Property Bytes) (kind : ResourceCode) (delta : Int)
    (props' : FMap Property Bytes) : Prop :=
  ∃ total, totalWeight props kind = some total ∧ InI64 (total + delta) ∧
    props' = props.insert (weightName kind) (be64 (total + delta))

theorem addWeight_eq_ok_iff {w w' : World} {kind : ResourceCode} {delta : Int} :
    addWeight w kind delta = .ok w' ↔
      ∃ props, SetsWeight w.dynamicProperties kind delta props ∧
        w' = { w with dynamicProperties := props } := by
  simp only [addWeight, bind_eq_ok_iff, checkedAdd_eq_ok_iff, pure_eq_ok_iff, SetsWeight,
    putDynamicLong, dynamicLong_eq_ok_iff]
  constructor
  · rintro ⟨total, ht, _, ⟨hin, rfl⟩, rfl⟩
    exact ⟨_, ⟨total, ht, hin, rfl⟩, rfl⟩
  · rintro ⟨_, ⟨total, ht, hin, rfl⟩, rfl⟩
    exact ⟨total, ht, _, ⟨hin, rfl⟩, rfl⟩

theorem SetsWeight.totalWeight_self {props props' : FMap Property Bytes} {kind : ResourceCode}
    {delta total : Int} (h : SetsWeight props kind delta props')
    (hto : totalWeight props kind = some total) :
    totalWeight props' kind = some (total + delta) := by
  obtain ⟨t, ht, hin, rfl⟩ := h
  obtain rfl := Option.some.inj (ht.symm.trans hto)
  simp [totalWeight, fromBe64_be64 hin]

theorem SetsWeight.lookup_of_ne {props props' : FMap Property Bytes} {kind : ResourceCode}
    {delta : Int} (h : SetsWeight props kind delta props') {q : Property} (hq : q ≠ weightName kind) :
    props'.lookup q = props.lookup q := by
  obtain ⟨t, -, -, rfl⟩ := h
  exact Finmap.lookup_insert_of_ne _ hq

/-! ## Votes -/

/-- An account keeps its votes, or a change of them is recorded. -/
def Revotes (votes votes' : FMap Bytes Votes) (a a' : Account) : Prop :=
  votes' = votes ∧ a'.votes = a.votes ∨
    votes' = votes.insert a.address
      { (votes.lookup a.address).getD ⟨a.address, a.votes, []⟩ with newVotes := a'.votes }

theorem Revotes.refl {votes : FMap Bytes Votes} {a a' : Account} (h : a'.votes = a.votes) :
    Revotes votes votes a a' := .inl ⟨rfl, h⟩

/-- The votes of an account depend on its address and its votes alone. -/
theorem Revotes.congr {votes votes' : FMap Bytes Votes} {a b a' : Account}
    (h : Revotes votes votes' a a') (ha : a.address = b.address) (hv : a.votes = b.votes) :
    Revotes votes votes' b a' := by
  unfold Revotes at h ⊢
  rwa [ha, hv] at h

/-- The stores and the account after a change of votes: the votes are recorded, and the position
stays. -/
structure Follow (w w' : World) (a a' : Account) : Prop where
  world_eq : w' = { w with votes := w'.votes }
  position_eq : a'.position = a.position
  address_eq : a'.address = a.address
  revotes : Revotes w.votes w'.votes a a'

theorem Follow.refl (w : World) {a a' : Account} (hp : a'.position = a.position)
    (ha : a'.address = a.address) (hv : a'.votes = a.votes) : Follow w w a a' :=
  ⟨rfl, hp, ha, .refl hv⟩

theorem follow_recordVotes (w : World) (a : Account) (votes : List Vote) :
    Follow w (recordVotes w a votes).1 a (recordVotes w a votes).2 :=
  ⟨rfl, rfl, rfl, .inr rfl⟩

theorem follow_clearVotes (w : World) (a : Account) :
    Follow w (clearVotes w a).1 a (clearVotes w a).2 := by
  unfold clearVotes
  split
  · exact .refl w rfl rfl rfl
  · exact follow_recordVotes w a []

/-- A change of the recorded voting power after the votes. -/
theorem Follow.oldTronPower {w w' : World} {a a' : Account} (h : Follow w w' a a') (power : Int) :
    Follow w w' a { a' with oldTronPower := power } :=
  ⟨h.world_eq, h.position_eq, h.address_eq, h.revotes⟩

theorem scaleLegacyVotes_ok {cfg : ExecutionConfig} {w w' : World} {a a' : Account} {power : Int}
    (h : scaleLegacyVotes cfg w a power = .ok (w', a')) : Follow w w' a a' := by
  have hs : (pure (w, a) : Outcome (World × Account)) = .ok (w', a') → Follow w w' a a' := by
    intro h
    rw [pure_eq_ok_iff, Prod.mk.injEq] at h
    obtain ⟨rfl, rfl⟩ := h
    exact .refl w rfl rfl rfl
  unfold scaleLegacyVotes at h
  split at h
  · exact hs h
  · simp only [bind_eq_ok_iff] at h
    obtain ⟨total, -, remaining, -, h⟩ := h
    split at h
    · exact hs h
    · simp only [bind_eq_ok_iff] at h
      obtain ⟨needed, -, h⟩ := h
      split at h
      · exact hs h
      · rw [pure_eq_ok_iff] at h
        have := follow_recordVotes w a (a.votes.filterMap fun vote =>
          let count := cfg.float.scaleVote vote.voteCount remaining power
          if count > 0 then some { vote with voteCount := count } else none)
        rwa [h] at this

theorem UnfreezeBalanceV2.followVotes_ok {cfg : ExecutionConfig} {w w' : World} {a a' : Account}
    {kind : ResourceCode} {newModel : Bool} {power : Int}
    (h : UnfreezeBalanceV2.followVotes cfg w a kind newModel power = .ok (w', a')) :
    Follow w w' a a' := by
  unfold UnfreezeBalanceV2.followVotes at h
  split at h
  · simp only [pure_eq_ok_iff, Prod.mk.injEq] at h
    obtain ⟨rfl, rfl⟩ := h
    exact (follow_clearVotes w a).oldTronPower (-1)
  split at h
  · exact scaleLegacyVotes_ok h
  split at h
  · have := follow_clearVotes w a
    rw [pure_eq_ok_iff] at h
    rwa [h] at this
  · simp only [pure_eq_ok_iff, Prod.mk.injEq] at h
    obtain ⟨rfl, rfl⟩ := h
    exact .refl w rfl rfl rfl

theorem UnfreezeBalance.follow_followVotes (w : World) (a : Account) (kind : ResourceCode)
    (newModel : Bool) :
    Follow w (UnfreezeBalance.followVotes w a kind newModel).1 a
      (UnfreezeBalance.followVotes w a kind newModel).2 := by
  have hc : ∀ {w' : World} {b : Account}, Follow w w' a b →
      Follow w w' a (if newModel ∧ b.oldTronPower ≠ -1 then { b with oldTronPower := -1 } else b) := by
    intro w' b h
    split
    · exact h.oldTronPower (-1)
    · exact h
  unfold UnfreezeBalance.followVotes
  by_cases h : ¬ newModel ∨ a.oldTronPower ≠ -1 ∨ kind = .tronPower
  · simp only [if_pos h]
    exact hc (follow_recordVotes w a [])
  · simp only [if_neg h]
    exact hc (.refl w rfl rfl rfl)

theorem initializeOldTronPower_ok {a b : Account} {newModel : Bool}
    (h : initializeOldTronPower a newModel = .ok b) :
    b.position = a.position ∧ b.address = a.address ∧ b.votes = a.votes := by
  unfold initializeOldTronPower at h
  split at h
  · simp only [bind_eq_ok_iff, pure_eq_ok_iff] at h
    obtain ⟨power, -, rfl⟩ := h
    exact ⟨rfl, rfl, rfl⟩
  · rw [pure_eq_ok_iff] at h
    subst h
    exact ⟨rfl, rfl, rfl⟩

end RustTron.Actuator
