import RustTron.Staking.Ledger

/-!
# Runs of staking operations

A run executes staking operations one after the other, and between them the properties of the chain
may move: the clock, the limits and the switches of the committee. The two records of delegated
stake agree in every state of a run.

## Main definitions

* `Position.lentOf`, `Position.heldOf`: what an account has lent and holds, by generation
* `Ledger`: the accounts and the rows of delegated stake agree
* `Run`: runs of staking operations
* `Undelegated`: a state in which nothing is delegated

## Main results

* `Ledger.moves`: a move of the rows that the two accounts follow keeps the ledger
* `Ledger.execute`, `Run.ledger`: every operation, and every run, keeps the ledger
-/

namespace RustTron

open Actuator

namespace Position

/-- What an account has lent, by generation. -/
def lentOf (p : Position) : Generation → ResourceCode → Int
  | .legacy => p.lentLegacy
  | .v2 => p.lent

/-- What an account holds, by generation. -/
def heldOf (p : Position) : Generation → ResourceCode → Int
  | .legacy => p.heldLegacy
  | .v2 => p.held

end Position

end RustTron

namespace RustTron.Actuator

open Position

/-! ## The ledger -/

/-- The accounts and the rows of delegated stake agree. -/
structure Ledger (w : World) : Prop where
  rows : RowsWell w.delegatedResources
  lent : ∀ address a, w.accounts.get address = some a → ∀ g kind,
    a.position.lentOf g kind = lentIn g w.delegatedResources address kind
  held : ∀ address a, w.accounts.get address = some a → ∀ g kind,
    a.position.heldOf g kind = heldIn g w.delegatedResources address kind
  fits : ∀ address a, w.accounts.get address = some a → ∀ kind, InI64 (a.position.heldLegacy kind)

theorem RowsWell.lentIn_nonneg {rows : FMap Bytes DelegatedResource} (h : RowsWell rows)
    (g : Generation) (s : Bytes) (kind : ResourceCode) : 0 ≤ lentIn g rows s kind := by
  refine FMap.total_nonneg fun key row hr => ?_
  split
  · exact (h key row hr).nonneg kind
  · exact le_rfl

theorem RowsWell.heldIn_nonneg {rows : FMap Bytes DelegatedResource} (h : RowsWell rows)
    (g : Generation) (r : Bytes) (kind : ResourceCode) : 0 ≤ heldIn g rows r kind := by
  refine FMap.total_nonneg fun key row hr => ?_
  split
  · exact (h key row hr).nonneg kind
  · exact le_rfl

theorem Ledger.lent_nonneg {w : World} (h : Ledger w) {address : Bytes} {a : Account}
    (ha : w.accounts.get address = some a) (g : Generation) (kind : ResourceCode) :
    0 ≤ a.position.lentOf g kind := by
  rw [h.lent address a ha]
  exact h.rows.lentIn_nonneg g address kind

/-- A change of the accounts that keeps what they have lent and hold. -/
theorem Ledger.keeps {w w' : World} (h : Ledger w)
    (hr : w'.delegatedResources = w.delegatedResources)
    (hk : ∀ address b, w'.accounts.get address = some b → ∃ a,
      w.accounts.get address = some a ∧ b.position.lentOf = a.position.lentOf ∧
        b.position.heldOf = a.position.heldOf) : Ledger w' := by
  constructor
  · rw [hr]
    exact h.rows
  · intro address b hb g kind
    obtain ⟨a, ha, hle, -⟩ := hk address b hb
    rw [hr, hle, h.lent address a ha]
  · intro address b hb g kind
    obtain ⟨a, ha, -, hh⟩ := hk address b hb
    rw [hr, hh, h.held address a ha]
  · intro address b hb kind
    obtain ⟨a, ha, -, hh⟩ := hk address b hb
    have hl : b.position.heldLegacy = a.position.heldLegacy := congrFun hh .legacy
    rw [hl]
    exact h.fits address a ha kind

/-- **A move of the rows** that the two accounts follow keeps the ledger. -/
theorem Ledger.moves {w w' : World} (h : Ledger w) {g : Generation} {s r : Bytes}
    {delta : ResourceCode → Int}
    (hm : Moves g s r delta w.delegatedResources w'.delegatedResources)
    (hr : RowsWell w'.delegatedResources)
    (hf : ∀ address b, w'.accounts.get address = some b → ∃ a,
      w.accounts.get address = some a ∧
      (∀ g' k, b.position.lentOf g' k =
        a.position.lentOf g' k + if g' = g ∧ address = s then delta k else 0) ∧
      (∀ g' k, b.position.heldOf g' k =
        a.position.heldOf g' k + if g' = g ∧ address = r then delta k else 0) ∧
      ∀ k, InI64 (b.position.heldLegacy k)) : Ledger w' := by
  refine ⟨hr, fun address b hb g' kind => ?_, fun address b hb g' kind => ?_,
    fun address b hb kind => ?_⟩
  · obtain ⟨a, ha, hl, -⟩ := hf address b hb
    rw [hl, h.lent address a ha, hm.lent]
  · obtain ⟨a, ha, -, hh, -⟩ := hf address b hb
    rw [hh, h.held address a ha, hm.held]
  · obtain ⟨-, -, -, -, hfi⟩ := hf address b hb
    exact hfi kind

/-- The delegations of an account are as they were. -/
def SameDelegations (p p' : Position) : Prop := p'.lentOf = p.lentOf ∧ p'.heldOf = p.heldOf

theorem sameDelegations_iff {p p' : Position} : SameDelegations p p' ↔
    p'.lentLegacy = p.lentLegacy ∧ p'.lent = p.lent ∧ p'.heldLegacy = p.heldLegacy ∧
      p'.held = p.held := by
  constructor
  · rintro ⟨hl, hh⟩
    exact ⟨congrFun hl .legacy, congrFun hl .v2, congrFun hh .legacy, congrFun hh .v2⟩
  · rintro ⟨h₁, h₂, h₃, h₄⟩
    refine ⟨funext fun g => ?_, funext fun g => ?_⟩ <;> cases g <;> assumption

theorem SavesOwner.ledger {w w' : World} {address : Bytes} {owner owner' : Account}
    (h : SavesOwner w w' address owner owner')
    (hs : SameDelegations owner.position owner'.position) (hl : Ledger w) : Ledger w' := by
  refine hl.keeps h.rows_eq fun k b hb => ?_
  rw [h.accounts_eq, Accounts.get_put, h.address_eq] at hb
  split at hb
  · next hk =>
    obtain rfl := Option.some.inj hb
    exact ⟨owner, hk ▸ h.found, hs⟩
  · exact ⟨b, hb, rfl, rfl⟩

theorem update_eq_add_onlyKind (f : ResourceCode → Int) (kind : ResourceCode) (x : Int)
    (k : ResourceCode) : Function.update f kind (f kind + x) k = f k + onlyKind kind x k := by
  by_cases hk : k = kind
  · subst hk
    rw [Function.update_self, onlyKind_self]
  · rw [Function.update_of_ne hk, onlyKind_of_ne _ hk, add_zero]

theorem inI64_update {f : ResourceCode → Int} (h : ∀ k, InI64 (f k)) {kind : ResourceCode} {x : Int}
    (hx : InI64 x) (k : ResourceCode) : InI64 (Function.update f kind x k) := by
  by_cases hk : k = kind
  · subst hk
    rwa [Function.update_self]
  · rw [Function.update_of_ne hk]
    exact h k

/-- What the account on one side of a move has moved by. -/
def MovesBy (g : Generation) (delta : ResourceCode → Int)
    (before after : Generation → ResourceCode → Int) : Prop :=
  ∀ g' k, after g' k = before g' k + if g' = g then delta k else 0

theorem movesBy_legacy {kind : ResourceCode} {x : Int} {before after : Generation → ResourceCode → Int}
    (hl : after .legacy = Function.update (before .legacy) kind (before .legacy kind + x))
    (hv2 : after .v2 = before .v2) : MovesBy .legacy (onlyKind kind x) before after := by
  intro g' k
  cases g' with
  | legacy => rw [if_pos rfl, hl, update_eq_add_onlyKind]
  | v2 => rw [if_neg nofun, hv2, add_zero]

theorem movesBy_v2 {kind : ResourceCode} {x : Int} {before after : Generation → ResourceCode → Int}
    (hv2 : after .v2 = Function.update (before .v2) kind (before .v2 kind + x))
    (hl : after .legacy = before .legacy) : MovesBy .v2 (onlyKind kind x) before after := by
  intro g' k
  cases g' with
  | legacy => rw [if_neg nofun, hl, add_zero]
  | v2 => rw [if_pos rfl, hv2, update_eq_add_onlyKind]

/-- The receiver of a move, if it is there, holds as much more as the rows say. -/
def ReceiverFollows (w w' : World) (g : Generation) (r : Bytes) (delta : ResourceCode → Int)
    (owner' : Account) : Prop :=
  w.accounts.get r = none ∧ w'.accounts = w.accounts.put owner' ∨
    ∃ a b, w.accounts.get r = some a ∧ b.address = r ∧
      w'.accounts = (w.accounts.put owner').put b ∧ b.position.lentOf = a.position.lentOf ∧
      MovesBy g delta a.position.heldOf b.position.heldOf ∧ ∀ k, InI64 (b.position.heldLegacy k)

/-- **A delegation**, or the end of one, keeps the ledger. -/
theorem Ledger.delegation {w w' : World} (h : Ledger w) {g : Generation} {s r : Bytes}
    {delta : ResourceCode → Int} {owner owner' : Account} (hne : s ≠ r)
    (hm : Moves g s r delta w.delegatedResources w'.delegatedResources)
    (hro : RowsWell w'.delegatedResources) (hf : w.accounts.get s = some owner)
    (had : owner'.address = s)
    (hlen : MovesBy g delta owner.position.lentOf owner'.position.lentOf)
    (hhe : owner'.position.heldOf = owner.position.heldOf)
    (hre : ReceiverFollows w w' g r delta owner') : Ledger w' := by
  have hse : ∃ a, w.accounts.get s = some a ∧
      (∀ g' k, owner'.position.lentOf g' k =
        a.position.lentOf g' k + if g' = g ∧ s = s then delta k else 0) ∧
      (∀ g' k, owner'.position.heldOf g' k =
        a.position.heldOf g' k + if g' = g ∧ s = r then delta k else 0) ∧
      ∀ k, InI64 (owner'.position.heldLegacy k) := by
    refine ⟨owner, hf, fun g' k => ?_, fun g' k => ?_, fun k => ?_⟩
    · simpa using hlen g' k
    · simp [hhe, hne]
    · have hle : owner'.position.heldLegacy = owner.position.heldLegacy := congrFun hhe .legacy
      rw [hle]
      exact h.fits s owner hf k
  have ho : ∀ address b, address ≠ s → address ≠ r → w.accounts.get address = some b →
      ∃ a, w.accounts.get address = some a ∧
      (∀ g' k, b.position.lentOf g' k =
        a.position.lentOf g' k + if g' = g ∧ address = s then delta k else 0) ∧
      (∀ g' k, b.position.heldOf g' k =
        a.position.heldOf g' k + if g' = g ∧ address = r then delta k else 0) ∧
      ∀ k, InI64 (b.position.heldLegacy k) := by
    intro address b hs hr hb
    exact ⟨b, hb, by simp [hs], by simp [hr], h.fits address b hb⟩
  refine h.moves hm hro fun address b hb => ?_
  rcases hre with ⟨hn, ha⟩ | ⟨a, taker, hso, hb', ha, hl, hh, hfi⟩
  · rw [ha, Accounts.get_put, had] at hb
    split at hb
    · next hk =>
      obtain rfl := Option.some.inj hb
      subst hk
      exact hse
    · next hk =>
      refine ho address b hk (fun hr => ?_) hb
      rw [hr, hn] at hb
      cases hb
  · rw [ha, Accounts.get_put, hb'] at hb
    split at hb
    · next hk =>
      obtain rfl := Option.some.inj hb
      subst hk
      refine ⟨a, hso, fun g' k => ?_, fun g' k => ?_, hfi⟩
      · simp [hl, Ne.symm hne]
      · simpa using hh g' k
    next hr =>
    rw [Accounts.get_put, had] at hb
    split at hb
    · next hk =>
      obtain rfl := Option.some.inj hb
      subst hk
      exact hse
    · next hk => exact ho address b hk hr hb

/-! ## Every operation keeps the ledger -/

theorem Lends.ledger {c : DelegateResource} {w w' unlocked : World}
    {owner owner' taker taker' : Account} {kind : ResourceCode} {items : List FreezeV2}
    {now expire : Int}
    (h : Lends c w w' owner owner' taker taker' kind items unlocked now expire)
    (hl : Ledger w) : Ledger w' := by
  obtain ⟨hm, hr⟩ := h.moves hl.rows
  refine hl.delegation h.distinct hm hr h.foundOwner h.ownerAddress_eq
    (movesBy_v2 ?_ ?_) ?_ (.inr ⟨taker, taker', h.foundReceiver, h.receiverAddress_eq,
      h.accounts_eq, ?_, movesBy_v2 ?_ ?_, fun k => ?_⟩)
  · simp only [lentOf, h.owner_eq]
  · simp only [lentOf, h.owner_eq]
  · funext g
    cases g <;> simp only [heldOf, h.owner_eq]
  · funext g
    cases g <;> simp only [lentOf, h.taker_eq]
  · simp only [heldOf, h.taker_eq]
  · simp only [heldOf, h.taker_eq]
  · rw [h.taker_eq]
    exact hl.fits _ _ h.foundReceiver k

theorem FreezesFor.ledger {c : FreezeBalance} {w w' : World} {owner owner' taker taker' : Account}
    {kind : ResourceCode} {now expire : Int}
    (h : FreezesFor c w w' owner owner' taker taker' kind now expire) (hl : Ledger w) :
    Ledger w' := by
  obtain ⟨hm, hr⟩ := h.moves hl.rows
  refine hl.delegation h.distinct hm hr h.foundOwner h.ownerAddress_eq
    (movesBy_legacy ?_ ?_) ?_ (.inr ⟨taker, taker', h.foundReceiver, h.receiverAddress_eq,
      h.accounts_eq, ?_, movesBy_legacy ?_ ?_, fun k => ?_⟩)
  · simp only [lentOf, h.owner_eq]
  · simp only [lentOf, h.owner_eq]
  · funext g
    cases g <;> simp only [heldOf, h.owner_eq]
  · funext g
    cases g <;> simp only [lentOf, h.taker_eq]
  · simp only [heldOf, h.taker_eq]
  · simp only [heldOf, h.taker_eq]
  · rw [h.taker_eq]
    exact inI64_update (hl.fits _ _ h.foundReceiver) h.fits k

/-- A receiver holds at least what the rows of a pair lose. -/
theorem Ledger.held_covers {w w' : World} (h : Ledger w) {g : Generation} {s r : Bytes}
    {kind : ResourceCode} {amount : Int} {taker : Account}
    (hm : Moves g s r (onlyKind kind (-amount)) w.delegatedResources w'.delegatedResources)
    (hr : RowsWell w'.delegatedResources) (hf : w.accounts.get r = some taker) :
    amount ≤ taker.position.heldOf g kind := by
  have hn := hr.heldIn_nonneg g r kind
  rw [hm.held, if_pos ⟨rfl, rfl⟩, onlyKind_self, ← h.held r taker hf] at hn
  omega

theorem Returns.ledger {c : UnDelegateResource} {w w' unlocked : World} {owner owner' : Account}
    {taker taker' : Option Account} {kind : ResourceCode} {items : List FreezeV2}
    {record : DelegatedResource} {existed : Bool} {now : Int}
    (h : Returns c w w' owner owner' taker taker' kind items unlocked record existed now)
    (hl : Ledger w) : Ledger w' := by
  obtain ⟨hm, hr, -⟩ := h.moves hl.rows
  refine hl.delegation h.distinct hm hr h.foundOwner h.ownerAddress_eq
    (movesBy_v2 ?_ ?_) ?_ ?_
  · simp only [lentOf, h.owner_eq, Int.sub_eq_add_neg]
  · simp only [lentOf, h.owner_eq]
  · funext g
    cases g <;> simp only [heldOf, h.owner_eq]
  have ht := h.taker_eq
  have hf := h.foundReceiver
  cases taker with
  | none => exact .inl ⟨hf, ht.2⟩
  | some a =>
    obtain ⟨b, -, had, hb, ha⟩ := ht
    have hc : c.balance ≤ a.position.held kind := hl.held_covers hm hr hf
    rw [if_neg (by omega), Int.sub_eq_add_neg] at hb
    refine .inr ⟨a, b, hf, had, ha, ?_, movesBy_v2 ?_ ?_, fun k => ?_⟩
    · funext g
      cases g <;> simp only [lentOf, hb]
    · simp only [heldOf, hb]
    · simp only [heldOf, hb]
    · rw [hb]
      exact hl.fits _ _ hf k

theorem UnfreezesFor.ledger {c : UnfreezeBalance} {w w' : World} {owner owner' : Account}
    {kind : ResourceCode} {row : DelegatedResource}
    (h : UnfreezesFor c w w' owner owner' kind row) (hl : Ledger w) : Ledger w' := by
  obtain ⟨hm, hr⟩ := h.moves hl.rows
  refine hl.delegation h.distinct hm hr h.foundOwner h.ownerAddress_eq
    (movesBy_legacy ?_ ?_) ?_ ?_
  · simp only [lentOf, h.owner_eq, Int.sub_eq_add_neg]
  · simp only [lentOf, h.owner_eq]
  · funext g
    cases g <;> simp only [heldOf, h.owner_eq]
  have ht := h.taker_eq
  cases hf : w.accounts.get c.receiverAddress with
  | none =>
    rw [hf] at ht
    exact .inl ⟨hf, ht⟩
  | some a =>
    rw [hf] at ht
    obtain ⟨b, had, -, hb, ha⟩ := ht
    have hc : rowAmount row (lentKind kind) ≤ a.position.heldLegacy (lentKind kind) :=
      hl.held_covers hm hr hf
    have ham := (hl.rows _ _ h.foundRow).nonneg (lentKind kind)
    have hfi := hl.fits _ _ hf (lentKind kind)
    have hle : max (saturate (a.position.heldLegacy (lentKind kind) -
        rowAmount row (lentKind kind))) 0 =
          a.position.heldLegacy (lentKind kind) + -rowAmount row (lentKind kind) := by
      simp only [InI64, i64Min, i64Max, saturate] at hfi ⊢
      omega
    rw [hle] at hb
    refine .inr ⟨a, b, hf, had, ha, ?_, movesBy_legacy ?_ ?_, fun k => ?_⟩
    · funext g
      cases g <;> simp only [lentOf, hb]
    · simp only [heldOf, hb]
    · simp only [heldOf, hb]
    · rw [hb]
      refine inI64_update (hl.fits _ _ hf) ?_ k
      simp only [InI64, i64Min, i64Max] at hfi ⊢
      omega

theorem CancelsTo.sameDelegations {now : Int} {items : List UnFreezeV2} {p p' : Position}
    (h : CancelsTo now p items p') : SameDelegations p p' := by
  induction items generalizing p with
  | nil =>
    rw [CancelsTo] at h
    subst h
    exact ⟨rfl, rfl⟩
  | cons item items ih =>
    rw [CancelsTo] at h
    split at h
    · obtain ⟨h₁, h₂, h₃, h₄⟩ := sameDelegations_iff.mp (ih h)
      exact sameDelegations_iff.mpr ⟨h₁, h₂, h₃, h₄⟩
    · obtain ⟨kind, staked, -, -, h⟩ := h
      obtain ⟨h₁, h₂, h₃, h₄⟩ := sameDelegations_iff.mp (ih h)
      exact sameDelegations_iff.mpr ⟨h₁, h₂, h₃, h₄⟩

/-- **Every operation** keeps the ledger. -/
theorem Ledger.execute {cfg : ExecutionConfig} {w w' : World} {op : Operation}
    {result : ActuatorResult} (h : Ledger w) (hexe : op.execute cfg w = .ok (w', result)) :
    Ledger w' := by
  cases op with
  | freezeBalance c =>
    rcases FreezeBalance.execute_effect hexe with ⟨-, owner, owner', kind, expire, he⟩ |
      ⟨-, owner, owner', taker, taker', kind, now, expire, he⟩
    · refine he.toSavesOwner.ledger (sameDelegations_iff.mpr ?_) h
      simp only [he.position_eq, and_self]
    · exact he.ledger h
  | unfreezeBalance c =>
    rcases UnfreezeBalance.execute_effect hexe with
      ⟨-, owner, owner', kind, now, amount, he⟩ | ⟨-, owner, owner', kind, row, he⟩
    · refine he.toSavesOwner.ledger (sameDelegations_iff.mpr ?_) h
      simp only [he.position_eq, and_self]
    · exact he.ledger h
  | freezeBalanceV2 c =>
    obtain ⟨owner, owner', kind, items, he⟩ := FreezeBalanceV2.execute_effect hexe
    refine he.toSavesOwner.ledger (sameDelegations_iff.mpr ?_) h
    simp only [he.position_eq, and_self]
  | unfreezeBalanceV2 c =>
    obtain ⟨owner, owner', kind, items, now, expire, he⟩ :=
      UnfreezeBalanceV2.execute_effect hexe
    refine he.toSavesOwner.ledger (sameDelegations_iff.mpr ?_) h
    simp only [he.position_eq, and_self]
  | delegateResource c =>
    obtain ⟨owner, owner', taker, taker', kind, items, unlocked, now, expire, he⟩ :=
      DelegateResource.execute_effect hexe
    exact he.ledger h
  | unDelegateResource c =>
    obtain ⟨owner, owner', taker, taker', kind, items, unlocked, record, existed, now, he⟩ :=
      UnDelegateResource.execute_effect hexe
    exact he.ledger h
  | cancelAllUnfreezeV2 c =>
    obtain ⟨owner, owner', now, he⟩ := CancelAllUnfreezeV2.execute_effect hexe
    exact he.toSavesOwner.ledger he.cancels.sameDelegations h
  | withdrawExpireUnfreeze c =>
    obtain ⟨owner, owner', now, he⟩ := WithdrawExpireUnfreeze.execute_effect hexe
    refine he.toSavesOwner.ledger (sameDelegations_iff.mpr ?_) h
    simp only [he.position_eq, and_self]

/-! ## Runs -/

/-- A run from `start`: operations that succeed, each one allowed in the state it starts from, and
between them moves of every property but the total weights. -/
inductive Run (cfg : ExecutionConfig) (Allowed : World → Operation → Prop) (start : World) :
    World → Prop
  | refl : Run cfg Allowed start start
  | execute {w w' : World} {op : Operation} {result : ActuatorResult}
      (run : Run cfg Allowed start w) (allowed : Allowed w op)
      (succeeds : op.execute cfg w = .ok (w', result)) : Run cfg Allowed start w'
  | advance {w : World} {props : FMap Property Bytes} (run : Run cfg Allowed start w)
      (weights : ∀ kind, props.lookup (weightName kind) =
        w.dynamicProperties.lookup (weightName kind)) :
      Run cfg Allowed start { w with dynamicProperties := props }

/-- Nothing is delegated. -/
structure Undelegated (w : World) : Prop where
  rows_eq : w.delegatedResources = ∅
  accounts : ∀ address a, w.accounts.get address = some a → ∀ g kind,
    a.position.lentOf g kind = 0 ∧ a.position.heldOf g kind = 0

theorem Undelegated.ledger {w : World} (h : Undelegated w) : Ledger w := by
  constructor
  · intro key row hr
    rw [h.rows_eq, Finmap.lookup_empty] at hr
    cases hr
  · intro address a ha g kind
    rw [h.rows_eq, (h.accounts address a ha g kind).1]
    rfl
  · intro address a ha g kind
    rw [h.rows_eq, (h.accounts address a ha g kind).2]
    rfl
  · intro address a ha kind
    have hz : a.position.heldLegacy kind = 0 := (h.accounts address a ha .legacy kind).2
    rw [hz]
    decide

/-- **Every run** keeps the ledger. -/
theorem Run.ledger {cfg : ExecutionConfig} {Allowed : World → Operation → Prop} {start w : World}
    (h : Run cfg Allowed start w) (hst : Ledger start) : Ledger w := by
  induction h with
  | refl => exact hst
  | execute _ _ hs ih => exact ih.execute hs
  | advance _ _ ih => exact ⟨ih.rows, ih.lent, ih.held, ih.fits⟩

/-- The state after an operation; one that fails leaves the state as it was. -/
def Operation.after (cfg : ExecutionConfig) (w : World) (op : Operation) : World :=
  match op.execute cfg w with
  | .ok (w', _) => w'
  | .error _ => w

/-- An operation succeeds. -/
def Operation.succeeds (cfg : ExecutionConfig) (w : World) (op : Operation) : Bool :=
  match op.execute cfg w with
  | .ok _ => true
  | .error _ => false

theorem Operation.execute_of_succeeds {cfg : ExecutionConfig} {w : World} {op : Operation}
    (h : op.succeeds cfg w = true) : ∃ result, op.execute cfg w = .ok (op.after cfg w, result) := by
  unfold Operation.succeeds at h
  unfold Operation.after
  split at h
  · next done hd => exact ⟨done.2, by rw [hd]⟩
  · cases h

/-- A run goes on with an operation that succeeds. -/
theorem Run.after {cfg : ExecutionConfig} {Allowed : World → Operation → Prop} {start w : World}
    {op : Operation} (run : Run cfg Allowed start w) (ha : Allowed w op)
    (h : op.succeeds cfg w = true) : Run cfg Allowed start (op.after cfg w) := by
  obtain ⟨result, he⟩ := Operation.execute_of_succeeds h
  exact .execute run ha he

/-! ## A small state -/

namespace Sample

/-- An address. -/
def alice : Bytes := 0x41 :: List.replicate 20 1

/-- Another address. -/
def bob : Bytes := 0x41 :: List.replicate 20 2

/-- A configuration that pays no rewards. -/
def config : ExecutionConfig where
  rewardCallback := none
  float := ⟨fun usage _ _ => usage, fun count _ _ => count⟩

/-- Delegation, both index representations and the weights of `ALLOW_NEW_REWARD`, before the
second generation of staking; `days` after the start of the clock. -/
def properties (days : Int) : FMap Property Bytes :=
  [(Property.totalNetWeight, be64 0), (.totalEnergyWeight, be64 0), (.totalTronPowerWeight, be64 0),
    (.allowNewReward, be64 1), (.allowDelegateResource, be64 1),
    (.allowDelegateOptimization, be64 1), (.minFrozenTime, [0, 0, 0, 3]),
    (.maxFrozenTime, [0, 0, 0, 3]), (.latestBlockHeaderTimestamp, be64 (days * dayMs))].foldr
    (fun row rows => rows.insert row.1 row.2) ∅

/-- Two accounts, one of them with a hundred TRX. -/
def world : World where
  accounts := (Accounts.empty.put { address := alice, balance := 100 * trxPrecision }).put
    { address := bob }
  dynamicProperties := properties 0

/-- Ten TRX frozen for another account. -/
def freeze : Operation := .freezeBalance ⟨alice, 10 * trxPrecision, 3, 0, bob⟩

/-- And taken back. -/
def unfreeze : Operation := .unfreezeBalance ⟨alice, 0, bob⟩

/-- Three days after the freeze. -/
def frozen : World := { freeze.after config world with dynamicProperties := properties 3 }

theorem get_world {address : Bytes} {a : Account} (h : world.accounts.get address = some a) :
    a = { address := alice, balance := 100 * trxPrecision } ∨ a = { address := bob } := by
  simp only [world, Accounts.get_put, Accounts.get_empty] at h
  split at h
  · exact .inr (Option.some.inj h).symm
  · split at h
    · exact .inl (Option.some.inj h).symm
    · cases h

theorem undelegated_world : Undelegated world := by
  refine ⟨rfl, fun address a ha g kind => ?_⟩
  rcases get_world ha with rfl | rfl <;> cases g <;> cases kind <;> exact ⟨rfl, rfl⟩

/-- The run up to three days after the freeze. -/
theorem run_frozen {Allowed : World → Operation → Prop} (h : Allowed world freeze) :
    Run config Allowed world frozen := by
  have hf : Run config Allowed world (freeze.after config world) :=
    Run.refl.after h (by decide)
  refine hf.advance fun kind => ?_
  cases kind <;> decide

end Sample

end RustTron.Actuator
