import RustTron.Staking.Indexes
import RustTron.Staking.Weight

/-!
# Staking moves TRX and makes none

What an account owns is liquid, staked, unstaking or lent. The operations of staking move amounts
between these parts of one account: the sum over all accounts stays the same, and no part of it
becomes negative. The code adds up the expired amounts of an account without a check; the sum over
all accounts bounds what is added, so nothing wraps.

## Main definitions

* `Position.Owned`: no part of what an account has is negative
* `Actuator.totalFunds`: what all accounts own
* `Solvent`: the ledger is in order, nothing is negative, and all funds together are an `i64`

## Main results

* `Solvent.execute`: an operation keeps the funds
* `funds_of_run`: so does every run
-/

namespace RustTron

open Actuator

namespace Position

/-- No part of what an account has itself is negative. -/
structure Owned (p : Position) : Prop where
  balance : 0 ≤ p.balance
  legacy : ∀ k, ∀ item ∈ p.legacy k, 0 ≤ item.frozenBalance
  frozenV2 : ∀ item ∈ p.frozenV2, 0 ≤ item.amount
  unfrozenV2 : ∀ item ∈ p.unfrozenV2, 0 ≤ item.unfreezeAmount

/-- A sum of amounts that are not negative is bounded by what an account owns. -/
structure Covered (p : Position) : Prop extends Owned p where
  lent : ∀ g k, 0 ≤ p.lentOf g k

theorem sum_map_nonneg {α : Type} {f : α → Int} {items : List α} (h : ∀ item ∈ items, 0 ≤ f item) :
    0 ≤ (items.map f).sum := by
  refine List.sum_nonneg fun x hx => ?_
  obtain ⟨item, hi, rfl⟩ := List.mem_map.mp hx
  exact h item hi

theorem sum_filter_add {α : Type} (f : α → Int) (keep : α → Prop) [DecidablePred keep]
    (items : List α) : ((items.filter fun a => keep a).map f).sum +
      ((items.filter fun a => ¬ keep a).map f).sum = (items.map f).sum := by
  induction items with
  | nil => rfl
  | cons item items ih =>
    by_cases hk : keep item <;>
      simp only [List.filter_cons, hk, decide_true, decide_false, not_true_eq_false,
        not_false_eq_true, if_true, if_false, Bool.false_eq_true, List.map_cons, List.sum_cons] <;>
      omega

namespace Covered

variable {p : Position} (h : p.Covered)
include h

theorem parts_le : 0 ≤ p.funds ∧ (p.unfrozenV2.map UnFreezeV2.unfreezeAmount).sum ≤ p.funds ∧
    ((p.legacy .bandwidth).map Frozen.frozenBalance).sum ≤ p.funds := by
  have hb := h.balance
  have hl := fun k => sum_map_nonneg (h.legacy k)
  have hl₁ := hl .bandwidth
  have hl₂ := hl .energy
  have hl₃ := hl .tronPower
  have hf := sum_map_nonneg h.frozenV2
  have hu := sum_map_nonneg h.unfrozenV2
  have hs₁ := h.lent .legacy .bandwidth
  have hs₂ := h.lent .legacy .energy
  have hv₁ := h.lent .v2 .bandwidth
  have hv₂ := h.lent .v2 .energy
  simp only [lentOf] at hs₁ hs₂ hv₁ hv₂
  unfold funds
  omega

end Covered

end Position

end RustTron

namespace RustTron.Actuator

open Position

/-! ## What an operation does to its accounts -/

/-- What an account owns is the same afterwards, and no part of it is negative. -/
structure Conserves (p p' : Position) : Prop where
  owned : p'.Owned
  funds_eq : p'.funds = p.funds

theorem owned_addFrozenV2Items {kind : ResourceCode} {delta : Int} {items items' : List FreezeV2}
    (h : addFrozenV2Items kind delta items = .ok items') (hi : ∀ item ∈ items, 0 ≤ item.amount)
    (hd : 0 ≤ stakedIn items kind + delta) : ∀ item ∈ items', 0 ≤ item.amount := by
  induction items generalizing items' with
  | nil =>
    simp only [addFrozenV2Items, pure_eq_ok_iff] at h
    subst h
    simpa [stakedIn] using hd
  | cons item items ih =>
    obtain ⟨ho, hi⟩ := List.forall_mem_cons.mp hi
    simp only [addFrozenV2Items] at h
    split at h
    next hk =>
      simp only [bind_eq_ok_iff, checkedAdd_eq_ok_iff, pure_eq_ok_iff] at h
      obtain ⟨_, ⟨-, rfl⟩, rfl⟩ := h
      refine List.forall_mem_cons.mpr ⟨?_, hi⟩
      simpa [stakedIn, hk] using hd
    next hk =>
      simp only [bind_eq_ok_iff, pure_eq_ok_iff] at h
      obtain ⟨rest, hr, rfl⟩ := h
      refine List.forall_mem_cons.mpr ⟨ho, ih hr hi ?_⟩
      simpa [stakedIn, hk] using hd

/-- Where the unstaking amounts fit an `i64`, what expires and what stays are all of them. -/
theorem expiredAmount_add (now : Int) {items : List UnFreezeV2}
    (hi : ∀ item ∈ items, 0 ≤ item.unfreezeAmount)
    (hf : (items.map UnFreezeV2.unfreezeAmount).sum ≤ i64Max) :
    0 ≤ expiredAmount now items ∧
      expiredAmount now items + ((pendingItems now items).map UnFreezeV2.unfreezeAmount).sum =
        (items.map UnFreezeV2.unfreezeAmount).sum := by
  have hsum := sum_filter_add UnFreezeV2.unfreezeAmount (fun item => item.unfreezeExpireTime ≤ now)
    items
  have he : 0 ≤ ((items.filter fun item => item.unfreezeExpireTime ≤ now).map
      UnFreezeV2.unfreezeAmount).sum :=
    sum_map_nonneg fun item hm => hi item (List.mem_of_mem_filter hm)
  have hp : 0 ≤ ((items.filter fun item => ¬ item.unfreezeExpireTime ≤ now).map
      UnFreezeV2.unfreezeAmount).sum :=
    sum_map_nonneg fun item hm => hi item (List.mem_of_mem_filter hm)
  rw [expiredAmount, wrap_of_inI64 ⟨by unfold i64Min; omega, by omega⟩, pendingItems]
  exact ⟨he, hsum⟩

theorem stakedIn_nonneg {items : List FreezeV2} (h : ∀ item ∈ items, 0 ≤ item.amount)
    (kind : ResourceCode) : 0 ≤ stakedIn items kind := by
  rw [stakedIn]
  cases hf : items.find? fun item => item.type = kind.toI32 with
  | none => exact le_rfl
  | some item => exact h item (List.mem_of_find?_eq_some hf)

theorem sum_legacy_update (f : ResourceCode → List Frozen) (kind : ResourceCode)
    (items : List Frozen) :
    ((Function.update f kind items .bandwidth).map Frozen.frozenBalance).sum +
      ((Function.update f kind items .energy).map Frozen.frozenBalance).sum +
      ((Function.update f kind items .tronPower).map Frozen.frozenBalance).sum =
    ((f .bandwidth).map Frozen.frozenBalance).sum + ((f .energy).map Frozen.frozenBalance).sum +
      ((f .tronPower).map Frozen.frozenBalance).sum +
      ((items.map Frozen.frozenBalance).sum - ((f kind).map Frozen.frozenBalance).sum) := by
  cases kind <;> simp [Function.update] <;> omega

theorem legacy_update {f : ResourceCode → List Frozen} {kind : ResourceCode} {items : List Frozen}
    (hf : ∀ k, ∀ item ∈ f k, 0 ≤ item.frozenBalance) (hi : ∀ item ∈ items, 0 ≤ item.frozenBalance)
    (k : ResourceCode) : ∀ item ∈ Function.update f kind items k, 0 ≤ item.frozenBalance := by
  by_cases hk : k = kind
  · subst hk
    rwa [Function.update_self]
  · rw [Function.update_of_ne hk]
    exact hf k

theorem ownIn_eq_sum {kind : ResourceCode} {items : List Frozen}
    (hi : ∀ item ∈ items, 0 ≤ item.frozenBalance)
    (hf : kind = .bandwidth → (items.map Frozen.frozenBalance).sum ≤ i64Max) :
    ownIn kind items = (items.map Frozen.frozenBalance).sum := by
  rw [ownIn]
  split
  next hk =>
    have hs := sum_map_nonneg hi
    exact wrap_of_inI64 ⟨by unfold i64Min; omega, hf hk⟩
  next => rfl

theorem CancelsTo.conserves {items : List UnFreezeV2} {p p' : Position} {now : Int}
    (h : CancelsTo now p items p') (hi : ∀ item ∈ items, 0 ≤ item.unfreezeAmount) (hp : p.Owned) :
    p'.Owned ∧ p'.funds = p.funds + (items.map UnFreezeV2.unfreezeAmount).sum := by
  induction items generalizing p with
  | nil =>
    rw [CancelsTo] at h
    subst h
    exact ⟨hp, (Int.add_zero _).symm⟩
  | cons item items ih =>
    obtain ⟨ho, hi⟩ := List.forall_mem_cons.mp hi
    rw [CancelsTo] at h
    rw [List.map_cons, List.sum_cons]
    split at h
    next =>
      obtain ⟨hown, hfunds⟩ := ih h hi ⟨Int.add_nonneg hp.balance ho, hp.legacy, hp.frozenV2,
        hp.unfrozenV2⟩
      refine ⟨hown, ?_⟩
      rw [hfunds, funds, funds]
      dsimp only
      omega
    next =>
      obtain ⟨kind, staked, -, hadd, h⟩ := h
      obtain ⟨hown, hfunds⟩ := ih h hi ⟨hp.balance, hp.legacy,
        owned_addFrozenV2Items hadd hp.frozenV2 (Int.add_nonneg (stakedIn_nonneg hp.frozenV2 _) ho),
        hp.unfrozenV2⟩
      refine ⟨hown, ?_⟩
      rw [hfunds, funds, funds]
      dsimp only
      rw [sum_addFrozenV2Items hadd]
      omega

section

variable {w w' unlocked : World} {owner owner' taker taker' : Account} {kind : ResourceCode}
variable {items : List FreezeV2} {now expire : Int}

theorem FreezesV2.conserves {c : FreezeBalanceV2} (h : FreezesV2 c w w' owner owner' kind items)
    (ho : owner.position.Owned) (ha : c.frozenBalance ≤ owner.balance) :
    Conserves owner.position owner'.position := by
  have hsum := sum_addFrozenV2Items h.items_eq
  have he : 0 < c.frozenBalance := lt_of_lt_of_le (by decide) h.enough
  have hs := stakedIn_nonneg ho.frozenV2 kind
  rw [h.position_eq]
  refine ⟨⟨Int.sub_nonneg.mpr ha, ho.legacy, ?_, ho.unfrozenV2⟩, ?_⟩
  · exact owned_addFrozenV2Items h.items_eq ho.frozenV2 (Int.add_nonneg hs he.le)
  · rw [funds, funds]
    dsimp only
    rw [hsum]
    dsimp only [Account.position]
    omega

theorem UnfreezesV2.conserves {c : UnfreezeBalanceV2}
    (h : UnfreezesV2 c w w' owner owner' kind items now expire) (ho : owner.position.Owned)
    (hf : (owner.unfrozenV2.map UnFreezeV2.unfreezeAmount).sum ≤ i64Max) :
    Conserves owner.position owner'.position := by
  have hsum := sum_addFrozenV2Items h.items_eq
  obtain ⟨he, hadd⟩ := expiredAmount_add now ho.unfrozenV2 hf
  have hcovered := h.covered
  rw [h.position_eq]
  refine ⟨⟨Int.add_nonneg ho.balance he, ho.legacy, ?_, fun item hm => ?_⟩, ?_⟩
  · refine owned_addFrozenV2Items h.items_eq ho.frozenV2 ?_
    rw [staked] at hcovered
    dsimp only [Account.position] at hcovered
    omega
  · rcases List.mem_append.mp hm with hm | hm
    · exact ho.unfrozenV2 item (List.mem_of_mem_filter hm)
    · rw [List.mem_singleton.mp hm]
      exact h.positive.le
  · rw [funds, funds]
    dsimp only
    rw [hsum, List.map_append, List.sum_append, List.map_singleton, List.sum_singleton]
    dsimp only [Account.position] at hadd ⊢
    omega

theorem Withdraws.conserves {c : WithdrawExpireUnfreeze} (h : Withdraws c w w' owner owner' now)
    (ho : owner.position.Owned)
    (hf : (owner.unfrozenV2.map UnFreezeV2.unfreezeAmount).sum ≤ i64Max) :
    Conserves owner.position owner'.position := by
  obtain ⟨he, hadd⟩ := expiredAmount_add now ho.unfrozenV2 hf
  rw [h.position_eq]
  refine ⟨⟨Int.add_nonneg ho.balance he, ho.legacy, ho.frozenV2,
    fun item hm => ho.unfrozenV2 item (List.mem_of_mem_filter hm)⟩, ?_⟩
  rw [funds, funds]
  dsimp only [Account.position] at hadd ⊢
  omega

theorem CancelsAll.conserves {c : CancelAllUnfreezeV2} (h : CancelsAll c w w' owner owner' now)
    (ho : owner.position.Owned) : Conserves owner.position owner'.position := by
  obtain ⟨hown, hfunds⟩ := h.cancels.conserves ho.unfrozenV2
    ⟨ho.balance, ho.legacy, ho.frozenV2, fun item hm => (List.not_mem_nil hm).elim⟩
  refine ⟨hown, ?_⟩
  rw [hfunds, funds, funds]
  dsimp only [Account.position]
  rw [List.map_nil, List.sum_nil]
  omega

theorem FreezesOwn.conserves {c : FreezeBalance} (h : FreezesOwn c w w' owner owner' kind expire)
    (ho : owner.position.Owned) (ha : c.frozenBalance ≤ owner.balance)
    (hf : ((owner.position.legacy .bandwidth).map Frozen.frozenBalance).sum ≤ i64Max) :
    Conserves owner.position owner'.position := by
  have he : 0 < c.frozenBalance := lt_of_lt_of_le (by decide) h.enough
  have hown : owner.position.own kind =
      ((owner.position.legacy kind).map Frozen.frozenBalance).sum :=
    ownIn_eq_sum (ho.legacy kind) fun hk => hk ▸ hf
  have hs := sum_map_nonneg (ho.legacy kind)
  rw [h.position_eq]
  refine ⟨⟨Int.sub_nonneg.mpr ha, legacy_update ho.legacy fun item hm => ?_, ho.frozenV2,
    ho.unfrozenV2⟩, ?_⟩
  · rw [List.mem_singleton.mp hm]
    dsimp only
    omega
  · rw [funds, funds]
    dsimp only
    rw [sum_legacy_update, List.map_singleton, List.sum_singleton, hown, balance_position]
    dsimp only
    omega

theorem UnfreezesOwn.conserves {c : UnfreezeBalance} {amount : Int}
    (h : UnfreezesOwn c w w' owner owner' kind now amount) (ho : owner.position.Owned)
    (hf : ((owner.position.legacy .bandwidth).map Frozen.frozenBalance).sum ≤ i64Max) :
    Conserves owner.position owner'.position := by
  have hsum := sum_filter_add Frozen.frozenBalance (fun item => item.expireTime ≤ now)
    (owner.position.legacy kind)
  have hin : ∀ item ∈ (owner.position.legacy kind).filter fun item => item.expireTime ≤ now,
      0 ≤ item.frozenBalance := fun item hm => ho.legacy kind item (List.mem_of_mem_filter hm)
  have hout : ∀ item ∈ (owner.position.legacy kind).filter fun item => ¬ item.expireTime ≤ now,
      0 ≤ item.frozenBalance := fun item hm => ho.legacy kind item (List.mem_of_mem_filter hm)
  have hi := sum_map_nonneg hin
  have hu := sum_map_nonneg hout
  have hamount : amount = (((owner.position.legacy kind).filter fun item =>
      item.expireTime ≤ now).map Frozen.frozenBalance).sum := by
    refine h.amount_eq.trans (ownIn_eq_sum hin fun hk => ?_)
    subst hk
    omega
  rw [h.position_eq]
  refine ⟨⟨Int.add_nonneg ho.balance (hamount ▸ hi), legacy_update ho.legacy hout, ho.frozenV2,
    ho.unfrozenV2⟩, ?_⟩
  rw [funds, funds]
  dsimp only
  rw [sum_legacy_update, balance_position]
  omega

theorem Lends.conserves {c : DelegateResource}
    (h : Lends c w w' owner owner' taker taker' kind items unlocked now expire)
    (ho : owner.position.Owned) : Conserves owner.position owner'.position := by
  have hsum := sum_addFrozenV2Items h.items_eq
  have hlent := sum_update (f := owner.position.lent) h.lendable c.balance
  have hcovered := h.covered
  rw [h.owner_eq]
  refine ⟨⟨ho.balance, ho.legacy, owned_addFrozenV2Items h.items_eq ho.frozenV2 ?_,
    ho.unfrozenV2⟩, ?_⟩
  · rw [staked] at hcovered
    dsimp only [Account.position] at hcovered
    omega
  · rw [funds, funds]
    dsimp only
    rw [hlent, hsum]
    dsimp only [Account.position]
    omega

theorem Returns.conserves {c : UnDelegateResource} {record : DelegatedResource} {existed : Bool}
    {taker taker' : Option Account}
    (h : Returns c w w' owner owner' taker taker' kind items unlocked record existed now)
    (ho : owner.position.Owned) : Conserves owner.position owner'.position := by
  have hsum := sum_addFrozenV2Items h.items_eq
  have hlent := sum_update (f := owner.position.lent) h.lendable (-c.balance)
  have hs := stakedIn_nonneg ho.frozenV2 kind
  rw [h.owner_eq]
  refine ⟨⟨ho.balance, ho.legacy, owned_addFrozenV2Items h.items_eq ho.frozenV2
    (Int.add_nonneg hs h.positive.le), ho.unfrozenV2⟩, ?_⟩
  rw [funds, funds, Int.sub_eq_add_neg]
  dsimp only
  rw [hlent, hsum]
  dsimp only [Account.position]
  omega

theorem FreezesFor.conserves {c : FreezeBalance}
    (h : FreezesFor c w w' owner owner' taker taker' kind now expire) (ho : owner.position.Owned)
    (ha : c.frozenBalance ≤ owner.balance) : Conserves owner.position owner'.position := by
  have hlent := sum_update (f := owner.position.lentLegacy) h.lendable c.frozenBalance
  rw [h.owner_eq]
  refine ⟨⟨Int.sub_nonneg.mpr ha, ho.legacy, ho.frozenV2, ho.unfrozenV2⟩, ?_⟩
  rw [funds, funds]
  dsimp only
  rw [hlent, balance_position]
  omega

theorem UnfreezesFor.conserves {c : UnfreezeBalance} {row : DelegatedResource}
    (h : UnfreezesFor c w w' owner owner' kind row) (ho : owner.position.Owned)
    (hr : ∀ k, 0 ≤ rowAmount row k) : Conserves owner.position owner'.position := by
  have hlent := sum_update (f := owner.position.lentLegacy) (lentKind_ne kind)
    (-rowAmount row (lentKind kind))
  rw [h.owner_eq, Int.sub_eq_add_neg]
  refine ⟨⟨Int.add_nonneg ho.balance (hr _), ho.legacy, ho.frozenV2, ho.unfrozenV2⟩, ?_⟩
  rw [funds, funds]
  dsimp only
  rw [hlent, balance_position]
  omega

end

theorem Conserves.holds {p p' : Position} {held heldLegacy : ResourceCode → Int} (hp : p.Owned)
    (h : p' = { p with held, heldLegacy }) : Conserves p p' := by
  subst h
  exact ⟨⟨hp.balance, hp.legacy, hp.frozenV2, hp.unfrozenV2⟩, rfl⟩

/-! ## All accounts together -/

/-- What all accounts own. -/
def totalFunds (w : World) : Int := w.accounts.total fun a => a.position.funds

/-- The ledger is in order, no part of what an account owns is negative, and what all accounts own
is an `i64`. -/
structure Solvent (w : World) : Prop where
  ledger : Ledger w
  owned : ∀ address a, w.accounts.get address = some a → a.position.Owned
  bounded : totalFunds w ≤ i64Max

namespace Solvent

variable {cfg : ExecutionConfig} {w w' : World} {owner owner' : Account}

theorem covered (h : Solvent w) {address : Bytes} {a : Account}
    (ha : w.accounts.get address = some a) : a.position.Covered :=
  ⟨h.owned address a ha, h.ledger.lent_nonneg ha⟩

theorem funds_le (h : Solvent w) {address : Bytes} {a : Account}
    (ha : w.accounts.get address = some a) : a.position.funds ≤ totalFunds w := by
  have herase := FMap.total_erase (fun (_ : Bytes) (b : Account) => b.position.funds) ha
  have hrest : 0 ≤ FMap.total (fun (_ : Bytes) (b : Account) => b.position.funds)
      (w.accounts.rows.erase address) := by
    refine FMap.total_nonneg fun k b hb => ?_
    by_cases hk : k = address
    · rw [hk, Finmap.lookup_erase] at hb
      cases hb
    · rw [Finmap.lookup_erase_ne hk] at hb
      exact (h.covered hb).parts_le.1
  rw [totalFunds, Accounts.total, ← herase]
  omega

theorem unstaking_le (h : Solvent w) {address : Bytes} {a : Account}
    (ha : w.accounts.get address = some a) :
    (a.unfrozenV2.map UnFreezeV2.unfreezeAmount).sum ≤ i64Max :=
  ((h.covered ha).parts_le.2.1.trans (h.funds_le ha)).trans h.bounded

theorem legacy_le (h : Solvent w) {address : Bytes} {a : Account}
    (ha : w.accounts.get address = some a) :
    ((a.position.legacy .bandwidth).map Frozen.frozenBalance).sum ≤ i64Max :=
  ((h.covered ha).parts_le.2.2.trans (h.funds_le ha)).trans h.bounded

theorem saves {r : Bytes} (h : Solvent w) (hl : Ledger w')
    (hf : w.accounts.get owner'.address = some owner)
    (hc : Conserves owner.position owner'.position)
    (hs : w'.accounts = w.accounts.put owner' ∨ ∃ a b, w.accounts.get r = some a ∧
      b.address = r ∧ owner'.address ≠ r ∧ w'.accounts = (w.accounts.put owner').put b ∧
      Conserves a.position b.position) : totalFunds w' = totalFunds w ∧ Solvent w' := by
  have htotal : (w.accounts.put owner').total (fun a => a.position.funds) = totalFunds w := by
    have he := hc.funds_eq
    rw [Accounts.total_put _ hf, totalFunds]
    omega
  have hown : ∀ k b, (w.accounts.put owner').get k = some b → b.position.Owned := by
    intro k b hb
    rw [Accounts.get_put] at hb
    split at hb
    · obtain rfl := Option.some.inj hb
      exact hc.owned
    · exact h.owned k b hb
  rcases hs with ha | ⟨a, b, hr, hb, hne, ha, hcr⟩
  · have hfunds : totalFunds w' = totalFunds w := by rw [totalFunds, ha, htotal]
    exact ⟨hfunds, hl, ha ▸ hown, hfunds ▸ h.bounded⟩
  · have hr' : (w.accounts.put owner').get b.address = some a := by
      rw [Accounts.get_put_of_ne _ (by rw [hb]; exact Ne.symm hne), hb, hr]
    have hfunds : totalFunds w' = totalFunds w := by
      have he := hcr.funds_eq
      rw [totalFunds, ha, Accounts.total_put _ hr', htotal]
      omega
    refine ⟨hfunds, hl, fun k x hx => ?_, hfunds ▸ h.bounded⟩
    rw [ha, Accounts.get_put] at hx
    split at hx
    · obtain rfl := Option.some.inj hx
      exact hcr.owned
    · exact hown k x hx

theorem savesOwner {address : Bytes} (h : Solvent w)
    (hs : SavesOwner w w' address owner owner') (hl : Ledger w')
    (hc : Conserves owner.position owner'.position) : totalFunds w' = totalFunds w ∧ Solvent w' :=
  h.saves (r := address) hl (hs.address_eq.symm ▸ hs.found) hc (.inl hs.accounts_eq)

theorem lends {c : DelegateResource} {unlocked : World} {taker taker' : Account}
    {kind : ResourceCode} {items : List FreezeV2} {now expire : Int} (h : Solvent w)
    (he : Lends c w w' owner owner' taker taker' kind items unlocked now expire) :
    totalFunds w' = totalFunds w ∧ Solvent w' :=
  h.saves (he.ledger h.ledger) (he.ownerAddress_eq.symm ▸ he.foundOwner)
    (he.conserves (h.owned _ _ he.foundOwner))
    (.inr ⟨taker, taker', he.foundReceiver, he.receiverAddress_eq,
      he.ownerAddress_eq.symm ▸ he.distinct, he.accounts_eq,
      .holds (h.owned _ _ he.foundReceiver) he.taker_eq⟩)

theorem freezesFor {c : FreezeBalance} {taker taker' : Account} {kind : ResourceCode}
    {now expire : Int} (h : Solvent w)
    (he : FreezesFor c w w' owner owner' taker taker' kind now expire)
    (ha : c.frozenBalance ≤ owner.balance) : totalFunds w' = totalFunds w ∧ Solvent w' :=
  h.saves (he.ledger h.ledger) (he.ownerAddress_eq.symm ▸ he.foundOwner)
    (he.conserves (h.owned _ _ he.foundOwner) ha)
    (.inr ⟨taker, taker', he.foundReceiver, he.receiverAddress_eq,
      he.ownerAddress_eq.symm ▸ he.distinct, he.accounts_eq,
      .holds (h.owned _ _ he.foundReceiver) he.taker_eq⟩)

theorem returns {c : UnDelegateResource} {unlocked : World} {taker taker' : Option Account}
    {kind : ResourceCode} {items : List FreezeV2} {record : DelegatedResource} {existed : Bool}
    {now : Int} (h : Solvent w)
    (he : Returns c w w' owner owner' taker taker' kind items unlocked record existed now) :
    totalFunds w' = totalFunds w ∧ Solvent w' := by
  refine h.saves (r := c.receiverAddress) (he.ledger h.ledger)
    (he.ownerAddress_eq.symm ▸ he.foundOwner) (he.conserves (h.owned _ _ he.foundOwner)) ?_
  have ht := he.taker_eq
  have hf := he.foundReceiver
  cases taker with
  | none => exact .inl ht.2
  | some a =>
    obtain ⟨b, -, had, hb, ha⟩ := ht
    exact .inr ⟨a, b, hf, had, he.ownerAddress_eq.symm ▸ he.distinct, ha,
      .holds (h.owned _ _ hf) hb⟩

theorem unfreezesFor {c : UnfreezeBalance} {kind : ResourceCode} {row : DelegatedResource}
    (h : Solvent w) (he : UnfreezesFor c w w' owner owner' kind row) :
    totalFunds w' = totalFunds w ∧ Solvent w' := by
  refine h.saves (r := c.receiverAddress) (he.ledger h.ledger)
    (he.ownerAddress_eq.symm ▸ he.foundOwner)
    (he.conserves (h.owned _ _ he.foundOwner) (h.ledger.rows _ _ he.foundRow).nonneg) ?_
  have ht := he.taker_eq
  cases hf : w.accounts.get c.receiverAddress with
  | none =>
    rw [hf] at ht
    exact .inl ht
  | some a =>
    rw [hf] at ht
    obtain ⟨b, had, -, hb, ha⟩ := ht
    exact .inr ⟨a, b, rfl, had, he.ownerAddress_eq.symm ▸ he.distinct, ha,
      .holds (h.owned _ _ hf) hb⟩

end Solvent

theorem FreezeBalance.affordable {c : FreezeBalance} {w : World} {owner : Account}
    (h : c.validate w = .ok ()) (hf : w.accounts.get c.ownerAddress = some owner) :
    c.frozenBalance ≤ owner.balance := by
  simp only [FreezeBalance.validate, bind_eq_ok_iff, refuseIf_eq_ok_iff, not_lt] at h
  obtain ⟨_, ho, -, -, -, -, -, -, -, hle, -⟩ := h
  obtain rfl := Option.some.inj (hf.symm.trans (validateOwner_ok ho).2)
  exact hle

theorem FreezeBalanceV2.affordable {c : FreezeBalanceV2} {w : World} {owner : Account}
    (h : c.validate w = .ok ()) (hf : w.accounts.get c.ownerAddress = some owner) :
    c.frozenBalance ≤ owner.balance := by
  simp only [FreezeBalanceV2.validate, bind_eq_ok_iff, refuseIf_eq_ok_iff, not_lt] at h
  obtain ⟨_, -, -, -, _, ho, -, -, -, -, -, hle, -⟩ := h
  obtain rfl := Option.some.inj (hf.symm.trans (validateOwner_ok ho).2)
  exact hle

theorem Operation.validate_of_execute {cfg : ExecutionConfig} {w w' : World} {op : Operation}
    {result : ActuatorResult} (h : op.execute cfg w = .ok (w', result)) :
    op.validate cfg w = .ok () := by
  rw [Operation.execute, bind_eq_ok_iff] at h
  obtain ⟨⟨⟩, hv, -⟩ := h
  exact hv

/-- **Every operation** keeps what all accounts own together, and makes no part of it negative. -/
theorem Solvent.execute {cfg : ExecutionConfig} {w w' : World} {op : Operation}
    {result : ActuatorResult} (h : Solvent w) (hexe : op.execute cfg w = .ok (w', result)) :
    totalFunds w' = totalFunds w ∧ Solvent w' := by
  have hl := h.ledger.execute hexe
  have hv := Operation.validate_of_execute hexe
  cases op with
  | freezeBalance c =>
    rcases FreezeBalance.execute_effect hexe with ⟨-, owner, owner', kind, expire, he⟩ |
      ⟨-, owner, owner', taker, taker', kind, now, expire, he⟩
    · exact h.savesOwner he.toSavesOwner hl (he.conserves (h.owned _ _ he.found)
        (FreezeBalance.affordable hv he.found) (h.legacy_le he.found))
    · exact h.freezesFor he (FreezeBalance.affordable hv he.foundOwner)
  | unfreezeBalance c =>
    rcases UnfreezeBalance.execute_effect hexe with
      ⟨-, owner, owner', kind, now, amount, he⟩ | ⟨-, owner, owner', kind, row, he⟩
    · exact h.savesOwner he.toSavesOwner hl
        (he.conserves (h.owned _ _ he.found) (h.legacy_le he.found))
    · exact h.unfreezesFor he
  | freezeBalanceV2 c =>
    obtain ⟨owner, owner', kind, items, he⟩ := FreezeBalanceV2.execute_effect hexe
    exact h.savesOwner he.toSavesOwner hl
      (he.conserves (h.owned _ _ he.found) (FreezeBalanceV2.affordable hv he.found))
  | unfreezeBalanceV2 c =>
    obtain ⟨owner, owner', kind, items, now, expire, he⟩ :=
      UnfreezeBalanceV2.execute_effect hexe
    exact h.savesOwner he.toSavesOwner hl
      (he.conserves (h.owned _ _ he.found) (h.unstaking_le he.found))
  | delegateResource c =>
    obtain ⟨owner, owner', taker, taker', kind, items, unlocked, now, expire, he⟩ :=
      DelegateResource.execute_effect hexe
    exact h.lends he
  | unDelegateResource c =>
    obtain ⟨owner, owner', taker, taker', kind, items, unlocked, record, existed, now, he⟩ :=
      UnDelegateResource.execute_effect hexe
    exact h.returns he
  | cancelAllUnfreezeV2 c =>
    obtain ⟨owner, owner', now, he⟩ := CancelAllUnfreezeV2.execute_effect hexe
    exact h.savesOwner he.toSavesOwner hl (he.conserves (h.owned _ _ he.found))
  | withdrawExpireUnfreeze c =>
    obtain ⟨owner, owner', now, he⟩ := WithdrawExpireUnfreeze.execute_effect hexe
    exact h.savesOwner he.toSavesOwner hl
      (he.conserves (h.owned _ _ he.found) (h.unstaking_le he.found))

/-- **Every run** of staking operations keeps what all accounts own together, and no part of it
becomes negative. -/
theorem funds_of_run {cfg : ExecutionConfig} {Allowed : World → Operation → Prop}
    {start w : World} (run : Run cfg Allowed start w) (hstart : Solvent start) :
    totalFunds w = totalFunds start ∧ Solvent w := by
  induction run with
  | refl => exact ⟨rfl, hstart⟩
  | execute _ _ hs ih =>
    obtain ⟨hfunds, h⟩ := ih.2.execute hs
    exact ⟨hfunds.trans ih.1, h⟩
  | advance _ _ ih =>
    obtain ⟨hfunds, h⟩ := ih
    exact ⟨hfunds, ⟨h.ledger.rows, h.ledger.lent, h.ledger.held, h.ledger.fits⟩, h.owned,
      h.bounded⟩

theorem Sample.solvent_world : Solvent Sample.world := by
  refine ⟨Sample.undelegated_world.ledger, fun address a ha => ?_, by decide⟩
  rcases Sample.get_world ha with rfl | rfl <;>
    exact ⟨by decide, fun k => by cases k <;> exact nofun, nofun, nofun⟩

/-- A hundred TRX are a hundred TRX after ten of them have been frozen for another account. -/
theorem funds_sample_frozen :
    totalFunds Sample.frozen = totalFunds Sample.world ∧ Solvent Sample.frozen :=
  have hrun : Run Sample.config (fun _ _ => True) Sample.world Sample.frozen :=
    Sample.run_frozen trivial
  funds_of_run hrun Sample.solvent_world

end RustTron.Actuator
