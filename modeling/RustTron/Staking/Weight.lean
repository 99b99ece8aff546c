import RustTron.Staking.Runs

/-!
# The total weight of a resource

The total weight of a resource is the sum of what every account has staked of it, each part in whole
TRX. With `ALLOW_NEW_REWARD` every operation moves the total as it moves the account that stakes,
except for one: a legacy stake for a receiver adds nothing to the total, and taking it back still
subtracts it.

## Main definitions

* `Position.Sound`: no stake of an account is negative
* `Weighed`: every total weight is the sum over the accounts
* `Unstaked`: a state without stake
* `TakesNothingBack`: an operation takes no legacy stake back from a receiver

## Main results

* `Weighed.execute`: an operation that takes nothing back keeps the total weights
* `Run.weighed`: so does a run of them
* `totalWeight_nonneg_of_run`: no total weight is negative, and without stake it is zero
-/

namespace RustTron

open Actuator

namespace Position

/-- No stake of an account is negative, and the legacy stake for bandwidth can be added up. -/
structure Sound (p : Position) : Prop where
  legacy : ∀ k, ∀ item ∈ p.legacy k, 0 ≤ item.frozenBalance
  fits : ((p.legacy .bandwidth).map Frozen.frozenBalance).sum ≤ i64Max
  staked : ∀ k, 0 ≤ p.staked k
  unstaking : ∀ item ∈ p.unfrozenV2, 0 ≤ item.unfreezeAmount

theorem sum_nonneg {items : List Frozen} (h : ∀ item ∈ items, 0 ≤ item.frozenBalance) :
    0 ≤ (items.map Frozen.frozenBalance).sum := by
  refine List.sum_nonneg fun x hx => ?_
  obtain ⟨item, hi, rfl⟩ := List.mem_map.mp hx
  exact h item hi

theorem Sound.own_eq {p : Position} (h : p.Sound) (k : ResourceCode) :
    p.own k = ((p.legacy k).map Frozen.frozenBalance).sum := by
  unfold own ownIn
  split
  · next hk =>
    subst hk
    have hn := sum_nonneg (h.legacy .bandwidth)
    have hf := h.fits
    refine wrap_of_inI64 ⟨?_, hf⟩
    unfold i64Min
    omega
  · rfl

theorem Sound.own_nonneg {p : Position} (h : p.Sound) (k : ResourceCode) : 0 ≤ p.own k := by
  rw [h.own_eq]
  exact sum_nonneg (h.legacy k)

theorem Sound.weight_nonneg {p : Position} (h : p.Sound) {k : ResourceCode} (hl : 0 ≤ p.lent k) :
    0 ≤ p.weight k := by
  have hp : 0 ≤ trxPrecision := by decide
  have hs := h.staked k
  exact add_nonneg (Int.tdiv_nonneg (h.own_nonneg k) hp)
    (Int.tdiv_nonneg (add_nonneg hs hl) hp)

theorem Sound.staked_add {p : Position} (h : p.Sound) {kind : ResourceCode} {delta : Int}
    {items : List FreezeV2} (hi : addFrozenV2Items kind delta p.frozenV2 = .ok items)
    (hd : 0 ≤ p.staked kind + delta) (k : ResourceCode) : 0 ≤ stakedIn items k := by
  rw [stakedIn_addFrozenV2Items hi k]
  split
  · next hk =>
    rw [hk]
    exact hd
  · rw [add_zero]
    exact h.staked k

/-- The stake that an account has itself is as it was. -/
structure SameStake (p p' : Position) : Prop where
  legacy_eq : p'.legacy = p.legacy
  frozenV2_eq : p'.frozenV2 = p.frozenV2
  unfrozenV2_eq : p'.unfrozenV2 = p.unfrozenV2
  lent_eq : p'.lent = p.lent

theorem SameStake.weight_eq {p p' : Position} (h : SameStake p p') (k : ResourceCode) :
    p'.weight k = p.weight k := by
  rw [weight, weight, own, own, staked, staked, h.legacy_eq, h.frozenV2_eq, h.lent_eq]

theorem SameStake.sound {p p' : Position} (h : SameStake p p') (hp : p.Sound) : p'.Sound := by
  constructor
  · rw [h.legacy_eq]
    exact hp.legacy
  · rw [h.legacy_eq]
    exact hp.fits
  · intro k
    rw [staked, h.frozenV2_eq]
    exact hp.staked k
  · rw [h.unfrozenV2_eq]
    exact hp.unstaking

end Position

end RustTron

namespace RustTron.Actuator

open Position

variable {w w' : World} {owner owner' : Account} {kind : ResourceCode}

/-! ## The invariant -/

/-- Every total weight is the sum over the accounts, and no stake is negative. -/
structure Weighed (w : World) : Prop where
  ledger : Ledger w
  total : ∀ k, totalWeight w.dynamicProperties k =
    some (w.accounts.total fun a => a.position.weight k)
  sound : ∀ address a, w.accounts.get address = some a → a.position.Sound

theorem SavesOwner.weighed {address : Bytes} (h : SavesOwner w w' address owner owner')
    (hf : Follows w.dynamicProperties w'.dynamicProperties owner.position owner'.position)
    (hl : Ledger w') (hw : Weighed w) (hs : owner.position.Sound → owner'.position.Sound) :
    Weighed w' := by
  refine ⟨hl, fun k => ?_, fun k b hb => ?_⟩
  · have hfo : w.accounts.get owner'.address = some owner := h.address_eq.symm ▸ h.found
    rw [hf.weight k _ (hw.total k), h.accounts_eq, Accounts.total_put _ hfo]
    refine congrArg some ?_
    omega
  · rw [h.accounts_eq, Accounts.get_put] at hb
    split at hb
    · obtain rfl := Option.some.inj hb
      exact hs (hw.sound _ _ h.found)
    · exact hw.sound k b hb

/-- The accounts after a delegation: the owner is saved, and the receiver, if it is there, with its
own stake as it was. -/
def SavesReceiver (w w' : World) (r : Bytes) (owner' : Account) : Prop :=
  w'.accounts = w.accounts.put owner' ∨
    ∃ a b, w.accounts.get r = some a ∧ b.address = r ∧
      w'.accounts = (w.accounts.put owner').put b ∧ SameStake a.position b.position

theorem Weighed.delegation {s r : Bytes} (hw : Weighed w) (hl : Ledger w') (hne : s ≠ r)
    (hf : w.accounts.get s = some owner) (had : owner'.address = s)
    (hwe : ∀ k, owner'.position.weight k = owner.position.weight k) (hsou : owner'.position.Sound)
    (ht : ∀ k total, totalWeight w.dynamicProperties k = some total →
      totalWeight w'.dynamicProperties k = some total) (hre : SavesReceiver w w' r owner') :
    Weighed w' := by
  have hf' : w.accounts.get owner'.address = some owner := had.symm ▸ hf
  have hp : ∀ k, (w.accounts.put owner').total (fun a => a.position.weight k) =
      w.accounts.total fun a => a.position.weight k := by
    intro k
    have hk := hwe k
    rw [Accounts.total_put _ hf']
    omega
  have hps : ∀ address b, (w.accounts.put owner').get address = some b →
      b.position.Sound := by
    intro address b hb
    rw [Accounts.get_put] at hb
    split at hb
    · obtain rfl := Option.some.inj hb
      exact hsou
    · exact hw.sound address b hb
  rcases hre with ha | ⟨a, taker, hso, hr, ha, hs⟩
  · refine ⟨hl, fun k => ?_, fun address b hb => ?_⟩
    · rw [ht k _ (hw.total k), ha, hp]
    · exact hps address b (ha ▸ hb)
  · have hs' : (w.accounts.put owner').get taker.address = some a := by
      rw [Accounts.get_put_of_ne _ (by rw [hr, had]; exact Ne.symm hne), hr, hso]
    refine ⟨hl, fun k => ?_, fun address b hb => ?_⟩
    · have hk := hs.weight_eq k
      rw [ht k _ (hw.total k), ha, Accounts.total_put _ hs', hp]
      refine congrArg some ?_
      omega
    · rw [ha, Accounts.get_put] at hb
      split at hb
      · obtain rfl := Option.some.inj hb
        exact hs.sound (hw.sound _ _ hso)
      · exact hps address b hb

/-! ## The stake after each operation -/

theorem FreezesV2.sound {c : FreezeBalanceV2} {items : List FreezeV2}
    (h : FreezesV2 c w w' owner owner' kind items) (hs : owner.position.Sound) :
    owner'.position.Sound := by
  have hp : 0 < c.frozenBalance := lt_of_lt_of_le (by decide) h.enough
  have hst := hs.staked kind
  rw [h.position_eq]
  exact ⟨hs.legacy, hs.fits, hs.staked_add h.items_eq (by omega), hs.unstaking⟩

theorem unstaking_pendingItems {now : Int} {items : List UnFreezeV2}
    (h : ∀ item ∈ items, 0 ≤ item.unfreezeAmount) :
    ∀ item ∈ pendingItems now items, 0 ≤ item.unfreezeAmount :=
  fun item hi => h item (List.mem_of_mem_filter hi)

theorem UnfreezesV2.sound {c : UnfreezeBalanceV2} {items : List FreezeV2} {now expire : Int}
    (h : UnfreezesV2 c w w' owner owner' kind items now expire) (hs : owner.position.Sound) :
    owner'.position.Sound := by
  have hc := h.covered
  have hp := h.positive
  rw [h.position_eq]
  refine ⟨hs.legacy, hs.fits, hs.staked_add h.items_eq (by omega), fun item hi => ?_⟩
  rcases List.mem_append.mp hi with ho | hn
  · exact unstaking_pendingItems hs.unstaking item ho
  · rw [List.mem_singleton.mp hn]
    exact hp.le

theorem Withdraws.sound {c : WithdrawExpireUnfreeze} {now : Int}
    (h : Withdraws c w w' owner owner' now) (hs : owner.position.Sound) :
    owner'.position.Sound := by
  rw [h.position_eq]
  exact ⟨hs.legacy, hs.fits, hs.staked, unstaking_pendingItems hs.unstaking⟩

theorem CancelsTo.sound {now : Int} {items : List UnFreezeV2} {p p' : Position}
    (h : CancelsTo now p items p') (hi : ∀ item ∈ items, 0 ≤ item.unfreezeAmount)
    (hs : p.Sound) : p'.Sound := by
  induction items generalizing p with
  | nil =>
    rw [CancelsTo] at h
    exact h ▸ hs
  | cons item items ih =>
    have hit := hi item List.mem_cons_self
    have hr : ∀ item ∈ items, 0 ≤ item.unfreezeAmount :=
      fun item hm => hi item (List.mem_cons_of_mem _ hm)
    rw [CancelsTo] at h
    split at h
    · exact ih h hr ⟨hs.legacy, hs.fits, hs.staked, hs.unstaking⟩
    · obtain ⟨kind, staked, -, hst, h⟩ := h
      have ho := hs.staked kind
      exact ih h hr ⟨hs.legacy, hs.fits, hs.staked_add hst (by omega), hs.unstaking⟩

theorem CancelsAll.sound {c : CancelAllUnfreezeV2} {now : Int}
    (h : CancelsAll c w w' owner owner' now) (hs : owner.position.Sound) :
    owner'.position.Sound := by
  refine h.cancels.sound hs.unstaking ⟨hs.legacy, hs.fits, hs.staked, fun item hi => ?_⟩
  cases hi

theorem FreezesOwn.sound {c : FreezeBalance} {expire : Int}
    (h : FreezesOwn c w w' owner owner' kind expire) (hs : owner.position.Sound) :
    owner'.position.Sound := by
  have hp : 0 < c.frozenBalance := lt_of_lt_of_le (by decide) h.enough
  have ho := hs.own_nonneg kind
  have hf := h.fits.2
  rw [h.position_eq]
  refine ⟨fun k item hi => ?_, ?_, hs.staked, hs.unstaking⟩
  · dsimp only at hi
    by_cases hk : k = kind
    · subst hk
      rw [Function.update_self, List.mem_singleton] at hi
      rw [hi]
      dsimp only
      omega
    · rw [Function.update_of_ne hk] at hi
      exact hs.legacy k item hi
  · dsimp only
    by_cases hk : ResourceCode.bandwidth = kind
    · subst hk
      rw [Function.update_self]
      simpa using hf
    · rw [Function.update_of_ne hk]
      exact hs.fits

theorem sum_filter_le {items : List Frozen} (h : ∀ item ∈ items, 0 ≤ item.frozenBalance)
    (keep : Frozen → Bool) :
    ((items.filter keep).map Frozen.frozenBalance).sum ≤ (items.map Frozen.frozenBalance).sum := by
  induction items with
  | nil => exact le_rfl
  | cons item items ih =>
    have hi := h item List.mem_cons_self
    have hr := ih fun item hm => h item (List.mem_cons_of_mem _ hm)
    rw [List.filter_cons]
    split <;> simp only [List.map_cons, List.sum_cons] <;> omega

theorem UnfreezesOwn.sound {c : UnfreezeBalance} {now amount : Int}
    (h : UnfreezesOwn c w w' owner owner' kind now amount) (hs : owner.position.Sound) :
    owner'.position.Sound := by
  rw [h.position_eq]
  refine ⟨fun k item hi => ?_, ?_, hs.staked, hs.unstaking⟩
  · dsimp only at hi
    by_cases hk : k = kind
    · subst hk
      rw [Function.update_self] at hi
      exact hs.legacy k item (List.mem_of_mem_filter hi)
    · rw [Function.update_of_ne hk] at hi
      exact hs.legacy k item hi
  · dsimp only
    by_cases hk : ResourceCode.bandwidth = kind
    · subst hk
      rw [Function.update_self]
      exact (sum_filter_le (hs.legacy .bandwidth) _).trans hs.fits
    · rw [Function.update_of_ne hk]
      exact hs.fits

/-! ## The weights after each operation -/

theorem Lends.weighed {c : DelegateResource} {w w' unlocked : World}
    {owner owner' taker taker' : Account} {items : List FreezeV2} {now expire : Int}
    (h : Lends c w w' owner owner' taker taker' kind items unlocked now expire) (hw : Weighed w) :
    Weighed w' := by
  have hs := hw.sound _ _ h.foundOwner
  have hc := h.covered
  refine hw.delegation (h.ledger hw.ledger) h.distinct h.foundOwner h.ownerAddress_eq (fun k => ?_)
    ?_ (fun k total ht => by rw [h.props_eq, ht])
    (.inr ⟨taker, taker', h.foundReceiver, h.receiverAddress_eq, h.accounts_eq, ?_⟩)
  · refine weight_congr (by rw [own, own, h.owner_eq]) ?_
    rw [staked, h.owner_eq]
    dsimp only
    rw [stakedIn_addFrozenV2Items h.items_eq, update_eq_add_onlyKind, onlyKind]
    dsimp only [staked, Account.position]
    split <;> omega
  · rw [h.owner_eq]
    exact ⟨hs.legacy, hs.fits, hs.staked_add h.items_eq (by omega), hs.unstaking⟩
  · rw [h.taker_eq]
    exact ⟨rfl, rfl, rfl, rfl⟩

theorem Returns.weighed {c : UnDelegateResource} {w w' unlocked : World}
    {taker taker' : Option Account} {items : List FreezeV2} {record : DelegatedResource}
    {existed : Bool} {now : Int}
    (h : Returns c w w' owner owner' taker taker' kind items unlocked record existed now)
    (hw : Weighed w) : Weighed w' := by
  have hs := hw.sound _ _ h.foundOwner
  have hp := h.positive
  have hst := hs.staked kind
  refine hw.delegation (h.ledger hw.ledger) h.distinct h.foundOwner h.ownerAddress_eq (fun k => ?_)
    ?_ (fun k total hto => by rw [h.props_eq, hto]) ?_
  · refine weight_congr (by rw [own, own, h.owner_eq]) ?_
    rw [staked, h.owner_eq]
    dsimp only
    rw [stakedIn_addFrozenV2Items h.items_eq, Int.sub_eq_add_neg, update_eq_add_onlyKind, onlyKind]
    dsimp only [staked, Account.position]
    split <;> omega
  · rw [h.owner_eq]
    exact ⟨hs.legacy, hs.fits, hs.staked_add h.items_eq (by omega), hs.unstaking⟩
  · have ht := h.taker_eq
    have hf := h.foundReceiver
    cases taker with
    | none => exact .inl ht.2
    | some a =>
      obtain ⟨b, -, had, hb, ha⟩ := ht
      refine .inr ⟨a, b, hf, had, ha, ?_⟩
      rw [hb]
      exact ⟨rfl, rfl, rfl, rfl⟩

theorem FreezesFor.weighed {c : FreezeBalance} {owner owner' taker taker' : Account}
    {now expire : Int} (h : FreezesFor c w w' owner owner' taker taker' kind now expire)
    (hr : enabled w .allowNewReward = true) (hw : Weighed w) : Weighed w' := by
  have hs := hw.sound _ _ h.foundOwner
  have hsa : SameStake owner.position owner'.position := by
    rw [h.owner_eq]
    exact ⟨rfl, rfl, rfl, rfl⟩
  refine hw.delegation (h.ledger hw.ledger) h.distinct h.foundOwner h.ownerAddress_eq
    hsa.weight_eq (hsa.sound hs) (fun k total ht => ?_)
    (.inr ⟨taker, taker', h.foundReceiver, h.receiverAddress_eq, h.accounts_eq, ?_⟩)
  · rw [(h.follows hr).weight k total ht, hsa.weight_eq, sub_self, add_zero]
  · rw [h.taker_eq]
    exact ⟨rfl, rfl, rfl, rfl⟩

theorem UnfreezesFor.weighed {c : UnfreezeBalance} {row : DelegatedResource}
    (h : UnfreezesFor c w w' owner owner' kind row) (hr : enabled w .allowNewReward = true)
    (hl : rowAmount row (lentKind kind) < trxPrecision) (hw : Weighed w) : Weighed w' := by
  have hs := hw.sound _ _ h.foundOwner
  have hsa : SameStake owner.position owner'.position := by
    rw [h.owner_eq]
    exact ⟨rfl, rfl, rfl, rfl⟩
  have hz : (rowAmount row (lentKind kind)).tdiv trxPrecision = 0 :=
    Int.tdiv_eq_zero_of_lt ((hw.ledger.rows _ _ h.foundRow).nonneg _) hl
  have hse := h.weight hr
  rw [hz, neg_zero] at hse
  refine hw.delegation (h.ledger hw.ledger) h.distinct h.foundOwner h.ownerAddress_eq
    hsa.weight_eq (hsa.sound hs) (fun k total hto => ?_) ?_
  · by_cases hk : k = kind
    · subst hk
      rw [hse.totalWeight_self hto, add_zero]
    · have hne : weightName k ≠ weightName kind := fun h => hk (weightName_injective h)
      rw [← hto, totalWeight, totalWeight, hse.lookup_of_ne hne]
  · have ht := h.taker_eq
    cases hf : w.accounts.get c.receiverAddress with
    | none =>
      rw [hf] at ht
      exact .inl ht
    | some a =>
      rw [hf] at ht
      obtain ⟨b, had, -, hb, ha⟩ := ht
      refine .inr ⟨a, b, hf, had, ha, ?_⟩
      rw [hb]
      exact ⟨rfl, rfl, rfl, rfl⟩

/-- An operation takes no legacy stake of one TRX or more back from a receiver. -/
def TakesNothingBack (w : World) : Operation → Prop
  | .unfreezeBalance c => receiverPresent w c.receiverAddress = true → ∀ kind row,
      ResourceCode.ofI32? c.resource = some kind →
      w.delegatedResources.lookup (legacyResourceKey c.ownerAddress c.receiverAddress) = some row →
      rowAmount row (lentKind kind) < trxPrecision
  | _ => True

/-- **An operation that takes nothing back** keeps the total weights. -/
theorem Weighed.execute {cfg : ExecutionConfig} {w w' : World} {op : Operation}
    {result : ActuatorResult} (hw : Weighed w) (hr : enabled w .allowNewReward = true)
    (hk : TakesNothingBack w op) (hexe : op.execute cfg w = .ok (w', result)) :
    Weighed w' := by
  have hl := hw.ledger.execute hexe
  cases op with
  | freezeBalance c =>
    rcases FreezeBalance.execute_effect hexe with ⟨-, owner, owner', kind, expire, he⟩ |
      ⟨-, owner, owner', taker, taker', kind, now, expire, he⟩
    · exact he.toSavesOwner.weighed (he.follows hr) hl hw he.sound
    · exact he.weighed hr hw
  | unfreezeBalance c =>
    rcases UnfreezeBalance.execute_effect hexe with
      ⟨-, owner, owner', kind, now, amount, he⟩ |
      ⟨hp, owner, owner', kind, row, he⟩
    · exact he.toSavesOwner.weighed (he.follows hr) hl hw he.sound
    · have hle := hk hp kind row he.resource_eq he.foundRow
      exact he.weighed hr hle hw
  | freezeBalanceV2 c =>
    obtain ⟨owner, owner', kind, items, he⟩ := FreezeBalanceV2.execute_effect hexe
    exact he.toSavesOwner.weighed he.follows hl hw he.sound
  | unfreezeBalanceV2 c =>
    obtain ⟨owner, owner', kind, items, now, expire, he⟩ :=
      UnfreezeBalanceV2.execute_effect hexe
    exact he.toSavesOwner.weighed he.follows hl hw he.sound
  | delegateResource c =>
    obtain ⟨owner, owner', taker, taker', kind, items, unlocked, now, expire, he⟩ :=
      DelegateResource.execute_effect hexe
    exact he.weighed hw
  | unDelegateResource c =>
    obtain ⟨owner, owner', taker, taker', kind, items, unlocked, record, existed, now, he⟩ :=
      UnDelegateResource.execute_effect hexe
    exact he.weighed hw
  | cancelAllUnfreezeV2 c =>
    obtain ⟨owner, owner', now, he⟩ := CancelAllUnfreezeV2.execute_effect hexe
    exact he.toSavesOwner.weighed he.follows hl hw he.sound
  | withdrawExpireUnfreeze c =>
    obtain ⟨owner, owner', now, he⟩ := WithdrawExpireUnfreeze.execute_effect hexe
    refine he.toSavesOwner.weighed ?_ hl hw he.sound
    rw [he.props_eq, he.position_eq]
    exact .refl _ fun _ => rfl

/-! ## Runs -/

/-- Nobody has any stake, and every total weight is zero. Amounts that are leaving stake may be
there, and none of them is negative. -/
structure Unstaked (w : World) : Prop extends Undelegated w where
  legacy : ∀ address a, w.accounts.get address = some a →
    ∀ k, ∀ item ∈ a.position.legacy k, item.frozenBalance = 0
  frozenV2 : ∀ address a, w.accounts.get address = some a →
    ∀ item ∈ a.position.frozenV2, item.amount = 0
  unstaking : ∀ address a, w.accounts.get address = some a →
    ∀ item ∈ a.position.unfrozenV2, 0 ≤ item.unfreezeAmount
  total : ∀ k, totalWeight w.dynamicProperties k = some 0

theorem sum_eq_zero {items : List Frozen} (h : ∀ item ∈ items, item.frozenBalance = 0) :
    (items.map Frozen.frozenBalance).sum = 0 := by
  refine List.sum_eq_zero fun x hx => ?_
  obtain ⟨item, hi, rfl⟩ := List.mem_map.mp hx
  exact h item hi

theorem stakedIn_eq_zero {items : List FreezeV2} (h : ∀ item ∈ items, item.amount = 0)
    (k : ResourceCode) : stakedIn items k = 0 := by
  unfold stakedIn
  cases hf : items.find? fun item => item.type = k.toI32 with
  | none => rfl
  | some item => exact h item (List.mem_of_find?_eq_some hf)

theorem weight_eq_zero {p : Position} {k : ResourceCode} (ho : p.own k = 0)
    (hs : p.staked k = 0) (hl : p.lent k = 0) : p.weight k = 0 := by
  rw [weight, ho, hs, hl]
  rfl

theorem Unstaked.weighed {w : World} (h : Unstaked w) : Weighed w := by
  have hs : ∀ address a, w.accounts.get address = some a → a.position.Sound := by
    intro address a ha
    refine ⟨fun k item hi => (h.legacy address a ha k item hi).ge, ?_, fun k => ?_,
      h.unstaking address a ha⟩
    · rw [sum_eq_zero (h.legacy address a ha .bandwidth)]
      decide
    · exact (stakedIn_eq_zero (h.frozenV2 address a ha) k).ge
  refine ⟨h.toUndelegated.ledger, fun k => (h.total k).trans (congrArg some ?_), hs⟩
  refine (FMap.total_eq_zero fun address a ha => ?_).symm
  refine weight_eq_zero ?_ (stakedIn_eq_zero (h.frozenV2 address a ha) k)
    (h.accounts address a ha .v2 k).1
  rw [(hs address a ha).own_eq]
  exact sum_eq_zero (h.legacy address a ha k)

/-- **A run of operations that take nothing back** keeps the total weights. -/
theorem Run.weighed {cfg : ExecutionConfig} {start w : World}
    (h : Run cfg (fun w op => enabled w .allowNewReward = true ∧ TakesNothingBack w op) start w)
    (hst : Weighed start) : Weighed w := by
  induction h with
  | refl => exact hst
  | execute _ ha hs ih => exact ih.execute ha.1 ha.2 hs
  | advance run hw ih =>
    refine ⟨⟨ih.ledger.rows, ih.ledger.lent, ih.ledger.held, ih.ledger.fits⟩, fun k => ?_, ih.sound⟩
    rw [totalWeight, hw k]
    exact ih.total k

theorem Weighed.total_nonneg {w : World} (h : Weighed w) (k : ResourceCode) :
    0 ≤ w.accounts.total fun a => a.position.weight k := by
  refine FMap.total_nonneg fun address a ha => ?_
  exact (h.sound address a ha).weight_nonneg (h.ledger.lent_nonneg ha .v2 k)

/-- **The total weights of a run** that takes nothing back from receivers: none of them is negative,
and a resource of which nobody has any stake weighs nothing. -/
theorem totalWeight_nonneg_of_run {cfg : ExecutionConfig} {start w : World}
    (hrun : Run cfg (fun w op => enabled w .allowNewReward = true ∧ TakesNothingBack w op) start w)
    (hstart : Unstaked start) (k : ResourceCode) :
    ∃ total, totalWeight w.dynamicProperties k = some total ∧ 0 ≤ total ∧
      ((∀ address a, w.accounts.get address = some a → a.position.own k = 0 ∧
        a.position.staked k = 0 ∧ a.position.lentLegacy k = 0 ∧ a.position.lent k = 0) →
        total = 0) := by
  have hweighed := hrun.weighed hstart.weighed
  refine ⟨_, hweighed.total k, hweighed.total_nonneg k, fun hnone => ?_⟩
  refine FMap.total_eq_zero fun address a ha => ?_
  obtain ⟨hown, hstaked, -, hlent⟩ := hnone address a ha
  exact weight_eq_zero hown hstaked hlent

theorem Sample.unstaked_world : Unstaked Sample.world := by
  refine ⟨Sample.undelegated_world, fun address a ha k item hi => ?_,
    fun address a ha item hi => ?_, fun address a ha item hi => ?_, fun k => ?_⟩
  · rcases Sample.get_world ha with rfl | rfl <;> cases k <;> cases hi
  · rcases Sample.get_world ha with rfl | rfl <;> cases hi
  · rcases Sample.get_world ha with rfl | rfl <;> cases hi
  · cases k <;> decide

/-- A freeze for a receiver and the days after it, of which every part takes nothing back. -/
theorem totalWeight_sample_frozen :
    ∃ total, totalWeight Sample.frozen.dynamicProperties .bandwidth = some total ∧ 0 ≤ total ∧
      ((∀ address a, Sample.frozen.accounts.get address = some a →
        a.position.own .bandwidth = 0 ∧ a.position.staked .bandwidth = 0 ∧
        a.position.lentLegacy .bandwidth = 0 ∧ a.position.lent .bandwidth = 0) → total = 0) :=
  totalWeight_nonneg_of_run (Sample.run_frozen ⟨by decide, trivial⟩)
    Sample.unstaked_world .bandwidth

/-- Ten TRX frozen for a receiver and taken back leave a negative total weight. -/
theorem totalWeight_negative_after_unfreeze :
    ∃ cfg start w, Unstaked start ∧
      Run cfg (fun w _ => enabled w .allowNewReward = true) start w ∧
      totalWeight w.dynamicProperties .bandwidth = some (-10) := by
  have hfrozen : Run Sample.config (fun w _ => enabled w .allowNewReward = true) Sample.world
      Sample.frozen := Sample.run_frozen (by decide)
  refine ⟨Sample.config, Sample.world, Sample.unfreeze.after Sample.config Sample.frozen,
    Sample.unstaked_world, hfrozen.after (by decide) (by decide), ?_⟩
  decide

end RustTron.Actuator
