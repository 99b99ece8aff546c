import RustTron.Staking.Position

/-!
# What a staking operation does

One structure for each operation says everything that a successful execution has checked and
changed: the positions of the accounts it saves, the total weights, the rows and indexes of
delegated stake, and the votes. Later results are about these structures and never look into an
actuator again.

## Main definitions

* `Follows`: the total weights have moved as the weight of one account has
* `FreezesV2`, `UnfreezesV2`, `Withdraws`, `CancelsAll`, `Lends`, `Returns`, `FreezesOwn`,
  `FreezesFor`, `UnfreezesOwn`, `UnfreezesFor`: the effects of the operations

## Main results

* `FreezeBalanceV2.execute_effect` and its siblings: a successful execution has its effect
-/

namespace RustTron.Actuator

open Position

variable {cfg : ExecutionConfig} {w w' : World} {r : ActuatorResult} {kind : ResourceCode}

/-! ## Parts of an effect -/

/-- The total weights have moved as the weight of one account from `p` to `p'`, and no other
property has moved. -/
structure Follows (props props' : FMap Property Bytes) (p p' : Position) : Prop where
  weight : ∀ k total, totalWeight props k = some total →
    totalWeight props' k = some (total + (p'.weight k - p.weight k))
  missing : ∀ k, totalWeight props k = none → totalWeight props' k = none
  other : ∀ q, (∀ k, q ≠ weightName k) → props'.lookup q = props.lookup q

theorem Follows.refl (props : FMap Property Bytes) {p p' : Position}
    (h : ∀ k, p'.weight k = p.weight k) : Follows props props p p' where
  weight k total ht := by rw [ht, h k, sub_self, add_zero]
  missing _ hn := hn
  other _ _ := rfl

/-- A weight that is moved by what the account's weight moves by. -/
theorem SetsWeight.follows {delta : Int} {props props' : FMap Property Bytes} {p p' : Position}
    (h : SetsWeight props kind delta props') (hki : p'.weight kind - p.weight kind = delta)
    (ho : ∀ k, k ≠ kind → p'.weight k = p.weight k) : Follows props props' p p' := by
  have hne : ∀ k, k ≠ kind → totalWeight props' k = totalWeight props k := by
    intro k hk
    rw [totalWeight, totalWeight, h.lookup_of_ne fun h => hk (weightName_injective h)]
  refine ⟨fun k total ht => ?_, fun k hn => ?_, fun q hq => h.lookup_of_ne (hq kind)⟩
  · by_cases hk : k = kind
    · subst hk
      rw [hki, h.totalWeight_self ht]
    · rw [hne k hk, ho k hk, sub_self, add_zero, ht]
  · by_cases hk : k = kind
    · obtain ⟨total, ht, -⟩ := h
      exact absurd (hk ▸ hn) (by simp [ht])
    · rw [hne k hk, hn]

theorem Follows.trans {props props' props'' : FMap Property Bytes} {p p' p'' : Position}
    (h : Follows props props' p p') (h' : Follows props' props'' p' p'') :
    Follows props props'' p p'' := by
  refine ⟨fun k total ht => ?_, fun k hn => h'.missing k (h.missing k hn),
    fun q hq => (h'.other q hq).trans (h.other q hq)⟩
  refine (h'.weight k _ (h.weight k total ht)).trans (congrArg some ?_)
  omega

/-- A reward changes no position and no votes, and saving the account makes it irrelevant. -/
theorem Rewarded.cases {address : Bytes} {s s' : Accounts} (h : Rewarded address s s') {b : Account}
    (hb : s'.get address = some b) :
    ∃ a, s.get address = some a ∧ b.position = a.position ∧ b.votes = a.votes ∧
      (∀ k, k ≠ address → s'.get k = s.get k) ∧
      ∀ c, c.address = address → s'.put c = s.put c := by
  rcases h with rfl | ⟨a, allowance, ha, rfl⟩
  · exact ⟨b, hb, rfl, rfl, fun _ _ => rfl, fun _ _ => rfl⟩
  · have had : a.address = address := Accounts.get_address ha
    rw [← had] at hb
    obtain rfl := Option.some.inj ((Accounts.get_put_self s { a with allowance }).symm.trans hb)
    refine ⟨a, ha, rfl, rfl, fun k hk => ?_, fun c hc => ?_⟩
    · exact Accounts.get_put_of_ne s (by simpa [had] using hk)
    · exact Accounts.put_put s (hc.trans had.symm)

theorem validateOwner_ok {ending : String} {w : World} {address : Bytes} {a : Account}
    (h : ownerOr ending w address = .ok a) :
    validAddress address = true ∧ w.accounts.get address = some a := by
  simp only [ownerOr, bind_eq_ok_iff, refuseIf_eq_ok_iff] at h
  obtain ⟨-, hv, h⟩ := h
  split at h
  · rw [pure_eq_ok_iff] at h
    subst h
    exact ⟨by simpa using hv, ‹_›⟩
  · exact absurd h throw_ne_ok

/-- One account is saved, and no delegation changes. -/
structure SavesOwner (w w' : World) (address : Bytes) (owner owner' : Account) : Prop where
  valid : validAddress address = true
  found : w.accounts.get address = some owner
  address_eq : owner'.address = address
  accounts_eq : w'.accounts = w.accounts.put owner'
  rows_eq : w'.delegatedResources = w.delegatedResources
  indexes_eq : w'.accountIndexes = w.accountIndexes
  witnesses_eq : w'.witnesses = w.witnesses
  revotes : Revotes w.votes w'.votes owner owner'

/-! ## Staking with a delay -/

theorem weight_congr {p p' : Position} {k : ResourceCode} (ho : p'.own k = p.own k)
    (hs : p'.staked k + p'.lent k = p.staked k + p.lent k) : p'.weight k = p.weight k := by
  rw [weight, weight, ho, hs]

/-- The effect of `FreezeBalanceV2`. -/
structure FreezesV2 (c : FreezeBalanceV2) (w w' : World) (owner owner' : Account)
    (kind : ResourceCode) (items : List FreezeV2) : Prop
    extends SavesOwner w w' c.ownerAddress owner owner' where
  resource_eq : ResourceCode.ofI32? c.resource = some kind
  enough : trxPrecision ≤ c.frozenBalance
  counted : (totalWeight w.dynamicProperties kind).isSome
  follows : Follows w.dynamicProperties w'.dynamicProperties owner.position owner'.position
  items_eq : addFrozenV2Items kind c.frozenBalance owner.frozenV2 = .ok items
  position_eq : owner'.position =
    { owner.position with balance := owner.balance - c.frozenBalance, frozenV2 := items }

/-- The weights that follow a change of the stake of one resource. -/
theorem changeWeight_follows {delta : Int} {p p' : Position} {items : List FreezeV2}
    (h : changeWeight w kind (p.staked kind + p.lent kind) (p'.staked kind + p'.lent kind) = .ok w')
    (hi : addFrozenV2Items kind delta p.frozenV2 = .ok items) (hp : p'.frozenV2 = items)
    (hl : p'.legacy = p.legacy) (hle : p'.lent = p.lent) :
    (totalWeight w.dynamicProperties kind).isSome ∧
      Follows w.dynamicProperties w'.dynamicProperties p p' ∧
      w' = { w with dynamicProperties := w'.dynamicProperties } := by
  have ho : p'.own = p.own := by
    funext k
    rw [own, own, hl]
  obtain ⟨props, hs, rfl⟩ := addWeight_eq_ok_iff.mp h
  refine ⟨?_, hs.follows ?_ fun k hk => ?_, rfl⟩
  · obtain ⟨total, ht, -⟩ := hs
    rw [ht, Option.isSome_some]
  · rw [weight, weight, ho]
    omega
  · refine weight_congr (by rw [ho]) ?_
    have := stakedIn_addFrozenV2Items hi k
    rw [if_neg hk, add_zero] at this
    rw [staked, staked, hp, this, hle]

theorem FreezeBalanceV2.execute_effect {c : FreezeBalanceV2}
    (h : (Operation.freezeBalanceV2 c).execute cfg w = .ok (w', r)) :
    ∃ owner owner' kind items, FreezesV2 c w w' owner owner' kind items := by
  simp only [Operation.execute, Operation.validate, Operation.executeIn, bind_eq_ok_iff,
    FreezeBalanceV2.validate, FreezeBalanceV2.executeIn, refuseIf_eq_ok_iff, account_eq_ok_iff,
    resource_eq_ok_iff, weightBalance_eq_ok_iff, checkedSub_eq_ok_iff,
    pure_eq_ok_iff, Prod.mk.injEq, not_lt, not_le] at h
  obtain ⟨-, ⟨-, -, -, -, owner, ho, -, -, -, he, -⟩, owner₀, hg, owner₁, hin, kind,
    hk, _, ⟨-, rfl⟩, owner₂, ha, _, ⟨-, rfl⟩, _, ⟨-, rfl⟩, w₁, hch, rfl, -⟩ := h
  obtain ⟨hv, hfo⟩ := validateOwner_ok ho
  obtain rfl := Option.some.inj (hg.symm.trans hfo)
  obtain ⟨hp₁, ha₁, hv₁⟩ := initializeOldTronPower_ok hin
  obtain ⟨items, hi, hp₂, ha₂, hv₂, -⟩ := addFrozenV2_ok ha
  have hp : ({ owner₂ with balance := owner₂.balance - c.frozenBalance } : Account).position =
      { owner₀.position with balance := owner₀.balance - c.frozenBalance, frozenV2 := items } := by
    rw [position_balance, ← balance_position owner₂, hp₂, hp₁, balance_position]
  obtain ⟨hc, hf, hw⟩ := changeWeight_follows hch hi (by rw [hp])
    (by rw [hp, hp₁]) (by rw [hp, hp₁])
  rw [hp₁] at hi hf
  rw [hw]
  refine ⟨owner₀, _, kind, items, ⟨hv, hfo, ?_, rfl, rfl, rfl, rfl, ?_⟩, hk, he,
    hc, hf, hi, hp⟩
  · exact (ha₂.trans ha₁).trans (Accounts.get_address hfo)
  · exact .refl (hv₂.trans hv₁)

/-- The effect of `UnfreezeBalanceV2`. -/
structure UnfreezesV2 (c : UnfreezeBalanceV2) (w w' : World) (owner owner' : Account)
    (kind : ResourceCode) (items : List FreezeV2) (now expire : Int) : Prop
    extends SavesOwner w w' c.ownerAddress owner owner' where
  resource_eq : ResourceCode.ofI32? c.resource = some kind
  positive : 0 < c.unfreezeBalance
  covered : c.unfreezeBalance ≤ owner.position.staked kind
  now_eq : dynamicLong w .latestBlockHeaderTimestamp = .ok now
  expire_eq : ∃ days, dynamicLong w .unfreezeDelayDays = .ok days ∧ expire = now + days * dayMs
  counted : (totalWeight w.dynamicProperties kind).isSome
  follows : Follows w.dynamicProperties w'.dynamicProperties owner.position owner'.position
  items_eq : addFrozenV2Items kind (-c.unfreezeBalance) owner.frozenV2 = .ok items
  position_eq : owner'.position = { owner.position with
    balance := owner.balance + expiredAmount now owner.unfrozenV2
    frozenV2 := items
    unfrozenV2 := pendingItems now owner.unfrozenV2 ++ [⟨kind.toI32, c.unfreezeBalance, expire⟩] }

theorem UnfreezeBalanceV2.execute_effect {c : UnfreezeBalanceV2}
    (h : (Operation.unfreezeBalanceV2 c).execute cfg w = .ok (w', r)) :
    ∃ owner owner' kind items now expire,
      UnfreezesV2 c w w' owner owner' kind items now expire := by
  simp only [Operation.execute, Operation.validate, Operation.executeIn, bind_eq_ok_iff,
    UnfreezeBalanceV2.validate, UnfreezeBalanceV2.executeIn, refuseIf_eq_ok_iff, account_eq_ok_iff,
    resource_eq_ok_iff, strictResource_eq_ok_iff, weightBalance_eq_ok_iff, checkedAdd_eq_ok_iff,
    checkedMul_eq_ok_iff, pure_eq_ok_iff, Prod.mk.injEq, not_lt, not_le, not_or] at h
  obtain ⟨-, ⟨-, -, -, -, owner, ho, kind₀, ⟨hk₀, -⟩, -, -, -, ⟨hpo, hle⟩, -⟩, w₁, hrew,
    owner₁, hg₁, now, hn, _, ⟨-, rfl⟩, owner₂, hin, kind, hk, _, ⟨-, rfl⟩, oldPower, -,
    owner₃, had, _, ⟨-, rfl⟩, w₂, hc, days, hd, _, ⟨-, rfl⟩, _, ⟨-, rfl⟩, ⟨w₃, owner₄⟩,
    hvo, rfl, -⟩ := h
  obtain ⟨hv, hfo⟩ := validateOwner_ok ho
  obtain ⟨accounts, hre, rfl⟩ := withdrawReward_pays hrew
  obtain ⟨owner₀, hf₀, hp₁, hv₁, -, hpu⟩ := hre.cases hg₁
  obtain rfl := Option.some.inj (hf₀.symm.trans hfo)
  obtain rfl := Option.some.inj (hk.symm.trans hk₀)
  obtain ⟨hp₂, ha₂, hv₂⟩ := initializeOldTronPower_ok hin
  obtain ⟨items, hi, hp₃, ha₃, hv₃, -⟩ := addFrozenV2_ok had
  obtain ⟨hwo, hp₄, ha₄, hr⟩ := UnfreezeBalanceV2.followVotes_ok hvo
  have ha₁ : owner₁.address = c.ownerAddress := Accounts.get_address hg₁
  have hp₂' : owner₂.position = { owner₀.position with
      balance := owner₀.balance + expiredAmount now owner₀.unfrozenV2
      unfrozenV2 := pendingItems now owner₀.unfrozenV2 } := by
    rw [hp₂, position_withdrawn, ← balance_position owner₁, ← unfrozenV2_position owner₁, hp₁]
    rfl
  have hp : owner₄.position = { owner₀.position with
      balance := owner₀.balance + expiredAmount now owner₀.unfrozenV2
      frozenV2 := items
      unfrozenV2 := pendingItems now owner₀.unfrozenV2 ++
        [⟨kind.toI32, c.unfreezeBalance, now + days * dayMs⟩] } := by
    rw [hp₄, position_unfrozenV2, ← unfrozenV2_position owner₃, hp₃, hp₂']
  have ha : owner₄.address = c.ownerAddress := (ha₄.trans (ha₃.trans ha₂)).trans ha₁
  rw [hp₃, hp₂'] at hc
  rw [hp₂'] at hi
  have hc' : changeWeight { w with accounts := accounts } kind
      (owner₀.position.staked kind + owner₀.position.lent kind)
      (owner₄.position.staked kind + owner₄.position.lent kind) = .ok w₂ := by
    rw [hp]
    exact hc
  obtain ⟨hco, hf, hw⟩ := changeWeight_follows hc' hi (by rw [hp])
    (by rw [hp]) (by rw [hp])
  have hd' : dynamicLong w .unfreezeDelayDays = .ok days := by
    rw [dynamicLong_eq_ok_iff] at hd ⊢
    rwa [hf.other .unfreezeDelayDays fun k => by cases k <;> decide] at hd
  rw [hwo, hw]
  refine ⟨owner₀, owner₄, kind, items, now, _, ⟨hv, hfo, ha, hpu _ ha, rfl, rfl,
    rfl, ?_⟩, hk, hpo, hle, hn, ⟨days, hd', rfl⟩, hco, hf, hi, hp⟩
  rw [hw] at hr
  exact hr.congr ((ha₃.trans ha₂).trans (ha₁.trans (Accounts.get_address hfo).symm))
    ((hv₃.trans hv₂).trans hv₁)

/-- The effect of `WithdrawExpireUnfreeze`. -/
structure Withdraws (c : WithdrawExpireUnfreeze) (w w' : World) (owner owner' : Account)
    (now : Int) : Prop extends SavesOwner w w' c.ownerAddress owner owner' where
  now_eq : dynamicLong w .latestBlockHeaderTimestamp = .ok now
  props_eq : w'.dynamicProperties = w.dynamicProperties
  position_eq : owner'.position = { owner.position with
    unfrozenV2 := pendingItems now owner.unfrozenV2
    balance := owner.balance + expiredAmount now owner.unfrozenV2 }

theorem WithdrawExpireUnfreeze.execute_effect {c : WithdrawExpireUnfreeze}
    (h : (Operation.withdrawExpireUnfreeze c).execute cfg w = .ok (w', r)) :
    ∃ owner owner' now, Withdraws c w w' owner owner' now := by
  simp only [Operation.execute, Operation.validate, Operation.executeIn, bind_eq_ok_iff,
    WithdrawExpireUnfreeze.validate, WithdrawExpireUnfreeze.executeIn, account_eq_ok_iff,
    checkedAdd_eq_ok_iff, pure_eq_ok_iff, Prod.mk.injEq] at h
  obtain ⟨-, ⟨-, -, -, -, owner, ho, -⟩, owner₀, hg, now, hn, _, ⟨-, rfl⟩, rfl, -⟩ := h
  obtain ⟨hv, hf⟩ := validateOwner_ok ho
  obtain rfl := Option.some.inj (hg.symm.trans hf)
  have ha₀ : owner₀.address = c.ownerAddress := Accounts.get_address hf
  exact ⟨owner₀, { owner₀ with
      unfrozenV2 := pendingItems now owner₀.unfrozenV2
      balance := owner₀.balance + expiredAmount now owner₀.unfrozenV2 }, now,
    ⟨hv, hf, ha₀, rfl, rfl, rfl, rfl, .refl rfl⟩, hn, rfl, rfl⟩

/-- The position after the unstaking amounts `items` have been cancelled, one after the other: paid
out when their time has come, and staked again when it has not. -/
def CancelsTo (now : Int) : Position → List UnFreezeV2 → Position → Prop
  | p, [], p' => p' = p
  | p, item :: items, p' =>
    if item.unfreezeExpireTime ≤ now then
      CancelsTo now { p with balance := p.balance + item.unfreezeAmount } items p'
    else
      ∃ kind staked, ResourceCode.ofI32? item.type = some kind ∧
        addFrozenV2Items kind item.unfreezeAmount p.frozenV2 = .ok staked ∧
        CancelsTo now { p with frozenV2 := staked } items p'

/-- What the cancelling loop keeps and changes. -/
structure Cancelled (now : Int) (items : List UnFreezeV2) (s s' : Cancelling) : Prop where
  world_eq : s'.world = { s.world with dynamicProperties := s'.world.dynamicProperties }
  follows : Follows s.world.dynamicProperties s'.world.dynamicProperties s.owner.position
    s'.owner.position
  cancels : CancelsTo now s.owner.position items s'.owner.position
  counted : ∀ item ∈ items, ¬ item.unfreezeExpireTime ≤ now → ∀ k,
    ResourceCode.ofI32? item.type = some k → (totalWeight s.world.dynamicProperties k).isSome
  address_eq : s'.owner.address = s.owner.address
  votes_eq : s'.owner.votes = s.owner.votes

theorem Cancelled.cons {now : Int} {item : UnFreezeV2} {items : List UnFreezeV2}
    {s s₁ s' : Cancelling} (h : s.step now item = .ok s₁) (h' : Cancelled now items s₁ s') :
    Cancelled now (item :: items) s s' := by
  unfold Cancelling.step at h
  split at h
  · next he =>
    simp only [bind_eq_ok_iff, checkedAdd_eq_ok_iff, pure_eq_ok_iff] at h
    obtain ⟨_, ⟨-, rfl⟩, _, -, rfl⟩ := h
    have hf : Follows s.world.dynamicProperties s.world.dynamicProperties s.owner.position
        { s.owner.position with balance := s.owner.balance + item.unfreezeAmount } :=
      .refl _ fun _ => rfl
    refine ⟨h'.world_eq, hf.trans h'.follows, ?_, ?_, h'.address_eq, h'.votes_eq⟩
    · rw [CancelsTo, if_pos he]
      exact h'.cancels
    · intro other ho hpe
      rcases List.mem_cons.mp ho with rfl | ho
      · exact absurd he hpe
      · exact h'.counted other ho hpe
  · next hpe =>
    simp only [bind_eq_ok_iff, checkedAdd_eq_ok_iff, weightBalance_eq_ok_iff,
      strictResource_eq_ok_iff, pure_eq_ok_iff] at h
    obtain ⟨kind, ⟨hki, -⟩, _, ⟨-, rfl⟩, owner, had, _, ⟨-, rfl⟩, world, hc, _, -, rfl⟩ := h
    obtain ⟨staked, hs, hp, ha, hv, -⟩ := addFrozenV2_ok had
    obtain ⟨hco, hf, hw⟩ := changeWeight_follows hc hs (by rw [hp])
      (by rw [hp]) (by rw [hp])
    refine ⟨h'.world_eq.trans ?_, hf.trans h'.follows, ?_, ?_, h'.address_eq.trans ha,
      h'.votes_eq.trans hv⟩
    · rw [hw]
    · rw [CancelsTo, if_neg hpe]
      refine ⟨kind, staked, hki, hs, ?_⟩
      rw [← hp]
      exact h'.cancels
    · intro other ho hp' k hk
      rcases List.mem_cons.mp ho with rfl | ho
      · rwa [Option.some.inj (hk.symm.trans hki)]
      · rw [Option.isSome_iff_ne_none]
        intro hn
        have hso := h'.counted other ho hp' k hk
        rw [hf.missing k hn] at hso
        cases hso

theorem cancelled_of_foldlM {now : Int} {items : List UnFreezeV2} {s s' : Cancelling}
    (h : items.foldlM (Cancelling.step now) s = .ok s') : Cancelled now items s s' := by
  induction items generalizing s with
  | nil =>
    rw [List.foldlM_nil, pure_eq_ok_iff] at h
    subst h
    exact ⟨rfl, .refl _ fun _ => rfl, rfl, nofun, rfl, rfl⟩
  | cons item items ih =>
    rw [List.foldlM_cons, bind_eq_ok_iff] at h
    obtain ⟨s₁, hs, h⟩ := h
    exact .cons hs (ih h)

/-- The effect of `CancelAllUnfreezeV2`. -/
structure CancelsAll (c : CancelAllUnfreezeV2) (w w' : World) (owner owner' : Account)
    (now : Int) : Prop extends SavesOwner w w' c.ownerAddress owner owner' where
  now_eq : dynamicLong w .latestBlockHeaderTimestamp = .ok now
  counted : ∀ item ∈ owner.unfrozenV2, ¬ item.unfreezeExpireTime ≤ now → ∀ k,
    ResourceCode.ofI32? item.type = some k → (totalWeight w.dynamicProperties k).isSome
  follows : Follows w.dynamicProperties w'.dynamicProperties owner.position owner'.position
  cancels : CancelsTo now { owner.position with unfrozenV2 := [] } owner.unfrozenV2 owner'.position

theorem CancelAllUnfreezeV2.execute_effect {c : CancelAllUnfreezeV2}
    (h : (Operation.cancelAllUnfreezeV2 c).execute cfg w = .ok (w', r)) :
    ∃ owner owner' now, CancelsAll c w w' owner owner' now := by
  simp only [Operation.execute, Operation.validate, Operation.executeIn, bind_eq_ok_iff,
    CancelAllUnfreezeV2.validate, CancelAllUnfreezeV2.executeIn, account_eq_ok_iff,
    pure_eq_ok_iff, Prod.mk.injEq] at h
  obtain ⟨-, ⟨-, -, owner, ho, -⟩, owner₀, hg, now, hn, done, hl, rfl, -⟩ := h
  obtain ⟨hv, hf⟩ := validateOwner_ok ho
  obtain rfl := Option.some.inj (hg.symm.trans hf)
  obtain ⟨hw, hfo, hc, hco, ha, hvo⟩ := cancelled_of_foldlM hl
  have he : Follows w.dynamicProperties w.dynamicProperties owner₀.position
      { owner₀.position with unfrozenV2 := [] } := .refl _ fun _ => rfl
  have ha₀ : owner₀.address = c.ownerAddress := Accounts.get_address hf
  rw [hw]
  exact ⟨owner₀, done.owner, now, ⟨hv, hf, ha.trans ha₀, rfl, rfl, rfl, rfl,
    .refl hvo⟩, hn, hco, he.trans hfo, hc⟩

/-! ## Delegation -/

/-- Two accounts are saved, one after the other. -/
structure SavesPair (w w' : World) (sender receiver : Bytes) (owner owner' taker taker' : Account) :
    Prop where
  validOwner : validAddress sender = true
  validReceiver : validAddress receiver = true
  distinct : sender ≠ receiver
  foundOwner : w.accounts.get sender = some owner
  foundReceiver : w.accounts.get receiver = some taker
  ownerAddress_eq : owner'.address = sender
  receiverAddress_eq : taker'.address = receiver
  accounts_eq : w'.accounts = (w.accounts.put owner').put taker'
  witnesses_eq : w'.witnesses = w.witnesses

theorem unlockExpired_world {owner receiver : Bytes} {now : Int}
    (h : unlockExpired w owner receiver now = .ok w') :
    w' = { w with delegatedResources := w'.delegatedResources } := by
  unfold unlockExpired at h
  dsimp only at h
  split at h
  · rw [pure_eq_ok_iff] at h
    rw [← h]
  split at h
  · rw [pure_eq_ok_iff] at h
    rw [← h]
  · simp only [bind_eq_ok_iff, pure_eq_ok_iff] at h
    obtain ⟨_, -, rfl⟩ := h
    unfold putOrDelete
    split <;> rfl

/-- The effect of `DelegateResource`. -/
structure Lends (c : DelegateResource) (w w' : World) (owner owner' taker taker' : Account)
    (kind : ResourceCode) (items : List FreezeV2) (unlocked : World) (now expire : Int) : Prop
    extends SavesPair w w' c.ownerAddress c.receiverAddress owner owner' taker taker' where
  resource_eq : ResourceCode.ofI32? c.resource = some kind
  lendable : kind ≠ .tronPower
  enough : trxPrecision ≤ c.balance
  covered : c.balance ≤ owner.position.staked kind
  now_eq : dynamicLong w .latestBlockHeaderTimestamp = .ok now
  expire_eq : c.lock = false → expire = 0
  unlocked_eq : unlockExpired w c.ownerAddress c.receiverAddress now = .ok unlocked
  items_eq : addFrozenV2Items kind (-c.balance) owner.frozenV2 = .ok items
  owner_eq : owner'.position = { owner.position with
    frozenV2 := items
    lent := Function.update owner.position.lent kind (owner.position.lent kind + c.balance) }
  taker_eq : taker'.position = { taker.position with
    held := Function.update taker.position.held kind (taker.position.held kind + c.balance) }
  rows_eq : w'.delegatedResources = unlocked.delegatedResources.insert
    (resourceV2Key c.ownerAddress c.receiverAddress c.lock)
    (setRow (delegated unlocked (resourceV2Key c.ownerAddress c.receiverAddress c.lock)
      c.ownerAddress c.receiverAddress) kind
      (rowAmount (delegated unlocked (resourceV2Key c.ownerAddress c.receiverAddress c.lock)
        c.ownerAddress c.receiverAddress) kind + c.balance) expire)
  indexes_eq : w'.accountIndexes = putPair w.accountIndexes
    (v2FromIndexKey c.ownerAddress c.receiverAddress)
    (v2ToIndexKey c.receiverAddress c.ownerAddress) c.ownerAddress c.receiverAddress now
  props_eq : w'.dynamicProperties = w.dynamicProperties

theorem weightedUsage_nonneg {w : World} {a : Account} {x : Int}
    (h : weightedUsage cfg w a kind = .ok x) : 0 ≤ x := by
  cases kind <;> simp only [weightedUsage, bind_eq_ok_iff, pure_eq_ok_iff] at h
  case bandwidth =>
    obtain ⟨_, -, _, -, rfl⟩ := h
    exact le_max_right _ _
  case energy =>
    obtain ⟨_, -, _, -, rfl⟩ := h
    exact le_max_right _ _
  case tronPower => omega

/-- An amount above the least `i64` that is at most a saturated value is at most the value. -/
theorem le_of_le_saturate {x y : Int} (hx : i64Min < x) (h : x ≤ saturate y) : x ≤ y := by
  unfold saturate at h
  omega

theorem DelegateResource.execute_effect {c : DelegateResource}
    (h : (Operation.delegateResource c).execute cfg w = .ok (w', r)) :
    ∃ owner owner' taker taker' kind items unlocked now expire,
      Lends c w w' owner owner' taker taker' kind items unlocked now expire := by
  simp only [Operation.execute, Operation.validate, Operation.executeIn, bind_eq_ok_iff,
    DelegateResource.validate, DelegateResource.executeIn, refuseIf_eq_ok_iff, account_eq_ok_iff,
    resource_eq_ok_iff, strictResource_eq_ok_iff, checkedAdd_eq_ok_iff, pure_eq_ok_iff,
    Prod.mk.injEq, not_lt, Bool.false_eq_true, false_or, not_not] at h
  obtain ⟨-, ⟨-, -, -, -, -, -, owner, ho, -, he, kind₀, ⟨hk₀, hl⟩, usage, hus,
    -, hc, -, hr, -, hne, -⟩, now, hn, w₁, hu, kind, hk, supports, -, expire,
    hexp, owner₁, hg, taker, hgt, owner₂, ha, _, ⟨-, rfl⟩, _, ⟨-, rfl⟩, _, ⟨-, rfl⟩, rfl, -⟩ := h
  obtain ⟨hv, hf⟩ := validateOwner_ok ho
  have hwo := unlockExpired_world hu
  have hw : w₁.accounts = w.accounts := by rw [hwo]
  rw [hw] at hg hgt
  obtain rfl := Option.some.inj (hg.symm.trans hf)
  obtain rfl := Option.some.inj (hk.symm.trans hk₀)
  obtain ⟨items, hi, hp₂, ha₂, -⟩ := addFrozenV2_ok ha
  have ha₁ : owner₁.address = c.ownerAddress := Accounts.get_address hf
  have hat : taker.address = c.receiverAddress := Accounts.get_address hgt
  have hc' : c.balance ≤ owner₁.position.staked kind := by
    have hus := weightedUsage_nonneg hus
    have hm : i64Min < c.balance := by
      simp only [i64Min, trxPrecision] at he ⊢
      omega
    have := le_of_le_saturate hm hc
    rw [frozenV2_eq_staked] at this
    omega
  have ho' := address_setDelegatedV2 owner₂ (delegatedV2 owner₂ kind + c.balance) kind
  have ht' := address_setAcquiredV2 taker (acquiredV2 taker kind + c.balance) kind
  refine ⟨owner₁, _, taker, _, kind, items, w₁, now, expire, ⟨hv, hr, hne, hf,
    hgt, ho'.trans (ha₂.trans ha₁), ht'.trans hat, ?_, ?_⟩, hk,
    hl, he, hc', hn, fun hlo => ?_, hu, hi, ?_, ?_, rfl, ?_, ?_⟩
  · simp only [save, putDelegated, hw]
  · rw [hwo]
    rfl
  · rw [DelegateResource.expire, hlo, if_neg Bool.false_ne_true, pure_eq_ok_iff] at hexp
    exact hexp.symm
  · have hle : delegatedV2 owner₂ kind = owner₁.position.lent kind :=
      congrFun (congrArg Position.lent hp₂) kind
    rw [position_setDelegatedV2 _ _ hl, hle, hp₂]
  · exact position_setAcquiredV2 _ _ hl
  · rw [ho', ht', ha₂, ha₁, hat, hwo]
    rfl
  · rw [hwo]
    rfl

/-- What returning the usage does: the receiver holds less, and the rest of the stake stays. -/
structure Settles (kind : ResourceCode) (balance : Int) (owner owner' taker taker' : Account) :
    Prop where
  owner_eq : owner'.position = owner.position
  ownerAddress_eq : owner'.address = owner.address
  taker_eq : taker'.position = { taker.position with
    held := Function.update taker.position.held kind
      (if taker.position.held kind < balance then 0 else taker.position.held kind - balance) }
  takerAddress_eq : taker'.address = taker.address
  fits : balance ≤ taker.position.held kind → InI64 (taker.position.held kind - balance)

theorem returnedUsage_ok {w : World} {a b : Account} {usage balance x : Int}
    {limit weight : Property} (hk : kind ≠ .tronPower)
    (h : returnedUsage w a kind usage balance limit weight = .ok (b, x)) :
    b.position = { a.position with
      held := Function.update a.position.held kind
        (if a.position.held kind < balance then 0 else a.position.held kind - balance) } ∧
      b.address = a.address ∧
      (balance ≤ a.position.held kind → InI64 (a.position.held kind - balance)) := by
  unfold returnedUsage at h
  dsimp only at h
  split at h
  · next hlt =>
    rw [pure_eq_ok_iff, Prod.mk.injEq] at h
    obtain ⟨rfl, -⟩ := h
    have hl' : a.position.held kind < balance := hlt
    rw [if_pos hl']
    exact ⟨position_setAcquiredV2 a 0 hk, address_setAcquiredV2 a 0 kind,
      fun hle => absurd hl' (not_lt.mpr hle)⟩
  · next hge =>
    simp only [bind_eq_ok_iff, checkedSub_eq_ok_iff, pure_eq_ok_iff, Prod.mk.injEq] at h
    obtain ⟨_, -, _, -, _, -, _, -, _, ⟨hf, rfl⟩, rfl, -⟩ := h
    have hg' : ¬ a.position.held kind < balance := hge
    rw [if_neg hg']
    exact ⟨position_setAcquiredV2 a _ hk, address_setAcquiredV2 a _ kind, fun _ => hf⟩

theorem settleBandwidth_ok {w : World} {owner owner' taker taker' : Account} {balance slot : Int}
    {precise : Bool}
    (h : settleBandwidth w owner taker balance slot precise = .ok (owner', taker')) :
    Settles .bandwidth balance owner owner' taker taker' := by
  simp only [settleBandwidth, bind_eq_ok_iff] at h
  obtain ⟨_, -, _, -, ⟨taker₁, transfer⟩, hr, _, -, _, -, h⟩ := h
  obtain ⟨hp, ha, hf⟩ := returnedUsage_ok (by decide) hr
  dsimp only at h
  split at h
  · simp only [bind_eq_ok_iff, pure_eq_ok_iff, Prod.mk.injEq] at h
    obtain ⟨_, -, rfl, rfl⟩ := h
    exact ⟨rfl, rfl, hp, ha, hf⟩
  · simp only [pure_eq_ok_iff, Prod.mk.injEq] at h
    obtain ⟨rfl, rfl⟩ := h
    exact ⟨rfl, rfl, hp, ha, hf⟩

theorem settleEnergy_ok {w : World} {owner owner' taker taker' : Account} {balance slot : Int}
    {precise : Bool}
    (h : settleEnergy w owner taker balance slot precise = .ok (owner', taker')) :
    Settles .energy balance owner owner' taker taker' := by
  simp only [settleEnergy, bind_eq_ok_iff] at h
  obtain ⟨_, -, _, -, ⟨taker₁, transfer⟩, hr, _, -, _, -, h⟩ := h
  obtain ⟨hp, ha, hf⟩ := returnedUsage_ok (by decide) hr
  dsimp only at h
  split at h
  · simp only [bind_eq_ok_iff, pure_eq_ok_iff, Prod.mk.injEq] at h
    obtain ⟨_, -, rfl, rfl⟩ := h
    exact ⟨rfl, rfl, hp, ha, hf⟩
  · simp only [pure_eq_ok_iff, Prod.mk.injEq] at h
    obtain ⟨rfl, rfl⟩ := h
    exact ⟨rfl, rfl, hp, ha, hf⟩

theorem settle_ok {w : World} {owner owner' : Account} {taker taker' : Option Account}
    {balance slot : Int} {precise : Bool} (hki : kind ≠ .tronPower)
    (h : settle kind w owner taker balance slot precise = .ok (owner', taker')) :
    owner'.position = owner.position ∧ owner'.address = owner.address ∧
      (taker = none ∧ taker' = none ∨
        ∃ a b, taker = some a ∧ taker' = some b ∧ Settles kind balance owner owner' a b) := by
  cases taker with
  | none =>
    rw [settle, pure_eq_ok_iff, Prod.mk.injEq] at h
    obtain ⟨rfl, rfl⟩ := h
    exact ⟨rfl, rfl, .inl ⟨rfl, rfl⟩⟩
  | some a =>
    simp only [settle, bind_eq_ok_iff, pure_eq_ok_iff, Prod.mk.injEq] at h
    obtain ⟨⟨owner₁, b⟩, hr, rfl, rfl⟩ := h
    have hs : Settles kind balance owner owner₁ a b := by
      split at hr
      · next hk => exact hk ▸ settleBandwidth_ok hr
      · next hk =>
        cases kind with
        | bandwidth => exact absurd rfl hk
        | energy => exact settleEnergy_ok hr
        | tronPower => exact absurd rfl hki
    exact ⟨hs.owner_eq, hs.ownerAddress_eq, .inr ⟨a, b, rfl, rfl, hs⟩⟩

/-- What an account may take back at `now`: the unlocked amount, and the locked one once it has
expired. -/
def available (w : World) (sender receiver : Bytes) (kind : ResourceCode) (now : Int) : Int :=
  ((w.delegatedResources.lookup (resourceV2Key sender receiver false)).map (rowAmount · kind)).getD 0 +
    match w.delegatedResources.lookup (resourceV2Key sender receiver true) with
    | some row => if rowExpire row kind < now then rowAmount row kind else 0
    | none => 0

/-- The rows after the unlocked row of a pair has become `record`. -/
def rowsAfter (rows : FMap Bytes DelegatedResource) (key : Bytes) (record : DelegatedResource)
    (existed : Bool) : FMap Bytes DelegatedResource :=
  if rowEmpty record then if existed then rows.erase key else rows else rows.insert key record

/-- The accounts after `UnDelegateResource`: the receiver, if it is there, holds less. -/
def TakenBack (c : UnDelegateResource) (w w' : World) (owner' : Account) (kind : ResourceCode) :
    Option Account → Option Account → Prop
  | none, taker' => taker' = none ∧ w'.accounts = w.accounts.put owner'
  | some a, taker' => ∃ b, taker' = some b ∧ b.address = c.receiverAddress ∧
      b.position = { a.position with
        held := Function.update a.position.held kind
          (if a.position.held kind < c.balance then 0 else a.position.held kind - c.balance) } ∧
      w'.accounts = (w.accounts.put owner').put b

/-- The effect of `UnDelegateResource`. -/
structure Returns (c : UnDelegateResource) (w w' : World) (owner owner' : Account)
    (taker taker' : Option Account) (kind : ResourceCode) (items : List FreezeV2) (unlocked : World)
    (record : DelegatedResource) (existed : Bool) (now : Int) : Prop where
  validOwner : validAddress c.ownerAddress = true
  validReceiver : validAddress c.receiverAddress = true
  distinct : c.ownerAddress ≠ c.receiverAddress
  resource_eq : ResourceCode.ofI32? c.resource = some kind
  lendable : kind ≠ .tronPower
  positive : 0 < c.balance
  covered : c.balance ≤ available w c.ownerAddress c.receiverAddress kind now
  now_eq : dynamicLong w .latestBlockHeaderTimestamp = .ok now
  foundOwner : w.accounts.get c.ownerAddress = some owner
  foundReceiver : w.accounts.get c.receiverAddress = taker
  unlocked_eq : unlockRow w c.ownerAddress c.receiverAddress now = .ok (unlocked, record, existed)
  items_eq : addFrozenV2Items kind c.balance owner.frozenV2 = .ok items
  ownerAddress_eq : owner'.address = c.ownerAddress
  owner_eq : owner'.position = { owner.position with
    frozenV2 := items
    lent := Function.update owner.position.lent kind (owner.position.lent kind - c.balance) }
  lentFits : InI64 (owner.position.lent kind - c.balance)
  heldFits : ∀ a, taker = some a → c.balance ≤ a.position.held kind →
    InI64 (a.position.held kind - c.balance)
  taker_eq : TakenBack c w w' owner' kind taker taker'
  rows_eq : w'.delegatedResources = rowsAfter unlocked.delegatedResources
    (resourceV2Key c.ownerAddress c.receiverAddress false)
    (setRow record kind (rowAmount record kind - c.balance) (rowExpire record kind)) existed
  indexes_eq : w'.accountIndexes =
    if rowEmpty (setRow record kind (rowAmount record kind - c.balance) (rowExpire record kind)) ∧
      unlocked.delegatedResources.lookup (resourceV2Key c.ownerAddress c.receiverAddress true) = none
    then removeV2Indexes w.accountIndexes c.ownerAddress c.receiverAddress
    else w.accountIndexes
  props_eq : w'.dynamicProperties = w.dynamicProperties
  witnesses_eq : w'.witnesses = w.witnesses

theorem unlockRow_world {owner receiver : Bytes} {now : Int} {record : DelegatedResource}
    {existed : Bool} (h : unlockRow w owner receiver now = .ok (w', record, existed)) :
    w' = { w with delegatedResources := w'.delegatedResources } := by
  unfold unlockRow at h
  dsimp only at h
  split at h
  · rw [pure_eq_ok_iff, Prod.mk.injEq] at h
    rw [← h.1]
  · simp only [bind_eq_ok_iff, pure_eq_ok_iff, Prod.mk.injEq] at h
    obtain ⟨_, -, rfl, -⟩ := h
    unfold putOrDelete
    split <;> rfl

theorem closeRow_eq (w : World) (owner receiver : Bytes) (record : DelegatedResource)
    (existed : Bool) :
    closeRow w owner receiver record existed = { w with
      delegatedResources := rowsAfter w.delegatedResources (resourceV2Key owner receiver false)
        record existed
      accountIndexes :=
        if rowEmpty record ∧
          w.delegatedResources.lookup (resourceV2Key owner receiver true) = none
        then removeV2Indexes w.accountIndexes owner receiver else w.accountIndexes } := by
  have hne : resourceV2Key owner receiver true ≠ resourceV2Key owner receiver false := by
    simp [resourceV2Key, prefixedPair]
  have her : (w.delegatedResources.erase (resourceV2Key owner receiver false)).lookup
      (resourceV2Key owner receiver true) =
        w.delegatedResources.lookup (resourceV2Key owner receiver true) :=
    Finmap.lookup_erase_ne hne
  unfold closeRow rowsAfter
  by_cases he : rowEmpty record
  · cases existed <;> by_cases hl :
      w.delegatedResources.lookup (resourceV2Key owner receiver true) = none <;>
      simp [he, hl, her, deleteDelegated]
  · simp [he, putDelegated]

theorem UnDelegateResource.validate_ok {c : UnDelegateResource} {w : World}
    (h : c.validate w = .ok ()) :
    ∃ owner kind now, validAddress c.ownerAddress = true ∧ validAddress c.receiverAddress = true ∧
      c.ownerAddress ≠ c.receiverAddress ∧ 0 < c.balance ∧
      w.accounts.get c.ownerAddress = some owner ∧
      ResourceCode.ofI32? c.resource = some kind ∧ kind ≠ .tronPower ∧
      dynamicLong w .latestBlockHeaderTimestamp = .ok now ∧
      c.balance ≤ available w c.ownerAddress c.receiverAddress kind now := by
  simp only [UnDelegateResource.validate, bind_eq_ok_iff, refuseIf_eq_ok_iff,
    strictResource_eq_ok_iff, not_lt, not_le, Bool.false_eq_true, false_or, not_not] at h
  obtain ⟨-, -, -, -, -, -, owner, ho, -, hr, -, hne, -, hp, kind, ⟨hk, hl⟩,
    now, hn, -, -, balance, hb, hle⟩ := h
  obtain ⟨hv, hf⟩ := validateOwner_ok ho
  refine ⟨owner, kind, now, hv, hr, hne, hp, hf, hk, hl, hn, ?_⟩
  unfold available
  rcases hro : w.delegatedResources.lookup
    (resourceV2Key c.ownerAddress c.receiverAddress true) with _ | row
  · simp only [hro] at hb ⊢
    rw [pure_eq_ok_iff] at hb
    omega
  · simp only [hro] at hb ⊢
    split at hb
    · next he =>
      rw [checkedAdd_eq_ok_iff] at hb
      simp only [if_pos he]
      omega
    · next hlo =>
      rw [pure_eq_ok_iff] at hb
      simp only [if_neg hlo]
      omega

theorem UnDelegateResource.execute_effect {c : UnDelegateResource}
    (h : (Operation.unDelegateResource c).execute cfg w = .ok (w', r)) :
    ∃ owner owner' taker taker' kind items unlocked record existed now,
      Returns c w w' owner owner' taker taker' kind items unlocked record existed now := by
  simp only [Operation.execute, Operation.validate, Operation.executeIn, bind_eq_ok_iff,
    UnDelegateResource.executeIn, account_eq_ok_iff, resource_eq_ok_iff, checkedSub_eq_ok_iff,
    pure_eq_ok_iff, Prod.mk.injEq] at h
  obtain ⟨_, hv, now, hn, kind, hk, ⟨w₁, record, existed⟩, hu, owner₁, hg, owner₂,
    hadd, _, ⟨hlf, rfl⟩, _, ⟨-, rfl⟩, ⟨owner₃, taker'⟩, hse, rfl, -⟩ := h
  obtain ⟨owner, kind₀, now₀, hva, hr, hne, hp, hf, hk₀, hl, hn₀,
    hc⟩ := UnDelegateResource.validate_ok hv
  obtain rfl := Option.some.inj (hk.symm.trans hk₀)
  obtain rfl := Except.ok.inj (hn.symm.trans hn₀)
  have hwo := unlockRow_world hu
  have hw : w₁.accounts = w.accounts := by rw [hwo]
  rw [hw] at hg hse
  obtain rfl := Option.some.inj (hg.symm.trans hf)
  obtain ⟨items, hit, hp₂, ha₂, -⟩ := addFrozenV2_ok hadd
  obtain ⟨hp₃, ha₃, hta⟩ := settle_ok hl hse
  have had : owner₃.address = c.ownerAddress := by
    rw [ha₃, address_setDelegatedV2, ha₂]
    exact Accounts.get_address hf
  have hle : delegatedV2 owner₂ kind = owner₁.position.lent kind :=
    congrFun (congrArg Position.lent hp₂) kind
  have hi : w₁.accountIndexes = w.accountIndexes := by rw [hwo]
  refine ⟨owner₁, owner₃, _, taker', kind, items, w₁, record, existed, now, hva, hr, hne,
    hk, hl, hp, hc, hn, hf, rfl, hu, hit, had, ?_, ?_, ?_, ?_, ?_, ?_, ?_,
    ?_⟩
  · rw [hp₃, position_setDelegatedV2 _ _ hl, hle, hp₂]
  · rwa [hle] at hlf
  · intro a ha
    rcases hta with ⟨ht, -⟩ | ⟨b, b', ht, -, hs⟩
    · exact absurd (ht.symm.trans ha) nofun
    · rw [← Option.some.inj (ht.symm.trans ha)]
      exact hs.fits
  · rcases hta with ⟨ht, rfl⟩ | ⟨a, b, ht, rfl, hs⟩ <;> rw [ht]
    · exact ⟨rfl, by simp only [save, closeRow_eq, hw]⟩
    · exact ⟨b, rfl, hs.takerAddress_eq.trans (Accounts.get_address ht),
        hs.taker_eq, by simp only [save, closeRow_eq, hw]⟩
  · cases taker' <;> simp only [save, closeRow_eq]
  · cases taker' <;> simp only [save, closeRow_eq, hi]
  · cases taker' <;> simp only [save, closeRow_eq] <;> rw [hwo]
  · cases taker' <;> simp only [save, closeRow_eq] <;> rw [hwo]

/-! ## The legacy contracts -/

/-- The effect of `FreezeBalance` without a receiver. -/
structure FreezesOwn (c : FreezeBalance) (w w' : World) (owner owner' : Account)
    (kind : ResourceCode) (expire : Int) : Prop
    extends SavesOwner w w' c.ownerAddress owner owner' where
  resource_eq : ResourceCode.ofI32? c.resource = some kind
  enough : trxPrecision ≤ c.frozenBalance
  single : owner.frozen.length ≤ 1
  fits : InI64 (owner.position.own kind + c.frozenBalance)
  position_eq : owner'.position = { owner.position with
    balance := owner.balance - c.frozenBalance
    legacy := Function.update owner.position.legacy kind
      [⟨owner.position.own kind + c.frozenBalance, expire⟩] }
  follows : enabled w .allowNewReward = true →
    Follows w.dynamicProperties w'.dynamicProperties owner.position owner'.position

/-- The effect of `FreezeBalance` with a receiver. -/
structure FreezesFor (c : FreezeBalance) (w w' : World) (owner owner' taker taker' : Account)
    (kind : ResourceCode) (now expire : Int) : Prop
    extends SavesPair w w' c.ownerAddress c.receiverAddress owner owner' taker taker' where
  resource_eq : ResourceCode.ofI32? c.resource = some kind
  lendable : kind ≠ .tronPower
  enough : trxPrecision ≤ c.frozenBalance
  owner_eq : owner'.position = { owner.position with
    balance := owner.balance - c.frozenBalance
    lentLegacy := Function.update owner.position.lentLegacy kind
      (owner.position.lentLegacy kind + c.frozenBalance) }
  fits : InI64 (taker.position.heldLegacy kind + c.frozenBalance)
  taker_eq : taker'.position = { taker.position with
    heldLegacy := Function.update taker.position.heldLegacy kind
      (taker.position.heldLegacy kind + c.frozenBalance) }
  rows_eq : w'.delegatedResources = w.delegatedResources.insert
    (legacyResourceKey c.ownerAddress c.receiverAddress)
    (setRow (delegated w (legacyResourceKey c.ownerAddress c.receiverAddress) c.ownerAddress
      c.receiverAddress) kind
      (rowAmount (delegated w (legacyResourceKey c.ownerAddress c.receiverAddress) c.ownerAddress
        c.receiverAddress) kind + c.frozenBalance) expire)
  indexes_eq : w'.accountIndexes = FreezeBalance.putIndexes (enabled w .allowDelegateOptimization)
    w.accountIndexes c.ownerAddress c.receiverAddress now
  follows : enabled w .allowNewReward = true →
    Follows w.dynamicProperties w'.dynamicProperties owner.position owner'.position

theorem changeLegacyWeight_follows {amount : Int} {p p' : Position}
    (h : changeLegacyWeight w kind (p.own kind) (p'.own kind) amount = .ok w')
    (ho : ∀ k, k ≠ kind → p'.own k = p.own k) (hs : p'.frozenV2 = p.frozenV2)
    (hl : p'.lent = p.lent) :
    (enabled w .allowNewReward = true → Follows w.dynamicProperties w'.dynamicProperties p p') ∧
      (∀ q, (∀ k, q ≠ weightName k) →
        w'.dynamicProperties.lookup q = w.dynamicProperties.lookup q) ∧
      w' = { w with dynamicProperties := w'.dynamicProperties } := by
  obtain ⟨props, hse, rfl⟩ := addWeight_eq_ok_iff.mp h
  refine ⟨fun hr => ?_, fun q hq => hse.lookup_of_ne (hq kind), rfl⟩
  rw [if_pos hr] at hse
  refine hse.follows ?_ fun k hk => weight_congr (ho k hk) (by rw [staked, staked, hs, hl])
  rw [weight, weight, staked, staked, hs, hl]
  omega

theorem addLegacy_ok {a b : Account} {amount expire : Int}
    (h : addLegacy a kind amount expire = .ok b) :
    InI64 (a.position.own kind + amount) ∧ b.address = a.address ∧ b.votes = a.votes ∧
      b.position = { a.position with
        legacy := Function.update a.position.legacy kind
          [⟨a.position.own kind + amount, expire⟩] } := by
  simp only [addLegacy, bind_eq_ok_iff, checkedAdd_eq_ok_iff, pure_eq_ok_iff,
    legacyResourceBalance_eq_own] at h
  obtain ⟨_, ⟨hf, rfl⟩, rfl⟩ := h
  refine ⟨hf, ?_, ?_, ?_⟩
  · cases kind <;> rfl
  · cases kind <;> rfl
  · cases kind <;> refine Position.ext rfl (funext fun k => ?_) rfl rfl rfl rfl rfl rfl <;>
      cases k <;> rfl

theorem own_update_of_ne {p p' : Position} {items : List Frozen}
    (h : p'.legacy = Function.update p.legacy kind items) {k : ResourceCode} (hk : k ≠ kind) :
    p'.own k = p.own k := by
  rw [own, own, h, Function.update_of_ne hk]

theorem FreezeBalance.lend_ok {c : FreezeBalance} {owner owner' : Account} {now expire : Int}
    (hk : kind ≠ .tronPower) (h : c.lend w owner kind now expire = .ok (w', owner')) :
    ∃ taker taker', w.accounts.get c.receiverAddress = some taker ∧
      InI64 (taker.position.heldLegacy kind + c.frozenBalance) ∧
      taker'.address = c.receiverAddress ∧ owner'.address = owner.address ∧
      owner'.position = { owner.position with
        lentLegacy := Function.update owner.position.lentLegacy kind
          (owner.position.lentLegacy kind + c.frozenBalance) } ∧
      taker'.position = { taker.position with
        heldLegacy := Function.update taker.position.heldLegacy kind
          (taker.position.heldLegacy kind + c.frozenBalance) } ∧
      w' = { w with
        accounts := w.accounts.put taker'
        delegatedResources := w.delegatedResources.insert
          (legacyResourceKey owner.address c.receiverAddress)
          (setRow (delegated w (legacyResourceKey owner.address c.receiverAddress) owner.address
            c.receiverAddress) kind
            (rowAmount (delegated w (legacyResourceKey owner.address c.receiverAddress)
              owner.address c.receiverAddress) kind + c.frozenBalance) expire)
        accountIndexes := FreezeBalance.putIndexes (enabled w .allowDelegateOptimization)
          w.accountIndexes owner.address c.receiverAddress now } := by
  simp only [FreezeBalance.lend, bind_eq_ok_iff, account_eq_ok_iff, checkedAdd_eq_ok_iff,
    pure_eq_ok_iff, Prod.mk.injEq] at h
  obtain ⟨taker, hf, _, ⟨-, rfl⟩, _, ⟨hfi, rfl⟩, _, ⟨-, rfl⟩, rfl, rfl⟩ := h
  have ha : taker.address = c.receiverAddress := Accounts.get_address hf
  refine ⟨taker, _, hf, hfi, (address_setAcquiredLegacy taker _ kind).trans ha,
    address_setDelegatedLegacy owner _ kind, position_setDelegatedLegacy owner _ hk,
    position_setAcquiredLegacy taker _ hk, ?_⟩
  rw [ha]
  rfl

theorem FreezeBalance.validate_ok {c : FreezeBalance} {w : World} (h : c.validate w = .ok ()) :
    ∃ owner kind, validAddress c.ownerAddress = true ∧
      w.accounts.get c.ownerAddress = some owner ∧ ResourceCode.ofI32? c.resource = some kind ∧
      trxPrecision ≤ c.frozenBalance ∧ owner.frozen.length ≤ 1 ∧
      (receiverPresent w c.receiverAddress = true → kind ≠ .tronPower ∧
        validAddress c.receiverAddress = true ∧ c.ownerAddress ≠ c.receiverAddress) := by
  simp only [FreezeBalance.validate, bind_eq_ok_iff, refuseIf_eq_ok_iff,
    strictResource_eq_ok_iff, not_lt, not_le, not_and, not_not] at h
  obtain ⟨owner, ho, -, -, -, he, -, hs, -, -, kind, ⟨hki, -⟩, -, hpo, _, hr,
    -⟩ := h
  obtain ⟨hv, hf⟩ := validateOwner_ok ho
  refine ⟨owner, kind, hv, hf, hki, he, hs, fun hp => ?_⟩
  rw [if_pos hp] at hr
  simp only [FreezeBalance.validateReceiver, bind_eq_ok_iff, refuseIf_eq_ok_iff, not_not] at hr
  obtain ⟨-, hne, -, hvr, -⟩ := hr
  refine ⟨fun hk => ?_, hvr, fun h => hne h.symm⟩
  have hem := hpo hk
  simp [receiverPresent, hem] at hp

theorem FreezeBalance.execute_effect {c : FreezeBalance}
    (h : (Operation.freezeBalance c).execute cfg w = .ok (w', r)) :
    (receiverPresent w c.receiverAddress = false ∧
      ∃ owner owner' kind expire, FreezesOwn c w w' owner owner' kind expire) ∨
    (receiverPresent w c.receiverAddress = true ∧
      ∃ owner owner' taker taker' kind now expire,
        FreezesFor c w w' owner owner' taker taker' kind now expire) := by
  simp only [Operation.execute, Operation.validate, Operation.executeIn, bind_eq_ok_iff,
    FreezeBalance.executeIn, account_eq_ok_iff, resource_eq_ok_iff, checkedSub_eq_ok_iff,
    pure_eq_ok_iff, Prod.mk.injEq, legacyResourceBalance_eq_own] at h
  obtain ⟨_, hva, owner₀, hg, owner₁, hi, now, -, duration, -, expire, -, kind, hki,
    ⟨w₁, owner₂⟩, hb, _, ⟨-, rfl⟩, w₂, hc, rfl, -⟩ := h
  obtain ⟨owner, kind₀, hv, hfo, hk₀, he, hs, hpr⟩ :=
    FreezeBalance.validate_ok hva
  obtain rfl := Option.some.inj (hki.symm.trans hk₀)
  obtain rfl := Option.some.inj (hg.symm.trans hfo)
  obtain ⟨hp₁, ha₁, hv₁⟩ := initializeOldTronPower_ok hi
  have ha₀ : owner₀.address = c.ownerAddress := Accounts.get_address hfo
  cases hr : receiverPresent w c.receiverAddress with
  | false =>
    simp only [hr, Bool.false_eq_true, if_false, bind_eq_ok_iff, pure_eq_ok_iff,
      Prod.mk.injEq] at hb
    obtain ⟨owner₃, had, rfl, rfl⟩ := hb
    obtain ⟨hfi, ha₂, hv₂, hp₂⟩ := addLegacy_ok had
    rw [hp₁] at hfi hp₂ hc
    have hp : ({ owner₃ with balance := owner₃.balance - c.frozenBalance } : Account).position =
        { owner₀.position with
          balance := owner₀.balance - c.frozenBalance
          legacy := Function.update owner₀.position.legacy kind
            [⟨owner₀.position.own kind + c.frozenBalance, expire⟩] } := by
      rw [position_balance, ← balance_position owner₃, hp₂, balance_position]
    obtain ⟨hf, -, hw⟩ := changeLegacyWeight_follows hc
      (fun k hk => own_update_of_ne (by rw [hp]) hk) (by rw [hp]) (by rw [hp])
    rw [hw]
    exact .inl ⟨rfl, owner₀, { owner₃ with balance := owner₃.balance - c.frozenBalance }, kind,
      expire, ⟨hv, hfo, ha₂.trans (ha₁.trans ha₀), rfl, rfl, rfl, rfl,
      .refl (hv₂.trans hv₁)⟩, hki, he, hs, hfi, hp, hf⟩
  | true =>
    obtain ⟨hl, hvr, hne⟩ := hpr hr
    simp only [hr, if_true] at hb
    obtain ⟨taker, taker', ht, hfi, hat, ha₂, hp₂, hpt, rfl⟩ :=
      FreezeBalance.lend_ok hl hb
    rw [hp₁] at hp₂ hc
    have hp : ({ owner₂ with balance := owner₂.balance - c.frozenBalance } : Account).position =
        { owner₀.position with
          balance := owner₀.balance - c.frozenBalance
          lentLegacy := Function.update owner₀.position.lentLegacy kind
            (owner₀.position.lentLegacy kind + c.frozenBalance) } := by
      rw [position_balance, ← balance_position owner₂, hp₂, balance_position]
    obtain ⟨hf, -, hw⟩ := changeLegacyWeight_follows hc
      (fun k _ => by rw [own, own, hp]) (by rw [hp]) (by rw [hp])
    have ha : owner₂.address = c.ownerAddress := ha₂.trans (ha₁.trans ha₀)
    rw [hw]
    refine .inr ⟨rfl, owner₀, { owner₂ with balance := owner₂.balance - c.frozenBalance }, taker,
      taker', kind, now, expire, ⟨hv, hvr, hne, hfo, ht, ha, hat, ?_,
      rfl⟩, hki, hl, he, hp, hfi, hpt, ?_, ?_, hf⟩
    · exact Accounts.put_comm _ (by rw [hat]; exact fun h => hne (ha ▸ h.symm))
    · rw [ha₁, ha₀]
      rfl
    · rw [ha₁, ha₀]
      rfl

/-- The effect of `UnfreezeBalance` without a receiver. -/
structure UnfreezesOwn (c : UnfreezeBalance) (w w' : World) (owner owner' : Account)
    (kind : ResourceCode) (now amount : Int) : Prop
    extends SavesOwner w w' c.ownerAddress owner owner' where
  resource_eq : ResourceCode.ofI32? c.resource = some kind
  amount_eq : amount = ownIn kind
    ((owner.position.legacy kind).filter fun item => item.expireTime ≤ now)
  position_eq : owner'.position = { owner.position with
    balance := owner.balance + amount
    legacy := Function.update owner.position.legacy kind
      ((owner.position.legacy kind).filter fun item => ¬ item.expireTime ≤ now) }
  follows : enabled w .allowNewReward = true →
    Follows w.dynamicProperties w'.dynamicProperties owner.position owner'.position
  other : ∀ q, (∀ k, q ≠ weightName k) →
    w'.dynamicProperties.lookup q = w.dynamicProperties.lookup q

theorem lentKind_ne (kind : ResourceCode) : lentKind kind ≠ .tronPower := by
  cases kind <;> decide

/-- The accounts after `UnfreezeBalance` with a receiver: the receiver, if it is there, holds
less. -/
def TakenBackLegacy (c : UnfreezeBalance) (w w' : World) (owner' : Account) (lent : ResourceCode)
    (value : Int) : Option Account → Prop
  | none => w'.accounts = w.accounts.put owner'
  | some a => ∃ b : Account, b.address = c.receiverAddress ∧ b.votes = a.votes ∧
      b.position = { a.position with
        heldLegacy := Function.update a.position.heldLegacy lent
          (max (saturate (a.position.heldLegacy lent - value)) 0) } ∧
      w'.accounts = (w.accounts.put owner').put b

/-- The effect of `UnfreezeBalance` with a receiver. -/
structure UnfreezesFor (c : UnfreezeBalance) (w w' : World) (owner owner' : Account)
    (kind : ResourceCode) (row : DelegatedResource) : Prop where
  validOwner : validAddress c.ownerAddress = true
  validReceiver : validAddress c.receiverAddress = true
  distinct : c.ownerAddress ≠ c.receiverAddress
  resource_eq : ResourceCode.ofI32? c.resource = some kind
  foundOwner : w.accounts.get c.ownerAddress = some owner
  foundRow : w.delegatedResources.lookup (legacyResourceKey c.ownerAddress c.receiverAddress) =
    some row
  ownerAddress_eq : owner'.address = c.ownerAddress
  owner_eq : owner'.position = { owner.position with
    balance := owner.balance + rowAmount row (lentKind kind)
    lentLegacy := Function.update owner.position.lentLegacy (lentKind kind)
      (owner.position.lentLegacy (lentKind kind) - rowAmount row (lentKind kind)) }
  taker_eq : TakenBackLegacy c w w' owner' (lentKind kind) (rowAmount row (lentKind kind))
    (w.accounts.get c.receiverAddress)
  rows_eq : w'.delegatedResources =
    if rowEmpty (setRow row (lentKind kind) 0 (rowExpire row (lentKind kind))) then
      w.delegatedResources.erase (legacyResourceKey c.ownerAddress c.receiverAddress)
    else w.delegatedResources.insert (legacyResourceKey c.ownerAddress c.receiverAddress)
      (setRow row (lentKind kind) 0 (rowExpire row (lentKind kind)))
  indexes_eq : w'.accountIndexes =
    if rowEmpty (setRow row (lentKind kind) 0 (rowExpire row (lentKind kind))) then
      removeIndexes w.accountIndexes c.ownerAddress c.receiverAddress
    else w.accountIndexes
  weight : enabled w .allowNewReward = true → SetsWeight w.dynamicProperties kind
    (-(rowAmount row (lentKind kind)).tdiv trxPrecision) w'.dynamicProperties
  other : ∀ q, (∀ k, q ≠ weightName k) →
    w'.dynamicProperties.lookup q = w.dynamicProperties.lookup q
  witnesses_eq : w'.witnesses = w.witnesses
  revotes : Revotes w.votes w'.votes owner owner'

theorem UnfreezeBalance.validate_ok {c : UnfreezeBalance} {w : World} (h : c.validate w = .ok ()) :
    ∃ owner kind now, validAddress c.ownerAddress = true ∧
      w.accounts.get c.ownerAddress = some owner ∧ ResourceCode.ofI32? c.resource = some kind ∧
      dynamicLong w .latestBlockHeaderTimestamp = .ok now ∧
      (receiverPresent w c.receiverAddress = true →
        validAddress c.receiverAddress = true ∧ c.ownerAddress ≠ c.receiverAddress ∧
        ∃ row, w.delegatedResources.lookup (legacyResourceKey c.ownerAddress c.receiverAddress) =
          some row) ∧
      (receiverPresent w c.receiverAddress = false →
        ∃ frozen, legacyFrozen owner kind = some frozen ∧ frozen.expireTime ≤ now) := by
  simp only [UnfreezeBalance.validate, bind_eq_ok_iff, strictResource_eq_ok_iff] at h
  obtain ⟨owner, ho, kind, ⟨hk, -⟩, now, hn, h⟩ := h
  obtain ⟨hv, hfo⟩ := validateOwner_ok ho
  refine ⟨owner, kind, now, hv, hfo, hk, hn, fun hp => ?_, fun ha => ?_⟩
  · rw [if_pos hp] at h
    simp only [UnfreezeBalance.validateReceiver, bind_eq_ok_iff, refuseIf_eq_ok_iff, not_or,
      not_not] at h
    obtain ⟨-, ⟨hvr, hne⟩, -, -, h⟩ := h
    split at h
    · exact absurd h throw_ne_ok
    · next row hr => exact ⟨hvr, fun h => hne h.symm, row, hr⟩
  · rw [ha] at h
    simp only [Bool.false_eq_true, if_false] at h
    split at h
    · exact absurd h throw_ne_ok
    · next frozen hf =>
      rw [refuseIf_eq_ok_iff, not_lt] at h
      exact ⟨frozen, hf, h⟩

theorem legacyFrozen_eq_head (a : Account) (kind : ResourceCode) :
    legacyFrozen a kind = (a.position.legacy kind).head? := by
  cases kind with
  | bandwidth => rfl
  | energy => cases h : a.resource.frozenBalanceForEnergy <;> simp [legacyFrozen, Account.position, h]
  | tronPower => cases h : a.tronPower <;> simp [legacyFrozen, Account.position, h]

theorem releaseLegacy_spec {a : Account} {now : Int} {frozen : Frozen}
    (hf : legacyFrozen a kind = some frozen) (he : frozen.expireTime ≤ now) :
    (releaseLegacy a kind now).2 =
        ownIn kind ((a.position.legacy kind).filter fun item => item.expireTime ≤ now) ∧
      (releaseLegacy a kind now).1.position = { a.position with
        legacy := Function.update a.position.legacy kind
          ((a.position.legacy kind).filter fun item => ¬ item.expireTime ≤ now) } ∧
      (releaseLegacy a kind now).1.address = a.address ∧
      (releaseLegacy a kind now).1.votes = a.votes := by
  have hn : ¬ now < frozen.expireTime := by omega
  cases kind with
  | bandwidth =>
    refine ⟨rfl, ?_, rfl, rfl⟩
    refine Position.ext rfl (funext fun k => ?_) rfl rfl rfl rfl rfl rfl
    cases k <;> rfl
  | energy =>
    have hl : a.position.legacy .energy = [frozen] := by
      simp [Account.position, show a.resource.frozenBalanceForEnergy = some frozen from hf]
    have hen : a.resource.frozenBalanceForEnergy = some frozen := hf
    refine ⟨?_, ?_, rfl, rfl⟩
    · simp [releaseLegacy, hen, hl, ownIn, he]
    · refine Position.ext rfl (funext fun k => ?_) rfl rfl rfl rfl rfl rfl
      rw [hl]
      cases k <;> simp [releaseLegacy, Account.position, Account.resource, hn]
  | tronPower =>
    have hl : a.position.legacy .tronPower = [frozen] := by
      simp [Account.position, show a.tronPower = some frozen from hf]
    have hp : a.tronPower = some frozen := hf
    refine ⟨?_, ?_, rfl, rfl⟩
    · simp [releaseLegacy, hp, hl, ownIn, he]
    · refine Position.ext rfl (funext fun k => ?_) rfl rfl rfl rfl rfl rfl
      rw [hl]
      cases k <;> simp [releaseLegacy, Account.position, Account.resource, hn]

theorem UnfreezeBalance.takeBack_ok {c : UnfreezeBalance} {owner owner' : Account}
    {row : DelegatedResource} {amount : Int}
    (hro : w.delegatedResources.lookup (legacyResourceKey owner.address c.receiverAddress) =
      some row) (h : c.takeBack w owner kind = .ok (w', owner', amount)) :
    amount = rowAmount row (lentKind kind) ∧ owner'.address = owner.address ∧
      owner'.votes = owner.votes ∧
      owner'.position = { owner.position with
        lentLegacy := Function.update owner.position.lentLegacy (lentKind kind)
          (owner.position.lentLegacy (lentKind kind) - rowAmount row (lentKind kind)) } ∧
      w' = { w with
        accounts := w'.accounts
        delegatedResources :=
          if rowEmpty (setRow row (lentKind kind) 0 (rowExpire row (lentKind kind))) then
            w.delegatedResources.erase (legacyResourceKey owner.address c.receiverAddress)
          else w.delegatedResources.insert (legacyResourceKey owner.address c.receiverAddress)
            (setRow row (lentKind kind) 0 (rowExpire row (lentKind kind)))
        accountIndexes :=
          if rowEmpty (setRow row (lentKind kind) 0 (rowExpire row (lentKind kind))) then
            removeIndexes w.accountIndexes owner.address c.receiverAddress
          else w.accountIndexes } ∧
      (w.accounts.get c.receiverAddress = none ∧ w'.accounts = w.accounts ∨
        ∃ a b, w.accounts.get c.receiverAddress = some a ∧ b.address = a.address ∧
          b.votes = a.votes ∧ b.position = { a.position with
            heldLegacy := Function.update a.position.heldLegacy (lentKind kind)
              (max (saturate (a.position.heldLegacy (lentKind kind) -
                rowAmount row (lentKind kind))) 0) } ∧
          w'.accounts = w.accounts.put b) := by
  have hr : delegated w (legacyResourceKey owner.address c.receiverAddress) owner.address
      c.receiverAddress = row := by rw [delegated, hro]; rfl
  simp only [UnfreezeBalance.takeBack, bind_eq_ok_iff, checkedSub_eq_ok_iff, pure_eq_ok_iff,
    Prod.mk.injEq, hr] at h
  obtain ⟨_, ⟨-, rfl⟩, rfl, rfl, rfl⟩ := h
  have hk := lentKind_ne kind
  refine ⟨rfl, address_setDelegatedLegacy owner _ _, ?_, position_setDelegatedLegacy owner _ hk,
    ?_, ?_⟩
  · exact votes_setDelegatedLegacy owner _ _
  · rw [address_setDelegatedLegacy]
    cases w.accounts.get c.receiverAddress <;> dsimp only [save] <;> split <;> rfl
  · cases ht : w.accounts.get c.receiverAddress with
    | none =>
      refine .inl ⟨rfl, ?_⟩
      dsimp only
      split <;> rfl
    | some a =>
      refine .inr ⟨a, _, rfl, address_setAcquiredLegacy a _ _, votes_setAcquiredLegacy a _ _,
        position_setAcquiredLegacy a _ hk, ?_⟩
      dsimp only [save]
      split <;> rfl

theorem UnfreezeBalance.execute_effect {c : UnfreezeBalance}
    (h : (Operation.unfreezeBalance c).execute cfg w = .ok (w', r)) :
    (receiverPresent w c.receiverAddress = false ∧
      ∃ owner owner' kind now amount, UnfreezesOwn c w w' owner owner' kind now amount) ∨
    (receiverPresent w c.receiverAddress = true ∧
      ∃ owner owner' kind row, UnfreezesFor c w w' owner owner' kind row) := by
  simp only [Operation.execute, Operation.validate, Operation.executeIn, bind_eq_ok_iff,
    UnfreezeBalance.executeIn, account_eq_ok_iff, resource_eq_ok_iff, checkedAdd_eq_ok_iff,
    pure_eq_ok_iff, Prod.mk.injEq, legacyResourceBalance_eq_own] at h
  obtain ⟨_, hva, w₁, hre, owner₁, hg₁, owner₂, hi, kind, hki, now, hno,
    ⟨w₂, owner₃, amount⟩, hbr, _, ⟨-, rfl⟩, w₃, hc, rfl, -⟩ := h
  obtain ⟨owner, kind₀, now₀, hv, hf, hk₀, hn₀, hpre, hab⟩ :=
    UnfreezeBalance.validate_ok hva
  -- the reward is paid first: it changes the balance and the votes, and no stake
  obtain ⟨accounts, hrew, rfl⟩ := withdrawReward_pays hre
  obtain ⟨owner₀, hf₀, hp₁, hv₁, ho, hpu⟩ := hrew.cases hg₁
  obtain rfl := Option.some.inj (hf₀.symm.trans hf)
  obtain rfl := Option.some.inj (hki.symm.trans hk₀)
  obtain rfl := Except.ok.inj (hno.symm.trans hn₀)
  obtain ⟨hp₂, ha₂, hv₂⟩ := initializeOldTronPower_ok hi
  have ha₀ : owner₀.address = c.ownerAddress := Accounts.get_address hf
  have ha₁ : owner₁.address = c.ownerAddress := Accounts.get_address hg₁
  have hrec : receiverPresent { w with accounts := accounts } c.receiverAddress =
      receiverPresent w c.receiverAddress := rfl
  rw [hrec] at hbr hc
  -- the votes follow last, whatever the branch has done
  have hfo := UnfreezeBalance.follow_followVotes w₃ { owner₃ with balance := owner₃.balance + amount }
    kind (enabled { w with accounts := accounts } .allowNewResourceModel)
  generalize UnfreezeBalance.followVotes w₃ { owner₃ with balance := owner₃.balance + amount } kind
    (enabled { w with accounts := accounts } .allowNewResourceModel) = done at hfo ⊢
  obtain ⟨hwo, hp₄, ha₄, hr⟩ := hfo
  cases hca : receiverPresent w c.receiverAddress with
  | false =>
    -- for itself: expired items leave the stake
    obtain ⟨frozen, hfr, he⟩ := hab hca
    have hf₂ : legacyFrozen owner₂ kind = some frozen := by
      rw [legacyFrozen_eq_head, hp₂, hp₁, ← legacyFrozen_eq_head, hfr]
    obtain ⟨ham, hrel, ha₃, hv₃⟩ := releaseLegacy_spec hf₂ he
    simp only [hca, Bool.false_eq_true, if_false, pure_eq_ok_iff, Prod.mk.injEq] at hbr hc
    obtain ⟨rfl, rfl, rfl⟩ := hbr
    generalize (releaseLegacy owner₂ kind now).1 = owner₃ at *
    generalize (releaseLegacy owner₂ kind now).2 = amount at *
    rw [hp₂, hp₁] at hrel ham hc
    have hp : ({ owner₃ with balance := owner₃.balance + amount } : Account).position =
        { owner₀.position with
          balance := owner₀.balance + amount
          legacy := Function.update owner₀.position.legacy kind
            ((owner₀.position.legacy kind).filter fun item => ¬ item.expireTime ≤ now) } := by
      rw [position_balance, ← balance_position owner₃, hrel, balance_position]
    obtain ⟨hfol, hother_props, hw⟩ := changeLegacyWeight_follows hc
      (fun k hk => own_update_of_ne (by rw [hp]) hk) (by rw [hp]) (by rw [hp])
    have ha : done.2.address = c.ownerAddress :=
      ha₄.trans (ha₃.trans (ha₂.trans ha₁))
    rw [hw] at hr
    rw [hwo, hw]
    refine .inl ⟨rfl, owner₀, done.2, kind, now, amount, ⟨hv, hf, ha, hpu _ ha, rfl,
      rfl, rfl, ?_⟩, hki, ham, hp₄.trans hp, ?_, hother_props⟩
    · exact hr.congr (ha₃.trans (ha₂.trans (ha₁.trans ha₀.symm)))
        (hv₃.trans (hv₂.trans hv₁))
    · rw [hp₄]
      exact hfol
  | true =>
    -- for a receiver: the row is taken back, and what the receiver holds
    obtain ⟨hvr, hne, row, hro⟩ := hpre hca
    simp only [hca, if_true] at hbr hc
    have hr₂ : ({ w with accounts := accounts } : World).delegatedResources.lookup
        (legacyResourceKey owner₂.address c.receiverAddress) = some row := by
      rw [ha₂, ha₁, ← hro]
    obtain ⟨ham, ha₃, hv₃, hp₃, hw₂, ht⟩ := UnfreezeBalance.takeBack_ok hr₂ hbr
    subst ham
    have hp : ({ owner₃ with balance := owner₃.balance + rowAmount row (lentKind kind) } :
        Account).position = { owner₀.position with
          balance := owner₀.balance + rowAmount row (lentKind kind)
          lentLegacy := Function.update owner₀.position.lentLegacy (lentKind kind)
            (owner₀.position.lentLegacy (lentKind kind) - rowAmount row (lentKind kind)) } := by
      rw [position_balance, ← balance_position owner₃, hp₃, hp₂, hp₁, balance_position]
    have ha : done.2.address = c.ownerAddress :=
      ha₄.trans (ha₃.trans (ha₂.trans ha₁))
    obtain ⟨props, hs, rfl⟩ := addWeight_eq_ok_iff.mp hc
    have hpr : w₂.dynamicProperties = w.dynamicProperties := by rw [hw₂]
    rw [hw₂] at hr
    rw [hwo, hw₂, ha₂, ha₁]
    refine .inr ⟨rfl, owner₀, done.2, kind, row, hv, hvr, hne, hki, hf, hro,
      ha, hp₄.trans hp, ?_, rfl, rfl, fun hre => ?_, fun q hq => ?_, rfl, ?_⟩
    · have hsa : accounts.get c.receiverAddress = w.accounts.get c.receiverAddress :=
        ho _ (Ne.symm hne)
      rcases ht with ⟨hn, hac⟩ | ⟨a, b, hso, hb, hvo, hpb, hac⟩
      · have hg : w.accounts.get c.receiverAddress = none := hsa.symm.trans hn
        rw [hg]
        simp only [TakenBackLegacy, save, hac]
        exact hpu _ ha
      · have hg : w.accounts.get c.receiverAddress = some a := hsa.symm.trans hso
        have hba : b.address = c.receiverAddress := hb.trans (Accounts.get_address hg)
        rw [hg]
        refine ⟨b, hba, hvo, hpb, ?_⟩
        simp only [save, hac]
        have hn' : b.address ≠ done.2.address := by
          rw [hba, ha]
          exact Ne.symm hne
        rw [Accounts.put_comm _ hn']
        exact congrArg (Accounts.put · b) (hpu _ ha)
    · rw [hpr, enabled_congr hpr, if_pos hre] at hs
      simpa [save] using hs
    · exact (hs.lookup_of_ne (hq kind)).trans (by rw [hpr])
    · exact hr.congr (ha₃.trans (ha₂.trans (ha₁.trans ha₀.symm)))
        (hv₃.trans (hv₂.trans hv₁))

end RustTron.Actuator
