import RustTron.Staking.Effects
import RustTron.Staking.Runs
import RustTron.Tvm.Staking

/-!
# Staking by a contract and by a transaction

The virtual machine stakes with code of its own. This compares each of its operations with the
actuator for the same step: when both accept, they leave the same positions, rows, indexes and
total weights exactly under a condition on the state before.

## Main definitions

* `StakingCall`, `StakingCall.attempt`, `StakingCall.operation`: a step of either kind
* `SameStaking`: two states agree on everything that staking is about
* `StakingCall.Agrees`: the states in which the two implementations agree
* `StakingCall.LeavesNoTrace`: the states in which a refusal changes nothing

## Main results

* `staking_agrees_iff`: the two implementations agree in these states, and in no other
-/

namespace RustTron.Tvm

open Actuator (frozenV2 delegatedV2 acquiredV2 delegatedLegacy expiredAmount pendingItems weightName
  delegated rowAmount rowExpire setRow rowEmpty resourceV2Key v2FromIndexKey v2ToIndexKey dayMs
  Operation ExecutionConfig ActuatorResult totalWeight dynamicLong dynamicLong_eq_ok_iff)

open Position (staked stakedIn)

/-! ## The two implementations -/

/-- A staking step of a contract. -/
inductive StakingCall where
  | freezeV2 (amount kind : Word)
  | unfreezeV2 (amount kind : Word)
  | withdrawExpiredV2
  | cancelAllUnfreezeV2
  | delegateV2 (receiver : Bytes) (amount kind : Word)
  | undelegateV2 (receiver : Bytes) (amount kind : Word)

namespace StakingCall

/-- The step as the virtual machine takes it: what is pushed, and the state after it. -/
def attempt (owner : Bytes) (w : World) : StakingCall → Attempt (Int × World)
  | freezeV2 amount kind => pushBool (Tvm.freezeV2 w owner amount kind)
  | unfreezeV2 amount kind => pushBool (Tvm.unfreezeV2 w owner amount kind)
  | withdrawExpiredV2 => Tvm.withdrawExpiredV2 w owner
  | cancelAllUnfreezeV2 => pushBool (Tvm.cancelAllUnfreezeV2 w owner)
  | delegateV2 receiver amount kind => pushBool (Tvm.delegateV2 w owner receiver amount kind)
  | undelegateV2 receiver amount kind => pushBool (Tvm.undelegateV2 w owner receiver amount kind)

/-- The same step as a transaction of the owner. -/
def operation (owner : Bytes) : StakingCall → Operation
  | freezeV2 amount kind => .freezeBalanceV2 ⟨owner, amount.toI64Safe, kind.toI64Safe⟩
  | unfreezeV2 amount kind => .unfreezeBalanceV2 ⟨owner, amount.toI64Safe, kind.toI64Safe⟩
  | withdrawExpiredV2 => .withdrawExpireUnfreeze ⟨owner⟩
  | cancelAllUnfreezeV2 => .cancelAllUnfreezeV2 ⟨owner⟩
  | delegateV2 receiver amount kind =>
    .delegateResource ⟨owner, kind.toI64Safe, amount.toI64Safe, receiver, false, 0⟩
  | undelegateV2 receiver amount kind =>
    .unDelegateResource ⟨owner, kind.toI64Safe, amount.toI64Safe, receiver⟩

end StakingCall

/-- Staking with a delay and delegation are open. -/
structure StakingOpen (w : World) : Prop where
  delay : ∃ days, dynamicLong w .unfreezeDelayDays = .ok days ∧ 0 < days
  resourceModel : Actuator.enabled w .allowNewResourceModel = true
  delegation : Actuator.enabled w .allowDelegateResource = true
  cancelling : Actuator.enabled w .allowCancelAllUnfreezeV2 = true

/-- Stake is taken back only from a receiver with no recorded usage. -/
def StakingCall.ReceiverUnused (w : World) : StakingCall → Prop
  | undelegateV2 receiver _ _ => ∀ taker, w.accounts.get receiver = some taker →
      taker.netUsage = 0 ∧ taker.resource.energyUsage = 0
  | _ => True

/-- The two states agree on everything that staking is about. -/
structure SameStaking (w w' : World) : Prop where
  positions : ∀ address, (w.accounts.get address).map Account.position =
    (w'.accounts.get address).map Account.position
  rows : w.delegatedResources = w'.delegatedResources
  indexes : w.accountIndexes = w'.accountIndexes
  weights : ∀ kind, totalWeight w.dynamicProperties kind = totalWeight w'.dynamicProperties kind

/-! ## When they agree -/

/-- The whole TRX in an amount. -/
def wholeTrx (amount : Int) : Int := amount.tdiv trxPrecision

/-- A change of the stake moves the whole TRX in it by as much whether or not the stake that is lent
counts. -/
def RoundsAlike (staked lent change : Int) : Prop :=
  wholeTrx (staked + change) - wholeTrx staked =
    wholeTrx (staked + lent + change) - wholeTrx (staked + lent)

/-- The unstaking amounts of a resource whose time has not come. -/
def unstaking (now : Int) (items : List UnFreezeV2) (kind : ResourceCode) : Int :=
  ((items.filter fun item => ¬ item.unfreezeExpireTime ≤ now ∧ item.type = kind.toI32).map
    UnFreezeV2.unfreezeAmount).sum

/-- The entries before the first pending one whose resource is unknown. -/
def understood (now : Int) (items : List UnFreezeV2) : List UnFreezeV2 :=
  items.takeWhile fun item =>
    item.unfreezeExpireTime ≤ now ∨ (ResourceCode.ofI32? item.type).isSome

/-- A delegation leaves the locked row of the pair as it is: what has expired of it is nothing. -/
def NothingToUnlock (w : World) (owner receiver : Bytes) (now : Int) : Prop :=
  ∀ locked, w.delegatedResources.lookup (resourceV2Key owner receiver true) = some locked →
    ∀ kind, kind ≠ .tronPower → rowExpire locked kind < now →
      ¬ rowEmpty locked ∧ rowAmount locked kind = 0 ∧ rowExpire locked kind = 0

/-- The index lists the pair, with the time `now`. -/
def IndexedAt (w : World) (owner receiver : Bytes) (now : Int) : Prop :=
  w.accountIndexes.lookup (v2FromIndexKey owner receiver) =
      some { account := receiver, timestamp := now } ∧
    w.accountIndexes.lookup (v2ToIndexKey receiver owner) =
      some { account := owner, timestamp := now }

/-- The pair has a locked row that still holds something, and nothing of it has expired, or none. -/
def NothingExpired (w : World) (owner receiver : Bytes) (now : Int) : Prop :=
  ∀ locked, w.delegatedResources.lookup (resourceV2Key owner receiver true) = some locked →
    ¬ rowEmpty locked ∧ ∀ kind, ¬ (0 < rowAmount locked kind ∧ rowExpire locked kind < now)

/-- The index does not list the pair. -/
def Unindexed (w : World) (owner receiver : Bytes) : Prop :=
  w.accountIndexes.lookup (v2FromIndexKey owner receiver) = none ∧
    w.accountIndexes.lookup (v2ToIndexKey receiver owner) = none

/-- Taking `n` of a resource back empties the row of the pair, and it has no locked row. -/
def LastOfPair (w : World) (owner receiver : Bytes) (kind : ResourceCode) (n : Int) : Prop :=
  w.delegatedResources.lookup (resourceV2Key owner receiver true) = none ∧
    ∀ row, w.delegatedResources.lookup (resourceV2Key owner receiver false) = some row →
      ∀ k, rowAmount row k = if k = kind then n else 0

/-- The states in which the two implementations of a step do the same. -/
def StakingCall.Agrees (owner : Bytes) (w : World) : StakingCall → Prop
  | freezeV2 amount kind => ∀ a k, w.accounts.get owner = some a → resource kind true = some k →
      RoundsAlike (frozenV2 a k) (delegatedV2 a k) amount.toI64Safe
  | unfreezeV2 amount kind => ∀ a k, w.accounts.get owner = some a → resource kind true = some k →
      RoundsAlike (frozenV2 a k) (delegatedV2 a k) (-amount.toI64Safe)
  | withdrawExpiredV2 => True
  | cancelAllUnfreezeV2 => ∀ a now, w.accounts.get owner = some a →
      dynamicLong w .latestBlockHeaderTimestamp = .ok now → ∀ k,
        RoundsAlike (frozenV2 a k) (delegatedV2 a k) (unstaking now a.unfrozenV2 k)
  | delegateV2 receiver _ kind => ∀ k now, resource kind false = some k →
      dynamicLong w .latestBlockHeaderTimestamp = .ok now →
        NothingToUnlock w owner receiver now ∧ IndexedAt w owner receiver now ∧
          rowExpire (delegated w (resourceV2Key owner receiver false) owner receiver) k = 0
  | undelegateV2 receiver amount kind => ∀ taker k now, w.accounts.get receiver = some taker →
      resource kind false = some k → dynamicLong w .latestBlockHeaderTimestamp = .ok now →
        NothingExpired w owner receiver now ∧ amount.toI64Safe ≤ acquiredV2 taker k ∧
          (LastOfPair w owner receiver k amount.toI64Safe → Unindexed w owner receiver)

/-- The states in which a step that is refused without an error leaves no trace. Only cancelling can
leave one: at a pending entry of an unknown resource, with the weights of the entries before it
already moved. -/
def StakingCall.LeavesNoTrace (owner : Bytes) (w : World) : StakingCall → Prop
  | cancelAllUnfreezeV2 => ∀ a now, dynamicOrZero w .allowCancelAllUnfreezeV2 = .ok 1 →
      w.accounts.get owner = some a → dynamicOrZero w .latestBlockHeaderTimestamp = .ok now → ∀ k,
        (∃ item ∈ understood now a.unfrozenV2,
          ¬ item.unfreezeExpireTime ≤ now ∧ item.type = k.toI32) →
        (∃ total, InI64 total ∧ w.dynamicProperties.lookup (weightName k) = some (be64 total)) ∧
          wholeTrx (frozenV2 a k + unstaking now (understood now a.unfrozenV2) k) =
            wholeTrx (frozenV2 a k)
  | _ => True

/-! ## What the virtual machine does -/

theorem checkedAdd_eq_ok_iff {x y z : Int} :
    checkedAdd x y = .ok z ↔ InI64 (x + y) ∧ z = x + y := by
  unfold checkedAdd
  split <;> simp_all [eq_comm]

theorem checkedMul_eq_ok_iff {x y z : Int} :
    checkedMul x y = .ok z ↔ InI64 (x * y) ∧ z = x * y := by
  unfold checkedMul
  split <;> simp_all [eq_comm]

theorem dynamicOrZero_of_lookup {w : World} {p : Property} {x : Int}
    (h : (w.dynamicProperties.lookup p).bind fromBe64 = some x) : dynamicOrZero w p = .ok x := by
  obtain ⟨bytes, hb, hx⟩ := Option.bind_eq_some_iff.mp h
  have hl : bytes.length = 8 := by
    by_contra hl
    simp [fromBe64, hl] at hx
  simp only [dynamicOrZero, dynamicI64, hb, if_pos hl, hx]
  rfl

theorem dynamicOrZero_of_dynamicLong {w : World} {p : Property} {x : Int}
    (h : dynamicLong w p = .ok x) : dynamicOrZero w p = .ok x :=
  dynamicOrZero_of_lookup (dynamicLong_eq_ok_iff.mp h)

theorem addFrozenV2Items_ok {kind : ResourceCode} {n : Int} {items items' : List FreezeV2}
    (h : addFrozenV2Items kind n items = .ok items') :
    Actuator.addFrozenV2Items kind n items = .ok items' := by
  induction items generalizing items' with
  | nil => simpa only [addFrozenV2Items, Actuator.addFrozenV2Items, pure_eq_ok_iff] using h
  | cons item items ih =>
    unfold addFrozenV2Items at h
    unfold Actuator.addFrozenV2Items
    split at h
    · next hk =>
      simp only [bind_eq_ok_iff, checkedAdd_eq_ok_iff, pure_eq_ok_iff] at h
      obtain ⟨_, ⟨hin, rfl⟩, rfl⟩ := h
      simp only [if_pos hk, bind_eq_ok_iff, Actuator.checkedAdd_eq_ok_iff, pure_eq_ok_iff]
      exact ⟨_, ⟨hin, rfl⟩, rfl⟩
    · next hk =>
      simp only [bind_eq_ok_iff, pure_eq_ok_iff] at h
      obtain ⟨rest, hr, rfl⟩ := h
      simp only [if_neg hk, bind_eq_ok_iff, pure_eq_ok_iff]
      exact ⟨rest, ih hr, rfl⟩

theorem addFrozenV2_ok {a b : Account} {kind : ResourceCode} {n : Int}
    (h : addFrozenV2 a kind n = .ok b) :
    ∃ items, Actuator.addFrozenV2Items kind n a.frozenV2 = .ok items ∧
      b = { a with frozenV2 := items } := by
  simp only [addFrozenV2, bind_eq_ok_iff, pure_eq_ok_iff] at h
  obtain ⟨items, hi, rfl⟩ := h
  exact ⟨items, addFrozenV2Items_ok hi, rfl⟩

/-- The virtual machine has moved the total weights of the resources in `touched` as the whole TRX
of the stake move from `p` to `p'`, and has written no other property. -/
structure Shifts (touched : ResourceCode → Prop) (w : World) (props : FMap Property Bytes)
    (p p' : Position) : Prop where
  moved : ∀ k, touched k → ∃ total, dynamicOrZero w (weightName k) = .ok total ∧
    InI64 (total + (wholeTrx (p'.staked k) - wholeTrx (p.staked k))) ∧
    props.lookup (weightName k) =
      some (be64 (total + (wholeTrx (p'.staked k) - wholeTrx (p.staked k))))
  other : ∀ q, (∀ k, touched k → q ≠ weightName k) →
    props.lookup q = w.dynamicProperties.lookup q

theorem Shifts.untouched {touched : ResourceCode → Prop} (w : World) (p : Position)
    (h : ∀ k, ¬ touched k) : Shifts touched w w.dynamicProperties p p :=
  ⟨fun k hk => absurd hk (h k), fun _ _ => rfl⟩

theorem changeWeight_ok {w w' : World} {kind : ResourceCode} (p p' : Position)
    (h : changeWeight w kind (p.staked kind) (p'.staked kind) = .ok w') :
    ∃ props, w' = { w with dynamicProperties := props } ∧ Shifts (· = kind) w props p p' := by
  simp only [changeWeight, bind_eq_ok_iff, checkedAdd_eq_ok_iff, pure_eq_ok_iff] at h
  obtain ⟨total, ht, _, ⟨hin, rfl⟩, rfl⟩ := h
  refine ⟨_, rfl, fun k hk => ?_, fun q hq => ?_⟩
  · subst hk
    exact ⟨total, ht, hin, Finmap.lookup_insert _⟩
  · exact Finmap.lookup_insert_of_ne _ (hq kind rfl)

/-! ## Cancelling -/

/-- A pending entry of the resource is in the list. -/
def Unstaking (now : Int) (items : List UnFreezeV2) (kind : ResourceCode) : Prop :=
  ∃ item ∈ items, ¬ item.unfreezeExpireTime ≤ now ∧ item.type = kind.toI32

theorem type_eq_iff {x : Int} {kind : ResourceCode} :
    ResourceCode.ofI32? x = some kind ↔ x = kind.toI32 := by
  constructor
  · intro h
    unfold ResourceCode.ofI32? at h
    split at h <;> cases h <;> rfl
  · rintro rfl
    exact ResourceCode.ofI32?_toI32 kind

theorem unstaking_cons_expired {now : Int} {item : UnFreezeV2} (items : List UnFreezeV2)
    (h : item.unfreezeExpireTime ≤ now) (k : ResourceCode) :
    unstaking now (item :: items) k = unstaking now items k := by
  simp [unstaking, h]

theorem unstaking_cons_pending {now : Int} {item : UnFreezeV2} (items : List UnFreezeV2)
    {kind : ResourceCode} (h : ¬ item.unfreezeExpireTime ≤ now) (hki : item.type = kind.toI32)
    (k : ResourceCode) :
    unstaking now (item :: items) k =
      (if k = kind then item.unfreezeAmount else 0) + unstaking now items k := by
  have ht : item.type = k.toI32 ↔ k = kind := by
    rw [hki]
    exact ⟨fun h => (ResourceCode.toI32_injective h).symm, fun h => by rw [h]⟩
  by_cases hk : k = kind
  · have hh : ¬ item.unfreezeExpireTime ≤ now ∧ item.type = k.toI32 := ⟨h, ht.mpr hk⟩
    rw [unstaking, List.filter_cons_of_pos (by simpa using hh), if_pos hk]
    rfl
  · have hh : ¬ (¬ item.unfreezeExpireTime ≤ now ∧ item.type = k.toI32) := fun h =>
      hk (ht.mp h.2)
    rw [unstaking, List.filter_cons_of_neg (by simpa using hh), if_neg hk, zero_add]
    rfl

theorem unstaking_eq_zero {now : Int} {items : List UnFreezeV2} {k : ResourceCode}
    (h : ¬ Unstaking now items k) : unstaking now items k = 0 := by
  have he : items.filter (fun item =>
      ¬ item.unfreezeExpireTime ≤ now ∧ item.type = k.toI32) = [] := by
    refine List.filter_eq_nil_iff.mpr fun item hi hp => h ⟨item, hi, ?_⟩
    simpa using hp
  simp only [unstaking, he]
  rfl

theorem staked_cancelsTo {now : Int} {items : List UnFreezeV2} {p p' : Position}
    (h : Actuator.CancelsTo now p items p') (k : ResourceCode) :
    p'.staked k = p.staked k + unstaking now items k := by
  induction items generalizing p with
  | nil =>
    rw [Actuator.CancelsTo] at h
    simp [h, unstaking]
  | cons item items ih =>
    rw [Actuator.CancelsTo] at h
    split at h
    · next he =>
      rw [unstaking_cons_expired items he, ih h]
      rfl
    · next hp =>
      obtain ⟨kind, stakes, hk, hs, hr⟩ := h
      have hst : stakedIn stakes k = p.staked k + if k = kind then item.unfreezeAmount else 0 :=
        Actuator.stakedIn_addFrozenV2Items hs k
      rw [unstaking_cons_pending items hp (type_eq_iff.mp hk), ih hr, staked, hst]
      omega

theorem cancelsTo_unique {now : Int} {items : List UnFreezeV2} {p p₁ p₂ : Position}
    (h₁ : Actuator.CancelsTo now p items p₁) (h₂ : Actuator.CancelsTo now p items p₂) :
    p₁ = p₂ := by
  induction items generalizing p with
  | nil =>
    rw [Actuator.CancelsTo] at h₁ h₂
    rw [h₁, h₂]
  | cons item items ih =>
    rw [Actuator.CancelsTo] at h₁ h₂
    split at h₁
    · next he =>
      rw [if_pos he] at h₂
      exact ih h₁ h₂
    · next hp =>
      rw [if_neg hp] at h₂
      obtain ⟨kind, stakes, hk, hs, hr⟩ := h₁
      obtain ⟨kind', stakes', hk', hs', hr'⟩ := h₂
      obtain rfl := Option.some.inj (hk.symm.trans hk')
      obtain rfl := Except.ok.inj (hs.symm.trans hs')
      exact ih hr hr'

theorem cancelsTo_keeps {now : Int} {items : List UnFreezeV2} {p p' : Position}
    (h : Actuator.CancelsTo now p items p') : p'.legacy = p.legacy ∧ p'.lent = p.lent := by
  induction items generalizing p with
  | nil =>
    rw [Actuator.CancelsTo] at h
    rw [h]
    exact ⟨rfl, rfl⟩
  | cons item items ih =>
    rw [Actuator.CancelsTo] at h
    split at h
    · obtain ⟨hl, hle⟩ := ih h
      exact ⟨hl, hle⟩
    · obtain ⟨kind, stakes, -, -, hr⟩ := h
      obtain ⟨hl, hle⟩ := ih hr
      exact ⟨hl, hle⟩

theorem understood_cons {now : Int} {item : UnFreezeV2} {items : List UnFreezeV2}
    (h : item.unfreezeExpireTime ≤ now ∨ (ResourceCode.ofI32? item.type).isSome) :
    understood now (item :: items) = item :: understood now items := by
  simp only [understood]
  exact List.takeWhile_cons_of_pos (by simpa using h)

theorem dynamicOrZero_setDynamicI64 {w : World} {p : Property} {x : Int}
    {props : FMap Property Bytes} (hx : InI64 x) (h : props.lookup p = some (be64 x)) :
    dynamicOrZero { w with dynamicProperties := props } p = .ok x :=
  dynamicOrZero_of_lookup (by simp only [h, Option.bind_some, fromBe64_be64 hx])

theorem Shifts.cons {now : Int} {kind : ResourceCode} {item : UnFreezeV2} {items : List UnFreezeV2}
    {w : World} {props props' : FMap Property Bytes} {p p₁ p' : Position}
    (hp : ¬ item.unfreezeExpireTime ≤ now) (hki : item.type = kind.toI32)
    (hst : Shifts (· = kind) w props p p₁) (hsta : ∀ k, k ≠ kind → p₁.staked k = p.staked k)
    (hr : Shifts (Unstaking now items) { w with dynamicProperties := props } props' p₁ p')
    (hp' : ∀ k, p'.staked k = p₁.staked k + unstaking now items k) :
    Shifts (Unstaking now (item :: items)) w props' p p' := by
  have hh : Unstaking now (item :: items) kind := ⟨item, List.mem_cons_self, hp, hki⟩
  have hta : ∀ k, Unstaking now items k → Unstaking now (item :: items) k :=
    fun k ⟨other, ho, h⟩ => ⟨other, List.mem_cons_of_mem _ ho, h⟩
  refine ⟨fun k hk => ?_, fun q hq => ?_⟩
  · by_cases hk' : k = kind
    · subst hk'
      obtain ⟨total, ht, hin, hl⟩ := hst.moved k rfl
      by_cases hm : Unstaking now items k
      · -- The weight is read again, as the step has written it.
        obtain ⟨total', ht', hi', hl'⟩ := hr.moved k hm
        rw [dynamicOrZero_setDynamicI64 hin hl] at ht'
        obtain rfl := Except.ok.inj ht'
        have hsu : total + (wholeTrx (p₁.staked k) - wholeTrx (p.staked k)) +
            (wholeTrx (p'.staked k) - wholeTrx (p₁.staked k)) =
              total + (wholeTrx (p'.staked k) - wholeTrx (p.staked k)) := by omega
        rw [hsu] at hi' hl'
        exact ⟨total, ht, hi', hl'⟩
      · have hs : p'.staked k = p₁.staked k := by
          rw [hp' k, unstaking_eq_zero hm, add_zero]
        refine ⟨total, ht, by rwa [hs], ?_⟩
        rw [hs, ← hl]
        exact hr.other _ fun k' hk' h => hm (Actuator.weightName_injective h ▸ hk')
    · have hm : Unstaking now items k := by
        obtain ⟨other, ho, hpe', hty⟩ := hk
        rcases List.mem_cons.mp ho with rfl | ho
        · exact absurd (ResourceCode.toI32_injective (hty.symm.trans hki)) hk'
        · exact ⟨other, ho, hpe', hty⟩
      obtain ⟨total, ht, hin, hl⟩ := hr.moved k hm
      rw [hsta k hk'] at hin hl
      refine ⟨total, ?_, hin, hl⟩
      have hs := hst.other (weightName k) fun k' hkk h =>
        hk' ((Actuator.weightName_injective h).trans hkk)
      simpa only [dynamicOrZero, dynamicI64, hs] using ht
  · rw [hr.other q fun k hk => hq k (hta k hk)]
    exact hst.other q fun k hk => hk ▸ hq kind hh

theorem not_unstaking_nil {now : Int} (k : ResourceCode) : ¬ Unstaking now [] k := by
  rintro ⟨item, hi, -⟩
  exact List.not_mem_nil hi

/-- What the cancelling loop of the virtual machine leaves: the account is saved when every entry
has been understood, and the weights have moved in any case. -/
theorem cancelLoop_ok {now : Int} {items : List UnFreezeV2} {w w' : World} {a : Account}
    {accepted : Bool} (h : cancelLoop now w a items = .ok (accepted, w')) :
    ∃ p' props, Actuator.CancelsTo now a.position (understood now items) p' ∧
      Shifts (Unstaking now (understood now items)) w props a.position p' ∧
      (accepted = true → understood now items = items ∧ ∃ b, b.address = a.address ∧
        b.position = p' ∧ w' = Actuator.save { w with dynamicProperties := props } b) ∧
      (accepted = false → w' = { w with dynamicProperties := props }) := by
  induction items generalizing w a with
  | nil =>
    rw [cancelLoop, pure_eq_ok_iff, Prod.mk.injEq] at h
    obtain ⟨rfl, rfl⟩ := h
    exact ⟨a.position, w.dynamicProperties, rfl, .untouched w a.position not_unstaking_nil,
      fun _ => ⟨rfl, a, rfl, rfl, rfl⟩, fun hf => by cases hf⟩
  | cons item items ih =>
    rw [cancelLoop] at h
    split at h
    · -- the entry has expired: no weight moves
      next he =>
      simp only [bind_eq_ok_iff, checkedAdd_eq_ok_iff] at h
      obtain ⟨_, ⟨-, rfl⟩, h⟩ := h
      obtain ⟨p', props, hc, hs, ha⟩ := ih h
      have ht : ∀ k, Unstaking now (item :: understood now items) k ↔
          Unstaking now (understood now items) k := by
        intro k
        constructor
        · rintro ⟨other, ho, hp, hty⟩
          rcases List.mem_cons.mp ho with rfl | ho
          · exact absurd he hp
          · exact ⟨other, ho, hp, hty⟩
        · rintro ⟨other, ho, hp⟩
          exact ⟨other, List.mem_cons_of_mem _ ho, hp⟩
      rw [understood_cons (.inl he)]
      refine ⟨p', props, ?_, ⟨fun k hk => ?_, fun q hq => ?_⟩, ?_⟩
      · rw [Actuator.CancelsTo, if_pos he]
        exact hc
      · exact hs.moved k ((ht k).mp hk)
      · exact hs.other q fun k hk => hq k ((ht k).mpr hk)
      · exact ⟨fun h => ⟨by rw [(ha.1 h).1], (ha.1 h).2⟩, ha.2⟩
    · next hp =>
      split at h
      · -- the entry is not understood: the loop ends here
        next hu =>
        rw [pure_eq_ok_iff, Prod.mk.injEq] at h
        obtain ⟨rfl, rfl⟩ := h
        have hn : understood now (item :: items) = [] := by
          simp [understood, hp, hu]
        rw [hn]
        exact ⟨a.position, w.dynamicProperties, rfl, .untouched w a.position not_unstaking_nil,
          (fun ht => by cases ht), fun _ => rfl⟩
      · -- the entry is a stake again
        next kind hki =>
        simp only [bind_eq_ok_iff] at h
        obtain ⟨b, had, w₁, hch, h⟩ := h
        obtain ⟨stakes, hst, rfl⟩ := addFrozenV2_ok had
        obtain ⟨props, rfl, hste⟩ := changeWeight_ok a.position
          { a.position with frozenV2 := stakes } hch
        obtain ⟨p', props', hc, hs, ha⟩ := ih h
        have hk' := type_eq_iff.mp hki
        rw [understood_cons (.inr (by rw [hki]; rfl))]
        refine ⟨p', props', ?_, ?_, ?_⟩
        · rw [Actuator.CancelsTo, if_neg hp]
          exact ⟨kind, stakes, hki, hst, hc⟩
        · refine hste.cons hp hk' (fun k hk => ?_) hs (staked_cancelsTo hc)
          have := Actuator.stakedIn_addFrozenV2Items hst k
          rw [if_neg hk, add_zero] at this
          exact this
        · exact ⟨fun h => ⟨by rw [(ha.1 h).1], (ha.1 h).2⟩, ha.2⟩

/-! ## Comparing -/

theorem RoundsAlike.zero (staked lent : Int) : RoundsAlike staked lent 0 := by
  simp [RoundsAlike]

theorem RoundsAlike.of_dvd {staked lent change : Int} (hs : 0 ≤ staked)
    (ha : 0 ≤ staked + change) (hl : 0 ≤ lent) (h : trxPrecision ∣ lent) :
    RoundsAlike staked lent change := by
  obtain ⟨n, rfl⟩ := h
  simp only [RoundsAlike, wholeTrx, trxPrecision] at *
  rw [Int.tdiv_eq_ediv_of_nonneg ha, Int.tdiv_eq_ediv_of_nonneg hs,
    Int.tdiv_eq_ediv_of_nonneg (by omega), Int.tdiv_eq_ediv_of_nonneg (by omega)]
  omega

/-- The weights that the two implementations leave agree where the changes round alike. -/
theorem weights_agree_iff {touched : ResourceCode → Prop} {w : World}
    {props props' : FMap Property Bytes} {p p' : Position} (change : ResourceCode → Int)
    (hs : Shifts touched w props p p')
    (hf : Actuator.Follows w.dynamicProperties props' p p')
    (hc : ∀ k, touched k → (totalWeight w.dynamicProperties k).isSome)
    (hst : ∀ k, p'.staked k = p.staked k + change k)
    (hsti : ∀ k, ¬ touched k → change k = 0)
    (ho : p'.legacy = p.legacy) (hle : p'.lent = p.lent) :
    (∀ k, totalWeight props k = totalWeight props' k) ↔
      ∀ k, RoundsAlike (p.staked k) (p.lent k) (change k) := by
  have hw : ∀ k, p'.weight k - p.weight k =
      wholeTrx (p.staked k + p.lent k + change k) - wholeTrx (p.staked k + p.lent k) := by
    intro k
    have hsu : p'.staked k + p'.lent k = p.staked k + p.lent k + change k := by
      rw [hst k, hle]
      omega
    rw [Position.weight, Position.weight, hsu, Position.own, Position.own, ho]
    simp only [wholeTrx]
    omega
  refine forall_congr' fun k => ?_
  by_cases hk : touched k
  · obtain ⟨total, ht⟩ := Option.isSome_iff_exists.mp (hc k hk)
    obtain ⟨total', ht', hin, hl⟩ := hs.moved k hk
    rw [dynamicOrZero_of_lookup ht] at ht'
    obtain rfl := Except.ok.inj ht'
    rw [hf.weight k total ht, hw k, totalWeight, hl, Option.bind_some,
      fromBe64_be64 hin, hst k, Option.some.injEq, RoundsAlike]
    omega
  · have hsa : totalWeight props k = totalWeight w.dynamicProperties k := by
      rw [totalWeight, totalWeight,
        hs.other (weightName k) fun k' hk' h => hk (Actuator.weightName_injective h ▸ hk')]
    rw [hsa, hsti k hk]
    refine iff_of_true ?_ (.zero _ _)
    cases ht : totalWeight w.dynamicProperties k with
    | none => rw [hf.missing k ht]
    | some total =>
      rw [hf.weight k total ht, hw k, hsti k hk]
      simp

/-- The states after one account has been saved agree in their positions where the accounts do. -/
theorem positions_put {s s₁ s₂ : Accounts} {a b : Account} (ha : s₁ = s.put a) (hb : s₂ = s.put b)
    (had : a.address = b.address) (hp : a.position = b.position) (address : Bytes) :
    (s₁.get address).map Account.position = (s₂.get address).map Account.position := by
  rw [ha, hb, Accounts.get_put, Accounts.get_put, had]
  split
  · rw [Option.map_some, Option.map_some, hp]
  · rfl

/-- The states after two accounts have been saved agree in their positions exactly where the
accounts do. -/
theorem positions_put_put {s s₁ s₂ : Accounts} {a b a' b' : Account} (h₁ : s₁ = (s.put a).put b)
    (h₂ : s₂ = (s.put a').put b') (ha : a.address = a'.address) (hb : b.address = b'.address)
    (hp : a.position = a'.position) :
    (∀ address, (s₁.get address).map Account.position = (s₂.get address).map Account.position) ↔
      b.position = b'.position := by
  constructor
  · intro h
    have hb' := h b.address
    rw [h₁, h₂, Accounts.get_put_self, hb, Accounts.get_put_self] at hb'
    exact Option.some.inj hb'
  · intro h address
    rw [h₁, h₂]
    simp only [Accounts.get_put, ← ha, ← hb]
    split
    · rw [Option.map_some, Option.map_some, h]
    · split
      · rw [Option.map_some, Option.map_some, hp]
      · rfl

theorem resource_eq {kind : Word} {power : Bool} {k : ResourceCode}
    (h : resource kind power = some k) : ResourceCode.ofI32? kind.toI64Safe = some k := by
  unfold resource at h
  split at h
  · next h0 =>
    rw [h0, ← h]
    rfl
  split at h
  · next h1 =>
    rw [h1, ← h]
    rfl
  split at h
  · next h2 =>
    rw [h2.1, ← h]
    rfl
  · cases h

theorem pushBool_pos {x : Attempt (Bool × World)} {value : Int} {w : World}
    (h : pushBool x = .ok (value, w)) (hv : 0 < value) : x = .ok (true, w) := by
  simp only [pushBool, bind_eq_ok_iff, pure_eq_ok_iff, Prod.mk.injEq] at h
  obtain ⟨⟨accepted, w'⟩, hx, rfl, rfl⟩ := h
  cases accepted with
  | false => exact absurd hv (lt_irrefl 0)
  | true => exact hx

theorem pushBool_zero {x : Attempt (Bool × World)} {w : World} (h : pushBool x = .ok (0, w)) :
    x = .ok (false, w) := by
  simp only [pushBool, bind_eq_ok_iff, pure_eq_ok_iff, Prod.mk.injEq] at h
  obtain ⟨⟨accepted, w'⟩, hx, hv, rfl⟩ := h
  cases accepted with
  | false => exact hx
  | true => exact absurd hv one_ne_zero

/-! ## Staking -/

theorem freezeV2_ok {w w' : World} {owner : Bytes} {amount kind : Word}
    (h : freezeV2 w owner amount kind = .ok (true, w')) :
    ∃ a k items props, w.accounts.get owner = some a ∧ resource kind true = some k ∧
      Actuator.addFrozenV2Items k amount.toI64Safe a.frozenV2 = .ok items ∧
      Shifts (· = k) w props a.position
        { a.position with balance := a.balance - amount.toI64Safe, frozenV2 := items } ∧
      w' = Actuator.save { w with dynamicProperties := props }
        { a with balance := a.balance - amount.toI64Safe, frozenV2 := items } := by
  unfold freezeV2 at h
  dsimp only at h
  split at h
  · simp [pure_eq_ok_iff] at h
  split at h
  · simp [pure_eq_ok_iff] at h
  split at h
  · simp [pure_eq_ok_iff] at h
  next _ k hk _ a ha _ =>
  simp only [bind_eq_ok_iff, pure_eq_ok_iff, Prod.mk.injEq, true_and] at h
  obtain ⟨b, had, w₁, hc, rfl⟩ := h
  obtain ⟨items, hi, rfl⟩ := addFrozenV2_ok had
  obtain ⟨props, rfl, hs⟩ := changeWeight_ok a.position
    { a.position with balance := a.balance - amount.toI64Safe, frozenV2 := items } hc
  exact ⟨a, k, items, props, ha, hk, hi, hs, rfl⟩

theorem unfreezeV2_ok {w w' : World} {owner : Bytes} {amount kind : Word}
    (h : unfreezeV2 w owner amount kind = .ok (true, w')) :
    ∃ a k items props now days, w.accounts.get owner = some a ∧ resource kind true = some k ∧
      dynamicOrZero w .latestBlockHeaderTimestamp = .ok now ∧
      dynamicOrZero w .unfreezeDelayDays = .ok days ∧
      Actuator.addFrozenV2Items k (-amount.toI64Safe) a.frozenV2 = .ok items ∧
      Shifts (· = k) w props a.position { a.position with
        balance := a.balance + expiredAmount now a.unfrozenV2
        frozenV2 := items
        unfrozenV2 := pendingItems now a.unfrozenV2 ++
          [⟨k.toI32, amount.toI64Safe, now + days * dayMs⟩] } ∧
      w' = Actuator.save { w with dynamicProperties := props } { a with
        balance := a.balance + expiredAmount now a.unfrozenV2
        frozenV2 := items
        unfrozenV2 := pendingItems now a.unfrozenV2 ++
          [⟨k.toI32, amount.toI64Safe, now + days * dayMs⟩] } := by
  unfold unfreezeV2 at h
  dsimp only at h
  split at h
  · simp [pure_eq_ok_iff] at h
  split at h
  · simp [pure_eq_ok_iff] at h
  next _ k hk _ a ha =>
  rw [bind_eq_ok_iff] at h
  obtain ⟨now, hn, h⟩ := h
  split at h
  · simp [pure_eq_ok_iff] at h
  simp only [bind_eq_ok_iff, checkedAdd_eq_ok_iff, checkedMul_eq_ok_iff, pure_eq_ok_iff,
    Prod.mk.injEq, true_and] at h
  obtain ⟨_, ⟨-, rfl⟩, b, had, w₁, hc, days, hd, _, ⟨-, rfl⟩, _, ⟨-, rfl⟩, rfl⟩ := h
  obtain ⟨items, hi, rfl⟩ := addFrozenV2_ok had
  obtain ⟨props, rfl, hs⟩ := changeWeight_ok a.position { a.position with
        balance := a.balance + expiredAmount now a.unfrozenV2
        frozenV2 := items
        unfrozenV2 := pendingItems now a.unfrozenV2 ++
          [⟨k.toI32, amount.toI64Safe, now + days * dayMs⟩] } hc
  refine ⟨a, k, items, props, now, days, ha, hk, hn, ?_, hi, hs, rfl⟩
  have hsa := hs.other .unfreezeDelayDays fun k _ => by cases k <;> decide
  simpa only [dynamicOrZero, dynamicI64, hsa] using hd

section Staking

variable {cfg : ExecutionConfig} {w w₁ w₂ : World} {owner : Bytes} {amount kind : Word}
  {r : ActuatorResult}

theorem weights_agree_kind_iff {k : ResourceCode} {a : Account} {n : Int} {items : List FreezeV2}
    {props props' : FMap Property Bytes} {p' : Position}
    (hs : Shifts (· = k) w props a.position p')
    (hf : Actuator.Follows w.dynamicProperties props' a.position p')
    (hc : (totalWeight w.dynamicProperties k).isSome)
    (hi : Actuator.addFrozenV2Items k n a.frozenV2 = .ok items) (hp' : p'.frozenV2 = items)
    (ho : p'.legacy = a.position.legacy) (hl : p'.lent = a.position.lent) :
    (∀ k, totalWeight props k = totalWeight props' k) ↔
      RoundsAlike (frozenV2 a k) (delegatedV2 a k) n := by
  rw [weights_agree_iff (fun k' => if k' = k then n else 0) hs hf
    (fun k' hk' => hk' ▸ hc) (fun k' => ?_) (fun k' hk' => if_neg hk') ho hl]
  · constructor
    · intro h
      have := h k
      rwa [if_pos rfl] at this
    · intro h k'
      split
      · next hk' => exact hk' ▸ h
      · exact .zero _ _
  · rw [staked, hp']
    exact Actuator.stakedIn_addFrozenV2Items hi k'

theorem freezeV2_agrees_iff (h₁ : freezeV2 w owner amount kind = .ok (true, w₁))
    (h₂ : ((StakingCall.freezeV2 amount kind).operation owner).execute cfg w = .ok (w₂, r)) :
    SameStaking w₁ w₂ ↔ (StakingCall.freezeV2 amount kind).Agrees owner w := by
  obtain ⟨a, k, items, props, ha, hk, hi, hs, rfl⟩ := freezeV2_ok h₁
  obtain ⟨b, b', k', items', hn⟩ := Actuator.FreezeBalanceV2.execute_effect h₂
  obtain rfl := Option.some.inj (ha.symm.trans hn.found)
  obtain rfl := Option.some.inj ((resource_eq hk).symm.trans hn.resource_eq)
  obtain rfl := Except.ok.inj (hi.symm.trans hn.items_eq)
  have hf := hn.follows
  rw [hn.position_eq] at hf
  have hw := weights_agree_kind_iff hs hf hn.counted hi rfl rfl rfl
  have had : a.address = b'.address :=
    (Accounts.get_address ha).trans hn.address_eq.symm
  constructor
  · intro h a' k' ha' hk'
    obtain rfl := Option.some.inj (ha.symm.trans ha')
    obtain rfl := Option.some.inj (hk.symm.trans hk')
    exact hw.mp h.weights
  · intro h
    refine ⟨?_, hn.rows_eq.symm, hn.indexes_eq.symm, hw.mpr (h a k ha hk)⟩
    exact positions_put rfl hn.accounts_eq had hn.position_eq.symm

theorem unfreezeV2_agrees_iff (h₁ : unfreezeV2 w owner amount kind = .ok (true, w₁))
    (h₂ : ((StakingCall.unfreezeV2 amount kind).operation owner).execute cfg w = .ok (w₂, r)) :
    SameStaking w₁ w₂ ↔ (StakingCall.unfreezeV2 amount kind).Agrees owner w := by
  obtain ⟨a, k, items, props, now, days, ha, hk, hno, hd, hi, hs, rfl⟩ :=
    unfreezeV2_ok h₁
  obtain ⟨b, b', k', items', now', expire, hn⟩ := Actuator.UnfreezeBalanceV2.execute_effect h₂
  obtain rfl := Option.some.inj (ha.symm.trans hn.found)
  obtain rfl := Option.some.inj ((resource_eq hk).symm.trans hn.resource_eq)
  obtain rfl := Except.ok.inj (hi.symm.trans hn.items_eq)
  obtain rfl := Except.ok.inj (hno.symm.trans (dynamicOrZero_of_dynamicLong hn.now_eq))
  obtain ⟨days', hd', rfl⟩ := hn.expire_eq
  obtain rfl := Except.ok.inj (hd.symm.trans (dynamicOrZero_of_dynamicLong hd'))
  have hf := hn.follows
  rw [hn.position_eq] at hf
  have hw := weights_agree_kind_iff hs hf hn.counted hi rfl rfl rfl
  have had : a.address = b'.address :=
    (Accounts.get_address ha).trans hn.address_eq.symm
  constructor
  · intro h a' k' ha' hk'
    obtain rfl := Option.some.inj (ha.symm.trans ha')
    obtain rfl := Option.some.inj (hk.symm.trans hk')
    exact hw.mp h.weights
  · intro h
    refine ⟨?_, hn.rows_eq.symm, hn.indexes_eq.symm, hw.mpr (h a k ha hk)⟩
    exact positions_put rfl hn.accounts_eq had hn.position_eq.symm

theorem withdrawExpiredV2_agrees {value : Int}
    (h₁ : withdrawExpiredV2 w owner = .ok (value, w₁)) (hv : 0 < value)
    (h₂ : (StakingCall.withdrawExpiredV2.operation owner).execute cfg w = .ok (w₂, r)) :
    SameStaking w₁ w₂ := by
  obtain ⟨a, a', now, hn⟩ := Actuator.WithdrawExpireUnfreeze.execute_effect h₂
  simp only [withdrawExpiredV2, hn.found, bind_eq_ok_iff] at h₁
  obtain ⟨now', hno, h₁⟩ := h₁
  obtain rfl := Except.ok.inj (hno.symm.trans (dynamicOrZero_of_dynamicLong hn.now_eq))
  split at h₁
  · simp only [bind_eq_ok_iff, checkedAdd_eq_ok_iff, pure_eq_ok_iff, Prod.mk.injEq] at h₁
    obtain ⟨_, ⟨-, rfl⟩, -, rfl⟩ := h₁
    have ha : a.address = a'.address :=
      (Accounts.get_address hn.found).trans hn.address_eq.symm
    refine ⟨?_, hn.rows_eq.symm, hn.indexes_eq.symm, fun k => ?_⟩
    · exact positions_put rfl hn.accounts_eq ha hn.position_eq.symm
    · rw [hn.props_eq]
      rfl
  · next he =>
    simp only [pure_eq_ok_iff, Prod.mk.injEq] at h₁
    exact absurd (h₁.1 ▸ hv) he

theorem cancelAllUnfreezeV2_parts {accepted : Bool}
    (h : cancelAllUnfreezeV2 w owner = .ok (accepted, w₁)) :
    accepted = false ∧ w₁ = w ∧ (dynamicOrZero w .allowCancelAllUnfreezeV2 ≠ .ok 1 ∨
        w.accounts.get owner = none ∨ ∃ a, w.accounts.get owner = some a ∧ a.unfrozenV2 = []) ∨
      ∃ a now, dynamicOrZero w .allowCancelAllUnfreezeV2 = .ok 1 ∧
        w.accounts.get owner = some a ∧
        dynamicOrZero w .latestBlockHeaderTimestamp = .ok now ∧
        cancelLoop now w { a with unfrozenV2 := [] } a.unfrozenV2 = .ok (accepted, w₁) := by
  simp only [cancelAllUnfreezeV2, bind_eq_ok_iff] at h
  obtain ⟨allowed, hal, h⟩ := h
  split at h
  · next hne =>
    rw [pure_eq_ok_iff, Prod.mk.injEq] at h
    refine .inl ⟨h.1.symm, h.2.symm, .inl fun h => hne (Except.ok.inj (hal.symm.trans h))⟩
  next ho =>
  rw [not_not] at ho
  subst ho
  split at h
  · next hn =>
    rw [pure_eq_ok_iff, Prod.mk.injEq] at h
    exact .inl ⟨h.1.symm, h.2.symm, .inr (.inl hn)⟩
  next a ha =>
  split at h
  · next hni =>
    rw [pure_eq_ok_iff, Prod.mk.injEq] at h
    exact .inl ⟨h.1.symm, h.2.symm, .inr (.inr ⟨a, ha, hni⟩)⟩
  · rw [bind_eq_ok_iff] at h
    obtain ⟨now, hno, h⟩ := h
    exact .inr ⟨a, now, hal, ha, hno, h⟩

theorem cancelAllUnfreezeV2_agrees_iff (h₁ : cancelAllUnfreezeV2 w owner = .ok (true, w₁))
    (h₂ : (StakingCall.cancelAllUnfreezeV2.operation owner).execute cfg w = .ok (w₂, r)) :
    SameStaking w₁ w₂ ↔ StakingCall.cancelAllUnfreezeV2.Agrees owner w := by
  obtain ⟨hfa, -⟩ | ⟨a, now, -, ha, hno, hlo⟩ := cancelAllUnfreezeV2_parts h₁
  · cases hfa
  obtain ⟨p', props, hc, hs, hd, -⟩ := cancelLoop_ok hlo
  obtain ⟨hal, b, hb, hp', rfl⟩ := hd rfl
  obtain ⟨c, c', now', hn⟩ := Actuator.CancelAllUnfreezeV2.execute_effect h₂
  obtain rfl := Option.some.inj (ha.symm.trans hn.found)
  obtain rfl := Except.ok.inj (hno.symm.trans (dynamicOrZero_of_dynamicLong hn.now_eq))
  rw [hal] at hc hs
  obtain rfl := cancelsTo_unique hc hn.cancels
  obtain ⟨hl, hle⟩ := cancelsTo_keeps hc
  have hs' : Shifts (Unstaking now a.unfrozenV2) w props a.position b.position :=
    hp' ▸ ⟨hs.moved, hs.other⟩
  have hf : Actuator.Follows w.dynamicProperties w₂.dynamicProperties a.position b.position :=
    hp' ▸ hn.follows
  have hw := weights_agree_iff (unstaking now a.unfrozenV2) hs' hf
    (fun k ⟨item, hi, hp, ht⟩ =>
      hn.counted item hi hp k (type_eq_iff.mpr ht))
    (fun k => hp' ▸ staked_cancelsTo hc k) (fun k hk => unstaking_eq_zero hk)
    (hp' ▸ hl) (hp' ▸ hle)
  have ha₀ : a.address = owner := Accounts.get_address ha
  have had : b.address = c'.address := (hb.trans ha₀).trans hn.address_eq.symm
  constructor
  · intro h a' now' ha' hn'
    obtain rfl := Option.some.inj (ha.symm.trans ha')
    obtain rfl := Except.ok.inj (hno.symm.trans (dynamicOrZero_of_dynamicLong hn'))
    exact hw.mp h.weights
  · intro h
    refine ⟨?_, hn.rows_eq.symm, hn.indexes_eq.symm,
      hw.mpr (h a now ha hn.now_eq)⟩
    exact positions_put rfl hn.accounts_eq had hp'

end Staking

/-! ## Delegation -/

theorem resource_lendable {kind : Word} {k : ResourceCode} (h : resource kind false = some k) :
    k ≠ .tronPower := by
  unfold resource at h
  split at h
  · rw [← Option.some.inj h]
    decide
  split at h
  · rw [← Option.some.inj h]
    decide
  · simp at h

theorem delegateV2_ok {w w' : World} {owner receiver : Bytes} {amount kind : Word}
    (h : delegateV2 w owner receiver amount kind = .ok (true, w')) :
    ∃ k sender sender' taker taker' items, resource kind false = some k ∧
      w.accounts.get owner = some sender ∧ w.accounts.get receiver = some taker ∧
      Actuator.addFrozenV2Items k (-amount.toI64Safe) sender.frozenV2 = .ok items ∧
      sender'.address = owner ∧ sender'.position = { sender.position with
        frozenV2 := items
        lent := Function.update sender.position.lent k
          (sender.position.lent k + amount.toI64Safe) } ∧
      taker'.address = receiver ∧ taker'.position = { taker.position with
        held := Function.update taker.position.held k
          (taker.position.held k + amount.toI64Safe) } ∧
      w' = Actuator.save (Actuator.save (Actuator.putDelegated w
          (resourceV2Key owner receiver false)
          (setRow (delegated w (resourceV2Key owner receiver false) owner receiver) k
            (rowAmount (delegated w (resourceV2Key owner receiver false) owner receiver) k +
              amount.toI64Safe)
            (rowExpire (delegated w (resourceV2Key owner receiver false) owner receiver) k)))
        sender') taker' := by
  unfold delegateV2 at h
  dsimp only at h
  split at h
  · simp [pure_eq_ok_iff] at h
  next _ k hk =>
  split at h
  · simp [pure_eq_ok_iff] at h
  rw [bind_eq_ok_iff] at h
  obtain ⟨allowed, -, h⟩ := h
  split at h
  · simp [pure_eq_ok_iff] at h
  split at h
  · next sender taker hs ht =>
    split at h
    · simp [pure_eq_ok_iff] at h
    · simp only [bind_eq_ok_iff, checkedAdd_eq_ok_iff, pure_eq_ok_iff, Prod.mk.injEq, true_and] at h
      obtain ⟨b, had, _, ⟨-, rfl⟩, _, ⟨-, rfl⟩, _, ⟨-, rfl⟩, rfl⟩ := h
      obtain ⟨items, hi, rfl⟩ := addFrozenV2_ok had
      have ha : sender.address = owner := Accounts.get_address hs
      have hp := Actuator.position_setDelegatedV2 { sender with frozenV2 := items }
        (delegatedV2 sender k + amount.toI64Safe) (resource_lendable hk)
      have ha' := Actuator.address_setDelegatedV2 { sender with frozenV2 := items }
        (delegatedV2 sender k + amount.toI64Safe) k
      exact ⟨k, sender, _, taker, _, items, hk, hs, ht, hi, ha'.trans ha, hp,
        (Actuator.address_setAcquiredV2 taker (acquiredV2 taker k + amount.toI64Safe) k).trans
          (Accounts.get_address ht),
        Actuator.position_setAcquiredV2 taker (acquiredV2 taker k + amount.toI64Safe)
          (resource_lendable hk), rfl⟩
  · simp [pure_eq_ok_iff] at h

theorem undelegateV2_ok {w w' : World} {owner receiver : Bytes} {amount kind : Word}
    (h : undelegateV2 w owner receiver amount kind = .ok (true, w')) :
    ∃ k sender sender' taker taker' items row, resource kind false = some k ∧
      w.accounts.get owner = some sender ∧ w.accounts.get receiver = some taker ∧
      Actuator.addFrozenV2Items k amount.toI64Safe sender.frozenV2 = .ok items ∧
      w.delegatedResources.lookup (resourceV2Key owner receiver false) = some row ∧
      sender'.address = owner ∧ sender'.position = { sender.position with
        frozenV2 := items
        lent := Function.update sender.position.lent k
          (Actuator.wrap (sender.position.lent k - amount.toI64Safe)) } ∧
      taker'.address = receiver ∧ taker'.position = { taker.position with
        held := Function.update taker.position.held k
          (Actuator.saturate (taker.position.held k - amount.toI64Safe)) } ∧
      w' = Actuator.save (Actuator.save { w with
          delegatedResources := Actuator.rowsAfter w.delegatedResources
            (resourceV2Key owner receiver false)
            (setRow row k (rowAmount row k - amount.toI64Safe) (rowExpire row k)) true }
        sender') taker' := by
  unfold undelegateV2 at h
  dsimp only at h
  split at h
  · simp [pure_eq_ok_iff] at h
  next _ k hk =>
  split at h
  · simp [pure_eq_ok_iff] at h
  split at h
  · next sender taker hs ht =>
    split at h
    · simp [pure_eq_ok_iff] at h
    next row hr =>
    split at h
    · simp [pure_eq_ok_iff] at h
    · simp only [bind_eq_ok_iff, pure_eq_ok_iff, Prod.mk.injEq, true_and] at h
      obtain ⟨b, had, rfl⟩ := h
      obtain ⟨items, hi, rfl⟩ := addFrozenV2_ok had
      have ha : sender.address = owner := Accounts.get_address hs
      have hp := Actuator.position_setDelegatedV2 { sender with frozenV2 := items }
        (Actuator.wrap (delegatedV2 sender k - amount.toI64Safe)) (resource_lendable hk)
      have ha' := Actuator.address_setDelegatedV2 { sender with frozenV2 := items }
        (Actuator.wrap (delegatedV2 sender k - amount.toI64Safe)) k
      refine ⟨k, sender, _, taker, _, items, row, hk, hs, ht, hi, hr,
        ha'.trans ha, hp,
        (Actuator.address_setAcquiredV2 taker
          (Actuator.saturate (acquiredV2 taker k - amount.toI64Safe)) k).trans
            (Accounts.get_address ht),
        Actuator.position_setAcquiredV2 taker
          (Actuator.saturate (acquiredV2 taker k - amount.toI64Safe)) (resource_lendable hk), ?_⟩
      unfold Actuator.rowsAfter
      split <;> rfl
  · simp [pure_eq_ok_iff] at h

theorem setRow_still {row : DelegatedResource} {kind : ResourceCode}
    (h : rowAmount row kind = 0 ∧ rowExpire row kind = 0) : setRow row kind 0 0 = row := by
  cases row
  cases kind <;> simp_all [rowAmount, rowExpire, setRow]

/-- Moving what has expired leaves the locked row as it is only where that is nothing, and then it
leaves the unlocked row as well. -/
theorem moveExpired_still_iff {expired : ResourceCode → Bool} {locked row l u : DelegatedResource}
    (h : Actuator.moveExpired expired locked row = .ok (l, u)) :
    (l = locked ↔ ∀ kind, kind ≠ .tronPower → expired kind = true →
      rowAmount locked kind = 0 ∧ rowExpire locked kind = 0) ∧ (l = locked → u = row) := by
  have hs : l = locked ↔ ∀ kind, kind ≠ .tronPower → expired kind = true →
      rowAmount locked kind = 0 ∧ rowExpire locked kind = 0 := by
    simp only [Actuator.moveExpired, bind_eq_ok_iff, pure_eq_ok_iff, Prod.mk.injEq] at h
    obtain ⟨_, -, _, -, rfl, -⟩ := h
    constructor
    · intro hl kind hk he
      rw [← hl]
      cases kind with
      | bandwidth => split <;> simp [setRow, rowAmount, rowExpire]
      | energy => simp [he, setRow, rowAmount, rowExpire]
      | tronPower => exact absurd rfl hk
    · intro hz
      have hb : (if expired .bandwidth = true then setRow locked .bandwidth 0 0 else locked) =
          locked := by
        split
        · next he => exact setRow_still (hz .bandwidth (by decide) he)
        · rfl
      rw [hb]
      split
      · next he => exact setRow_still (hz .energy (by decide) he)
      · rfl
  refine ⟨hs, fun hl => ?_⟩
  have hz := hs.mp hl
  simp only [Actuator.moveExpired, bind_eq_ok_iff, pure_eq_ok_iff, Prod.mk.injEq] at h
  obtain ⟨x, hx, y, hy, -, rfl⟩ := h
  have hx' : x = row.frozenBalanceForBandwidth := by
    split at hx
    · next he =>
      have ha : locked.frozenBalanceForBandwidth = 0 :=
        (hz .bandwidth (by decide) he).1
      rw [Actuator.checkedAdd_eq_ok_iff] at hx
      rw [hx.2, ha, add_zero]
    · exact (pure_eq_ok_iff.mp hx).symm
  have hy' : y = row.frozenBalanceForEnergy := by
    split at hy
    · next he =>
      have ha : locked.frozenBalanceForEnergy = 0 := (hz .energy (by decide) he).1
      rw [Actuator.checkedAdd_eq_ok_iff] at hy
      rw [hy.2, ha, add_zero]
    · exact (pure_eq_ok_iff.mp hy).symm
  rw [hx', hy']

section Rows

variable {w unlocked : World} {owner receiver : Bytes} {now : Int} {k : ResourceCode}

theorem lookup_putOrDelete (w : World) (key : Bytes) (row : DelegatedResource) :
    (Actuator.putOrDelete w key row).delegatedResources.lookup key =
      if rowEmpty row then none else some row := by
  unfold Actuator.putOrDelete
  split
  · exact Finmap.lookup_erase _ _
  · exact Finmap.lookup_insert _

theorem lookup_putOrDelete_of_ne (w : World) {key key' : Bytes} (row : DelegatedResource)
    (h : key' ≠ key) :
    (Actuator.putOrDelete w key row).delegatedResources.lookup key' =
      w.delegatedResources.lookup key' := by
  unfold Actuator.putOrDelete
  split
  · exact Finmap.lookup_erase_ne h
  · exact Finmap.lookup_insert_of_ne _ h

theorem lockedKey_ne (owner receiver : Bytes) :
    resourceV2Key owner receiver true ≠ resourceV2Key owner receiver false := by
  simp [resourceV2Key, Actuator.prefixedPair]

/-- What unlocking the expired part of a pair has done: nothing, or moved the amounts over. -/
theorem unlockExpired_cases (h : Actuator.unlockExpired w owner receiver now = .ok unlocked) :
    unlocked = w ∧ (∀ locked,
        w.delegatedResources.lookup (resourceV2Key owner receiver true) = some locked →
        ∀ kind, kind ≠ .tronPower → ¬ rowExpire locked kind < now) ∨
      ∃ locked l u, w.delegatedResources.lookup (resourceV2Key owner receiver true) = some locked ∧
        (∃ kind, kind ≠ .tronPower ∧ rowExpire locked kind < now) ∧
        Actuator.moveExpired (fun kind => decide (rowExpire locked kind < now)) locked
          (delegated w (resourceV2Key owner receiver false) owner receiver) = .ok (l, u) ∧
        unlocked = Actuator.putOrDelete
          (Actuator.putDelegated w (resourceV2Key owner receiver false) u)
          (resourceV2Key owner receiver true) l := by
  unfold Actuator.unlockExpired at h
  dsimp only at h
  split at h
  · next hn =>
    rw [pure_eq_ok_iff] at h
    exact .inl ⟨h.symm, fun locked hl => absurd (hn.symm.trans hl) nofun⟩
  next locked hl =>
  split at h
  · next hf =>
    rw [pure_eq_ok_iff] at h
    refine .inl ⟨h.symm, fun locked' hl' kind hk => ?_⟩
    obtain rfl := Option.some.inj (hl.symm.trans hl')
    simp only [decide_eq_true_eq] at hf
    cases kind with
    | bandwidth => exact hf.2
    | energy => exact hf.1
    | tronPower => exact absurd rfl hk
  · next hs =>
    simp only [bind_eq_ok_iff, pure_eq_ok_iff] at h
    obtain ⟨⟨l, u⟩, hm, rfl⟩ := h
    refine .inr ⟨locked, l, u, hl, ?_, hm, rfl⟩
    simp only [decide_eq_true_eq, not_and_or, not_not] at hs
    rcases hs with h | h
    · exact ⟨.energy, by decide, h⟩
    · exact ⟨.bandwidth, by decide, h⟩

theorem setRow_expire_inj {row : DelegatedResource} (hk : k ≠ .tronPower) (amount x y : Int) :
    setRow row k amount x = setRow row k amount y ↔ x = y := by
  cases k with
  | bandwidth => simp [setRow]
  | energy => simp [setRow]
  | tronPower => exact absurd rfl hk

/-- A delegation leaves the rows that the virtual machine leaves where it has nothing to unlock, and
no expiry to clear. -/
theorem lent_rows_iff (n : Int) (hk : k ≠ .tronPower)
    (h : Actuator.unlockExpired w owner receiver now = .ok unlocked) :
    w.delegatedResources.insert (resourceV2Key owner receiver false)
        (setRow (delegated w (resourceV2Key owner receiver false) owner receiver) k
          (rowAmount (delegated w (resourceV2Key owner receiver false) owner receiver) k + n)
          (rowExpire (delegated w (resourceV2Key owner receiver false) owner receiver) k)) =
      unlocked.delegatedResources.insert (resourceV2Key owner receiver false)
        (setRow (delegated unlocked (resourceV2Key owner receiver false) owner receiver) k
          (rowAmount (delegated unlocked (resourceV2Key owner receiver false) owner receiver) k + n)
          0) ↔
      NothingToUnlock w owner receiver now ∧
        rowExpire (delegated w (resourceV2Key owner receiver false) owner receiver) k = 0 := by
  have hne := lockedKey_ne owner receiver
  obtain ⟨rfl, hf⟩ | ⟨locked, l, u, hlo, ⟨kind, hki, he⟩, hm, rfl⟩ :=
    unlockExpired_cases h
  · -- nothing is unlocked: the expiry alone tells the rows apart
    have hn : NothingToUnlock unlocked owner receiver now :=
      fun locked hlo kind hki he => absurd he (hf locked hlo kind hki)
    rw [and_iff_right hn, ← setRow_expire_inj hk _ _ 0]
    constructor
    · intro heq
      have := congrArg (Finmap.lookup (resourceV2Key owner receiver false)) heq
      rwa [Finmap.lookup_insert, Finmap.lookup_insert, Option.some.injEq] at this
    · intro heq
      rw [heq]
  · -- otherwise the locked row has to be written back as it was
    obtain ⟨hs, hsa⟩ := moveExpired_still_iff hm
    simp only [decide_eq_true_eq] at hs
    have hu : delegated (Actuator.putOrDelete (Actuator.putDelegated w
        (resourceV2Key owner receiver false) u) (resourceV2Key owner receiver true) l)
        (resourceV2Key owner receiver false) owner receiver = u := by
      rw [delegated, lookup_putOrDelete_of_ne _ _ hne.symm, Actuator.putDelegated,
        Finmap.lookup_insert, Option.getD_some]
    rw [hu]
    constructor
    · intro heq
      have hloo := fun key => congrArg (Finmap.lookup key) heq
      have hl := hloo (resourceV2Key owner receiver true)
      rw [Finmap.lookup_insert_of_ne _ hne, Finmap.lookup_insert_of_ne _ hne, hlo,
        lookup_putOrDelete] at hl
      split at hl
      · cases hl
      next hem =>
      obtain rfl := Option.some.inj hl
      have hr := hloo (resourceV2Key owner receiver false)
      rw [Finmap.lookup_insert, Finmap.lookup_insert, Option.some.injEq, hsa rfl,
        setRow_expire_inj hk] at hr
      refine ⟨fun locked' hl' kind' hk' he' => ?_, hr⟩
      obtain rfl := Option.some.inj (hlo.symm.trans hl')
      exact ⟨hem, hs.mp rfl kind' hk' he'⟩
    · rintro ⟨hn, hexp⟩
      have hl : l = locked := hs.mpr fun kind' hk' he' =>
        (hn locked hlo kind' hk' he').2
      obtain rfl := hsa hl
      have hem : ¬ rowEmpty l := hl ▸ (hn locked hlo kind hki he).1
      rw [hexp]
      refine Finmap.ext_lookup fun key => ?_
      by_cases hke : key = resourceV2Key owner receiver false
      · subst hke
        rw [Finmap.lookup_insert, Finmap.lookup_insert]
      · rw [Finmap.lookup_insert_of_ne _ hke, Finmap.lookup_insert_of_ne _ hke]
        by_cases hke' : key = resourceV2Key owner receiver true
        · subst hke'
          rw [lookup_putOrDelete, if_neg hem, hlo, hl]
        · rw [lookup_putOrDelete_of_ne _ _ hke', Actuator.putDelegated,
            Finmap.lookup_insert_of_ne _ hke]

theorem putPair_still_iff {s : Actuator.Indexes} :
    s = Actuator.putPair s (v2FromIndexKey owner receiver) (v2ToIndexKey receiver owner) owner
        receiver now ↔
      s.lookup (v2FromIndexKey owner receiver) = some { account := receiver, timestamp := now } ∧
        s.lookup (v2ToIndexKey receiver owner) = some { account := owner, timestamp := now } := by
  have hne : v2FromIndexKey owner receiver ≠ v2ToIndexKey receiver owner := by
    simp [v2FromIndexKey, v2ToIndexKey, Actuator.prefixedPair]
  constructor
  · intro h
    refine ⟨?_, ?_⟩
    · rw [h, Actuator.putPair, Finmap.lookup_insert_of_ne _ hne, Finmap.lookup_insert]
    · rw [h, Actuator.putPair, Finmap.lookup_insert]
  · rintro ⟨hf, hto⟩
    refine Finmap.ext_lookup fun key => ?_
    unfold Actuator.putPair
    by_cases hk : key = v2ToIndexKey receiver owner
    · subst hk
      rw [hto, Finmap.lookup_insert]
    · rw [Finmap.lookup_insert_of_ne _ hk]
      by_cases hk' : key = v2FromIndexKey owner receiver
      · subst hk'
        rw [hf, Finmap.lookup_insert]
      · rw [Finmap.lookup_insert_of_ne _ hk']

theorem removeV2Indexes_still_iff {s : Actuator.Indexes} :
    s = Actuator.removeV2Indexes s owner receiver ↔
      s.lookup (v2FromIndexKey owner receiver) = none ∧
        s.lookup (v2ToIndexKey receiver owner) = none := by
  have hne : v2FromIndexKey owner receiver ≠ v2ToIndexKey receiver owner := by
    simp [v2FromIndexKey, v2ToIndexKey, Actuator.prefixedPair]
  constructor
  · intro h
    refine ⟨?_, ?_⟩
    · rw [h, Actuator.removeV2Indexes, Finmap.lookup_erase_ne hne, Finmap.lookup_erase]
    · rw [h, Actuator.removeV2Indexes, Finmap.lookup_erase]
  · rintro ⟨hf, hto⟩
    refine Finmap.ext_lookup fun key => ?_
    unfold Actuator.removeV2Indexes
    by_cases hk : key = v2ToIndexKey receiver owner
    · subst hk
      rw [hto, Finmap.lookup_erase]
    · rw [Finmap.lookup_erase_ne hk]
      by_cases hk' : key = v2FromIndexKey owner receiver
      · subst hk'
        rw [hf, Finmap.lookup_erase]
      · rw [Finmap.lookup_erase_ne hk']

theorem unlockRow_cases {row record : DelegatedResource} {existed : Bool}
    (hr : w.delegatedResources.lookup (resourceV2Key owner receiver false) = some row)
    (h : Actuator.unlockRow w owner receiver now = .ok (unlocked, record, existed)) :
    existed = true ∧
      (w.delegatedResources.lookup (resourceV2Key owner receiver true) = none ∧
          unlocked = w ∧ record = row ∨
        ∃ locked l, w.delegatedResources.lookup (resourceV2Key owner receiver true) = some locked ∧
          Actuator.moveExpired
            (fun kind => decide (0 < rowAmount locked kind ∧ rowExpire locked kind < now)) locked
            row = .ok (l, record) ∧
          unlocked = Actuator.putOrDelete w (resourceV2Key owner receiver true) l) := by
  have hd : delegated w (resourceV2Key owner receiver false) owner receiver = row := by
    rw [delegated, hr, Option.getD_some]
  unfold Actuator.unlockRow at h
  simp only [hd, hr, Option.isSome_some, Bool.true_or] at h
  split at h
  · next hn =>
    rw [pure_eq_ok_iff, Prod.mk.injEq, Prod.mk.injEq] at h
    exact ⟨h.2.2.symm, .inl ⟨hn, h.1.symm, h.2.1.symm⟩⟩
  · next locked hl =>
    simp only [bind_eq_ok_iff, pure_eq_ok_iff, Prod.mk.injEq] at h
    obtain ⟨⟨l, u⟩, hm, rfl, rfl, rfl⟩ := h
    exact ⟨rfl, .inr ⟨locked, l, hl, hm, rfl⟩⟩

theorem lookup_rowsAfter_of_ne (rows : FMap Bytes DelegatedResource) {key key' : Bytes}
    (record : DelegatedResource) (existed : Bool) (h : key' ≠ key) :
    (Actuator.rowsAfter rows key record existed).lookup key' = rows.lookup key' := by
  unfold Actuator.rowsAfter
  split
  · split
    · exact Finmap.lookup_erase_ne h
    · rfl
  · exact Finmap.lookup_insert_of_ne _ h

/-- Nothing has expired of the locked row exactly where unlocking leaves it as it is. -/
theorem unlockRow_still_iff {row record : DelegatedResource} {existed : Bool}
    (hr : w.delegatedResources.lookup (resourceV2Key owner receiver false) = some row)
    (h : Actuator.unlockRow w owner receiver now = .ok (unlocked, record, existed)) :
    (w.delegatedResources.lookup (resourceV2Key owner receiver true) =
        unlocked.delegatedResources.lookup (resourceV2Key owner receiver true) ↔
      NothingExpired w owner receiver now) ∧
    (NothingExpired w owner receiver now →
      unlocked.delegatedResources = w.delegatedResources ∧ record = row) := by
  obtain ⟨-, ⟨hn, rfl, rfl⟩ | ⟨locked, l, hlo, hmo, rfl⟩⟩ := unlockRow_cases hr h
  · refine ⟨iff_of_true rfl fun locked hlo => ?_, fun _ => ⟨rfl, rfl⟩⟩
    exact absurd (hn.symm.trans hlo) nofun
  obtain ⟨hs, hsa⟩ := moveExpired_still_iff hmo
  simp only [decide_eq_true_eq] at hs
  have hm : NothingExpired w owner receiver now ↔ ¬ rowEmpty l ∧ l = locked := by
    constructor
    · intro hno
      obtain ⟨he, hn⟩ := hno locked hlo
      have hl : l = locked := hs.mpr fun kind _ hexp => absurd hexp (hn kind)
      exact ⟨hl ▸ he, hl⟩
    · rintro ⟨he, rfl⟩ locked' hl'
      obtain rfl := Option.some.inj (hlo.symm.trans hl')
      refine ⟨he, fun kind hexp => ?_⟩
      by_cases hk : kind = .tronPower
      · subst hk
        exact absurd hexp.1 (lt_irrefl 0)
      · have hz := (hs.mp rfl kind hk hexp).1
        omega
  rw [hm, lookup_putOrDelete, hlo]
  refine ⟨?_, ?_⟩
  · split
    · next he => exact iff_of_false nofun fun h => h.1 he
    · next he =>
      rw [Option.some.injEq, and_iff_right he]
      exact eq_comm
  · rintro ⟨he, rfl⟩
    refine ⟨Finmap.ext_lookup fun key => ?_, hsa rfl⟩
    by_cases hke : key = resourceV2Key owner receiver true
    · subst hke
      rw [lookup_putOrDelete, if_neg he, hlo]
    · exact lookup_putOrDelete_of_ne _ _ hke

theorem rowEmpty_setRow_iff {row : DelegatedResource} (hk : k ≠ .tronPower) (n x : Int) :
    rowEmpty (setRow row k (rowAmount row k - n) x) ↔
      ∀ kind, rowAmount row kind = if kind = k then n else 0 := by
  constructor
  · rintro ⟨hb, he⟩ kind
    cases k <;> cases kind <;> simp_all [setRow, rowAmount] <;> omega
  · intro h
    have hb := h .bandwidth
    have he := h .energy
    cases k <;> simp_all [setRow, rowAmount, rowEmpty]

end Rows

section Delegation

variable {cfg : ExecutionConfig} {w w₁ w₂ : World} {owner receiver : Bytes} {amount kind : Word}
  {r : ActuatorResult}

theorem delegateV2_agrees_iff (h₁ : delegateV2 w owner receiver amount kind = .ok (true, w₁))
    (h₂ : ((StakingCall.delegateV2 receiver amount kind).operation owner).execute cfg w =
      .ok (w₂, r)) :
    SameStaking w₁ w₂ ↔ (StakingCall.delegateV2 receiver amount kind).Agrees owner w := by
  obtain ⟨k, sender, sender', taker, taker', items, hk, hs, ht, hit, ha, hp, ha',
    hp', rfl⟩ := delegateV2_ok h₁
  obtain ⟨a, a', b, b', k', items', unlocked, now, expire, hn⟩ :=
    Actuator.DelegateResource.execute_effect h₂
  obtain rfl := Option.some.inj (hs.symm.trans hn.foundOwner)
  obtain rfl := Option.some.inj (ht.symm.trans hn.foundReceiver)
  obtain rfl := Option.some.inj ((resource_eq hk).symm.trans hn.resource_eq)
  obtain rfl := Except.ok.inj (hit.symm.trans hn.items_eq)
  obtain rfl := hn.expire_eq rfl
  have hpo := (positions_put_put rfl hn.accounts_eq
    (ha.trans hn.ownerAddress_eq.symm) (ha'.trans hn.receiverAddress_eq.symm)
    (hp.trans hn.owner_eq.symm)).mpr (hp'.trans hn.taker_eq.symm)
  have hr := lent_rows_iff amount.toI64Safe hn.lendable hn.unlocked_eq
  constructor
  · intro h k' now' hk' hn'
    obtain rfl := Option.some.inj (hk.symm.trans hk')
    obtain rfl := Except.ok.inj (hn.now_eq.symm.trans hn')
    obtain ⟨hno, he⟩ := hr.mp (h.rows.trans hn.rows_eq)
    exact ⟨hno, putPair_still_iff.mp (h.indexes.trans hn.indexes_eq), he⟩
  · intro h
    obtain ⟨hno, hi, he⟩ := h k now hk hn.now_eq
    refine ⟨hpo, ?_, ?_, fun k' => ?_⟩
    · exact (hr.mpr ⟨hno, he⟩).trans hn.rows_eq.symm
    · exact (putPair_still_iff.mpr hi).trans hn.indexes_eq.symm
    · rw [hn.props_eq]
      rfl

theorem taken_position_iff {p p₁ p₂ : Position} {k : ResourceCode} {n : Int}
    (hf : n ≤ p.held k → InI64 (p.held k - n))
    (h₁ : p₁ = { p with
      held := Function.update p.held k (Actuator.saturate (p.held k - n)) })
    (h₂ : p₂ = { p with
      held := Function.update p.held k (if p.held k < n then 0 else p.held k - n) }) :
    p₁ = p₂ ↔ n ≤ p.held k := by
  rw [h₁, h₂]
  constructor
  · intro h
    have hh := congrFun (congrArg Position.held h) k
    simp only [Function.update_self, Actuator.saturate, i64Min, i64Max] at hh
    by_contra hlt
    rw [if_pos (not_le.mp hlt)] at hh
    omega
  · intro h
    have hin := hf h
    have hs : Actuator.saturate (p.held k - n) = p.held k - n := by
      simp only [InI64, Actuator.saturate] at hin ⊢
      omega
    rw [if_neg (not_lt.mpr h), hs]

theorem undelegateV2_agrees_iff (h₁ : undelegateV2 w owner receiver amount kind = .ok (true, w₁))
    (h₂ : ((StakingCall.undelegateV2 receiver amount kind).operation owner).execute cfg w =
      .ok (w₂, r)) :
    SameStaking w₁ w₂ ↔ (StakingCall.undelegateV2 receiver amount kind).Agrees owner w := by
  obtain ⟨k, sender, sender', taker, taker', items, row, hk, hse, ht, hit, hr, had,
    hp, ha', hp', rfl⟩ := undelegateV2_ok h₁
  obtain ⟨a, a', taker₀, taker₁, k', items', unlocked, record, existed, now, hn⟩ :=
    Actuator.UnDelegateResource.execute_effect h₂
  obtain rfl := Option.some.inj (hse.symm.trans hn.foundOwner)
  obtain rfl := ht.symm.trans hn.foundReceiver
  obtain rfl := Option.some.inj ((resource_eq hk).symm.trans hn.resource_eq)
  obtain rfl := Except.ok.inj (hit.symm.trans hn.items_eq)
  obtain ⟨b, -, hba, hb, ha⟩ := hn.taker_eq
  rw [Actuator.wrap_of_inI64 hn.lentFits] at hp
  have hpo := (positions_put_put rfl ha (had.trans hn.ownerAddress_eq.symm)
    (ha'.trans hba.symm) (hp.trans hn.owner_eq.symm)).trans
      (taken_position_iff (hn.heldFits taker rfl) hp' hb)
  obtain ⟨hst, hs⟩ := unlockRow_still_iff hr hn.unlocked_eq
  obtain ⟨rfl, -⟩ := unlockRow_cases hr hn.unlocked_eq
  have hla : LastOfPair w owner receiver k amount.toI64Safe ↔
      rowEmpty (setRow row k (rowAmount row k - amount.toI64Safe) (rowExpire row k)) ∧
        w.delegatedResources.lookup (resourceV2Key owner receiver true) = none := by
    rw [rowEmpty_setRow_iff hn.lendable, LastOfPair, and_comm]
    refine and_congr_left fun _ => ⟨fun h => h row hr, fun h row' hr' => ?_⟩
    rwa [← Option.some.inj (hr.symm.trans hr')]
  have hi : NothingExpired w owner receiver now →
      (w.accountIndexes = w₂.accountIndexes ↔
        (LastOfPair w owner receiver k amount.toI64Safe → Unindexed w owner receiver)) := by
    intro hno
    obtain ⟨hro, rfl⟩ := hs hno
    rw [hn.indexes_eq, hro, hla]
    split
    · next h =>
      rw [removeV2Indexes_still_iff]
      exact ⟨fun hnon _ => hnon, fun him => him h⟩
    · next h => exact iff_of_true rfl fun h' => absurd h' h
  constructor
  · intro h taker' k' now' ht' hk' hn'
    obtain rfl := Option.some.inj (ht.symm.trans ht')
    obtain rfl := Option.some.inj (hk.symm.trans hk')
    obtain rfl := Except.ok.inj (hn.now_eq.symm.trans hn')
    have hne := lockedKey_ne owner receiver
    have hl := congrArg (Finmap.lookup (resourceV2Key owner receiver true))
      (h.rows.trans hn.rows_eq)
    have hno : NothingExpired w owner receiver now := by
      refine hst.mp ?_
      rw [lookup_rowsAfter_of_ne _ _ _ hne] at hl
      rw [← hl]
      exact (lookup_rowsAfter_of_ne _ _ _ hne).symm
    exact ⟨hno, hpo.mp h.positions, (hi hno).mp h.indexes⟩
  · intro h
    obtain ⟨hno, hh, hin⟩ := h taker k now ht hk hn.now_eq
    obtain ⟨hro, rfl⟩ := hs hno
    refine ⟨hpo.mpr hh, ?_, (hi hno).mpr hin, fun k' => ?_⟩
    · rw [hn.rows_eq, hro]
      rfl
    · rw [hn.props_eq]
      rfl

end Delegation

/-! ## Refusals -/

section Refusals

variable {w w' : World} {owner : Bytes}

theorem unchanged_of_pure {ε α : Type} {a a' : α}
    (h : (pure (a, w) : Except ε (α × World)) = .ok (a', w')) : w' = w :=
  (Prod.mk.inj (pure_eq_ok_iff.mp h)).2.symm

theorem freezeV2_refused {amount kind : Word}
    (h : freezeV2 w owner amount kind = .ok (false, w')) : w' = w := by
  unfold freezeV2 at h
  dsimp only at h
  split at h
  · exact unchanged_of_pure h
  split at h
  · exact unchanged_of_pure h
  split at h
  · exact unchanged_of_pure h
  · simp only [bind_eq_ok_iff, pure_eq_ok_iff, Prod.mk.injEq, Bool.true_eq_false, false_and,
      and_false, exists_false] at h

theorem unfreezeV2_refused {amount kind : Word}
    (h : unfreezeV2 w owner amount kind = .ok (false, w')) : w' = w := by
  unfold unfreezeV2 at h
  dsimp only at h
  split at h
  · exact unchanged_of_pure h
  split at h
  · exact unchanged_of_pure h
  rw [bind_eq_ok_iff] at h
  obtain ⟨now, -, h⟩ := h
  split at h
  · exact unchanged_of_pure h
  · simp only [bind_eq_ok_iff, pure_eq_ok_iff, Prod.mk.injEq, Bool.true_eq_false, false_and,
      and_false, exists_false] at h

theorem withdrawExpiredV2_refused (h : withdrawExpiredV2 w owner = .ok (0, w')) : w' = w := by
  unfold withdrawExpiredV2 at h
  split at h
  · exact unchanged_of_pure h
  rw [bind_eq_ok_iff] at h
  obtain ⟨now, -, h⟩ := h
  dsimp only at h
  split at h
  · next hp =>
    simp only [bind_eq_ok_iff, pure_eq_ok_iff, Prod.mk.injEq] at h
    obtain ⟨_, -, hz, -⟩ := h
    omega
  · exact unchanged_of_pure h

theorem delegateV2_refused {receiver : Bytes} {amount kind : Word}
    (h : delegateV2 w owner receiver amount kind = .ok (false, w')) : w' = w := by
  unfold delegateV2 at h
  dsimp only at h
  split at h
  · exact unchanged_of_pure h
  split at h
  · exact unchanged_of_pure h
  rw [bind_eq_ok_iff] at h
  obtain ⟨allowed, -, h⟩ := h
  split at h
  · exact unchanged_of_pure h
  split at h
  · split at h
    · exact unchanged_of_pure h
    · simp only [bind_eq_ok_iff, pure_eq_ok_iff, Prod.mk.injEq, Bool.true_eq_false, false_and,
      and_false, exists_false] at h
  · exact unchanged_of_pure h

theorem undelegateV2_refused {receiver : Bytes} {amount kind : Word}
    (h : undelegateV2 w owner receiver amount kind = .ok (false, w')) : w' = w := by
  unfold undelegateV2 at h
  dsimp only at h
  split at h
  · exact unchanged_of_pure h
  split at h
  · exact unchanged_of_pure h
  split at h
  · split at h
    · exact unchanged_of_pure h
    split at h
    · exact unchanged_of_pure h
    · simp only [bind_eq_ok_iff, pure_eq_ok_iff, Prod.mk.injEq, Bool.true_eq_false, false_and,
      and_false, exists_false] at h
  · exact unchanged_of_pure h

/-- The weights that have been moved are as before where the whole TRX are, and their rows were in
the form in which they are written. -/
theorem Shifts.still_iff {touched : ResourceCode → Prop} {props : FMap Property Bytes}
    {p p' : Position} (h : Shifts touched w props p p') :
    props = w.dynamicProperties ↔ ∀ k, touched k →
      (∃ total, InI64 total ∧ w.dynamicProperties.lookup (weightName k) = some (be64 total)) ∧
        wholeTrx (p'.staked k) = wholeTrx (p.staked k) := by
  constructor
  · rintro rfl k hk
    obtain ⟨total, ht, hin, hl⟩ := h.moved k hk
    refine ⟨⟨_, hin, hl⟩, ?_⟩
    have hr := dynamicOrZero_of_lookup (w := w) (p := weightName k)
      (by rw [hl, Option.bind_some, fromBe64_be64 hin])
    have := Except.ok.inj (ht.symm.trans hr)
    omega
  · intro hs
    refine Finmap.ext_lookup fun q => ?_
    by_cases hq : ∃ k, touched k ∧ q = weightName k
    · obtain ⟨k, hk, rfl⟩ := hq
      obtain ⟨total, ht, hin, hl⟩ := h.moved k hk
      obtain ⟨⟨total', hi', hl'⟩, hsa⟩ := hs k hk
      have hr := dynamicOrZero_of_lookup (w := w) (p := weightName k)
        (by rw [hl', Option.bind_some, fromBe64_be64 hi'])
      obtain rfl := Except.ok.inj (ht.symm.trans hr)
      rw [hl, hl', hsa, sub_self, add_zero]
    · exact h.other q fun k hk hqk => hq ⟨k, hk, hqk⟩

theorem cancelAllUnfreezeV2_refused (h : cancelAllUnfreezeV2 w owner = .ok (false, w')) :
    w' = w ↔ StakingCall.cancelAllUnfreezeV2.LeavesNoTrace owner w := by
  obtain ⟨-, rfl, he⟩ | ⟨a, now, hal, ha, hn, hl⟩ := cancelAllUnfreezeV2_parts h
  · refine iff_of_true rfl fun a now hal ha _ k hk => ?_
    rcases he with hr | hno | ⟨b, hb, hni⟩
    · exact absurd hal hr
    · exact absurd (hno.symm.trans ha) nofun
    · obtain rfl := Option.some.inj (hb.symm.trans ha)
      obtain ⟨item, hi, -⟩ := hk
      rw [hni] at hi
      exact absurd hi List.not_mem_nil
  · obtain ⟨p', props, hc, hsh, -, hr⟩ := cancelLoop_ok hl
    obtain rfl := hr rfl
    have hw : { w with dynamicProperties := props } = w ↔ props = w.dynamicProperties :=
      ⟨fun h => congrArg World.dynamicProperties h, fun h => by rw [h]⟩
    have hsta := staked_cancelsTo hc
    rw [hw, hsh.still_iff]
    constructor
    · intro hst a' now' _ ha' hn' k hk
      obtain rfl := Option.some.inj (ha.symm.trans ha')
      obtain rfl := Except.ok.inj (hn.symm.trans hn')
      obtain ⟨hro, hs⟩ := hst k hk
      rw [hsta k] at hs
      exact ⟨hro, hs⟩
    · intro hst k hk
      obtain ⟨hro, hs⟩ := hst a now hal ha hn k hk
      rw [hsta k]
      exact ⟨hro, hs⟩

end Refusals

/-! ## The refinement -/

theorem StakingCall.agrees_iff {cfg : ExecutionConfig} {w w₁ w₂ : World} {owner : Bytes}
    {call : StakingCall} {value : Int} {r : ActuatorResult}
    (h₁ : call.attempt owner w = .ok (value, w₁)) (hv : 0 < value)
    (h₂ : (call.operation owner).execute cfg w = .ok (w₂, r)) :
    SameStaking w₁ w₂ ↔ call.Agrees owner w := by
  cases call with
  | freezeV2 amount kind => exact freezeV2_agrees_iff (pushBool_pos h₁ hv) h₂
  | unfreezeV2 amount kind => exact unfreezeV2_agrees_iff (pushBool_pos h₁ hv) h₂
  | withdrawExpiredV2 => exact iff_of_true (withdrawExpiredV2_agrees h₁ hv h₂) trivial
  | cancelAllUnfreezeV2 => exact cancelAllUnfreezeV2_agrees_iff (pushBool_pos h₁ hv) h₂
  | delegateV2 receiver amount kind => exact delegateV2_agrees_iff (pushBool_pos h₁ hv) h₂
  | undelegateV2 receiver amount kind => exact undelegateV2_agrees_iff (pushBool_pos h₁ hv) h₂

theorem StakingCall.refused_iff {w w₁ : World} {owner : Bytes} {call : StakingCall}
    (h : call.attempt owner w = .ok (0, w₁)) : w₁ = w ↔ call.LeavesNoTrace owner w := by
  cases call with
  | freezeV2 amount kind => exact iff_of_true (freezeV2_refused (pushBool_zero h)) trivial
  | unfreezeV2 amount kind => exact iff_of_true (unfreezeV2_refused (pushBool_zero h)) trivial
  | withdrawExpiredV2 => exact iff_of_true (withdrawExpiredV2_refused h) trivial
  | cancelAllUnfreezeV2 => exact cancelAllUnfreezeV2_refused (pushBool_zero h)
  | delegateV2 receiver amount kind =>
    exact iff_of_true (delegateV2_refused (pushBool_zero h)) trivial
  | undelegateV2 receiver amount kind =>
    exact iff_of_true (undelegateV2_refused (pushBool_zero h)) trivial

/-- **The two implementations of staking.** When a step of a contract and the transaction for the
same step both go through, they leave the same stakes, rows, indexes and weights exactly in the
states of `Agrees`. When the contract's step pushes zero, the state is unchanged after an error, and
without an error exactly in the states of `LeavesNoTrace`. -/
theorem staking_agrees_iff (cfg : ExecutionConfig) (w : World) (owner : Bytes)
    (call : StakingCall) :
    (∀ value w₁ w₂ r, call.attempt owner w = .ok (value, w₁) → 0 < value →
      (call.operation owner).execute cfg w = .ok (w₂, r) →
        (SameStaking w₁ w₂ ↔ call.Agrees owner w)) ∧
    (∀ w₁, call.attempt owner w = .ok (0, w₁) → (w₁ = w ↔ call.LeavesNoTrace owner w)) ∧
    ∀ e, call.attempt owner w = .error e → transactional w (call.attempt owner w) = (0, w) := by
  refine ⟨fun value w₁ w₂ r h₁ hvalue h₂ => StakingCall.agrees_iff h₁ hvalue h₂,
    fun w₁ h => StakingCall.refused_iff h, fun e h => ?_⟩
  rw [h]
  rfl

/-! ## Half a TRX -/

namespace Sample

open Actuator.Sample (alice bob config)

/-- The staking rules of the second generation. -/
def properties : FMap Property Bytes :=
  [(Property.totalNetWeight, be64 2), (.totalEnergyWeight, be64 0), (.totalTronPowerWeight, be64 0),
    (.unfreezeDelayDays, be64 14), (.allowNewResourceModel, be64 1),
    (.allowDelegateResource, be64 1), (.allowCancelAllUnfreezeV2, be64 1),
    (.latestBlockHeaderTimestamp, be64 0)].foldr (fun row rows => rows.insert row.1 row.2) ∅

/-- A contract that has staked two TRX for bandwidth and lent `lent` of it. -/
def lending (lent : Int) : World where
  accounts := (Accounts.empty.put {
      address := alice
      type := .contract
      balance := 10 * trxPrecision
      frozenV2 := [⟨0, 2 * trxPrecision - lent⟩]
      delegatedFrozenV2BalanceForBandwidth := lent }).put {
      address := bob
      acquiredDelegatedFrozenV2BalanceForBandwidth := lent }
  delegatedResources := Finmap.insert (resourceV2Key alice bob false)
    { sender := alice, receiver := bob, frozenBalanceForBandwidth := lent } ∅
  dynamicProperties := properties

/-- The contract stakes another one and a half TRX. -/
def freezeMore : StakingCall := .freezeV2 (BitVec.ofNat 256 1500000) 0

/-- The state after the step of the contract. -/
def contractAfter (w : World) (call : StakingCall) : World :=
  ((call.attempt alice w).toOption.map Prod.snd).getD w

/-- The state after the transaction. -/
def actuatorAfter (w : World) (call : StakingCall) : World :=
  (((call.operation alice).execute config w).toOption.map Prod.fst).getD w

theorem attempt_eq_after (w : World) (call : StakingCall) (value : Int)
    (h : (call.attempt alice w).toOption.map Prod.fst = some value) :
    call.attempt alice w = .ok (value, contractAfter w call) := by
  unfold contractAfter
  cases hr : call.attempt alice w with
  | error e =>
    rw [hr] at h
    cases h
  | ok done =>
    rw [hr] at h
    exact congrArg (fun x => Except.ok (x, done.2)) (Option.some.inj h)

theorem execute_eq_after (w : World) (call : StakingCall)
    (h : ((call.operation alice).execute config w).toOption.isSome = true) :
    ∃ r, (call.operation alice).execute config w = .ok (actuatorAfter w call, r) := by
  unfold actuatorAfter
  cases hr : (call.operation alice).execute config w with
  | error e =>
    rw [hr] at h
    cases h
  | ok done => exact ⟨done.2, rfl⟩

/-- A weight that cannot be read. -/
def malformed : World :=
  { lending 1000000 with dynamicProperties := properties.insert .totalNetWeight [0] }

theorem agrees_whole : freezeMore.Agrees alice (lending 1000000) := by
  intro a k ha hk
  obtain rfl : ResourceCode.bandwidth = k := Option.some.inj hk
  obtain rfl := Option.some.inj ha
  exact .of_dvd (by decide) (by decide) (by decide) ⟨1, rfl⟩

end Sample

/-- With one TRX of two lent, both implementations agree. A stake of nothing is refused without a
trace, and so is one that fails on a malformed weight. -/
theorem staking_agrees_sample :
    SameStaking (Sample.contractAfter (Sample.lending 1000000) Sample.freezeMore)
        (Sample.actuatorAfter (Sample.lending 1000000) Sample.freezeMore) ∧
      Sample.contractAfter (Sample.lending 1000000) (.freezeV2 0 0) = Sample.lending 1000000 ∧
      transactional Sample.malformed
          (Sample.freezeMore.attempt Actuator.Sample.alice Sample.malformed) =
        (0, Sample.malformed) := by
  obtain ⟨r, hexecute⟩ := Sample.execute_eq_after (Sample.lending 1000000) Sample.freezeMore
    (by decide)
  have hattempt := Sample.attempt_eq_after (Sample.lending 1000000) Sample.freezeMore 1
    (by decide)
  have hrefused := Sample.attempt_eq_after (Sample.lending 1000000) (.freezeV2 0 0) 0
    (by decide)
  refine ⟨?_, ?_, ?_⟩
  · exact ((staking_agrees_iff Actuator.Sample.config _ Actuator.Sample.alice
      Sample.freezeMore).1 1 _ _ r hattempt one_pos hexecute).mpr Sample.agrees_whole
  · exact ((staking_agrees_iff Actuator.Sample.config _ Actuator.Sample.alice
      (.freezeV2 0 0)).2.1 _ hrefused).mpr trivial
  · exact (staking_agrees_iff Actuator.Sample.config _ Actuator.Sample.alice
      Sample.freezeMore).2.2 (.invalidDynamicValue "TOTAL_NET_WEIGHT" 1) rfl

/-- With one and a half TRX of two lent, staking one and a half more completes two whole TRX of the
contract's own stake, and one of the stake that the actuator counts. -/
theorem staking_weights_differ :
    ¬ ∀ (cfg : ExecutionConfig) (w : World) (owner : Bytes) (call : StakingCall) value w₁ w₂ r,
      StakingOpen w → call.ReceiverUnused w →
      call.attempt owner w = .ok (value, w₁) → 0 < value →
      (call.operation owner).execute cfg w = .ok (w₂, r) → SameStaking w₁ w₂ := by
  intro h
  have hopen : StakingOpen (Sample.lending 1500000) :=
    ⟨⟨14, dynamicLong_eq_ok_iff.mpr (by decide), by decide⟩, by decide,
      by decide, by decide⟩
  obtain ⟨r, hexecute⟩ := Sample.execute_eq_after (Sample.lending 1500000) Sample.freezeMore
    (by decide)
  have hattempt := Sample.attempt_eq_after (Sample.lending 1500000) Sample.freezeMore 1
    (by decide)
  have hweights := (h _ _ _ Sample.freezeMore _ _ _ r hopen trivial hattempt one_pos
    hexecute).weights .bandwidth
  revert hweights
  decide

end RustTron.Tvm
