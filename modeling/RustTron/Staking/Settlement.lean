import RustTron.Staking.Actuators
import RustTron.Library.Results

/-!
# The usage that goes back with returned stake

When delegated stake is returned, the usage of the receiver is settled, and a part of it goes back
to the owner. This is written out twice, for bandwidth and for energy. Both compute one function of
the fields of the resource, but for the slots that they take to be left of a window: bandwidth
counts those that have passed since the last use, while energy gives the receiver its whole window,
and the owner a precise window in thousandths of a slot.

## Main definitions

* `UsageFields`, `Undelegation`: what the settlement of one resource writes and reads
* `WindowsLeft`: what is left of the windows, as bandwidth and as energy count it
* `Undelegation.settled`: the function that both compute
* `Undelegation.Alike`: where the two ways of counting make no difference

## Main results

* `settledFields_bandwidth`, `settledFields_energy`: both are this function
* `settlements_agree_iff`: where they agree
-/

namespace RustTron.Actuator

/-- The usage of one resource of an account. -/
structure UsageFields where
  usage : Int
  latestSlot : Int
  window : Int
  precise : Bool
  deriving DecidableEq, Repr

def usageFields (a : Account) : ResourceCode → UsageFields
  | .bandwidth => ⟨a.netUsage, a.latestConsumeTime, a.netWindowSize, a.netWindowOptimized⟩
  | _ => ⟨a.resource.energyUsage, a.resource.latestConsumeTimeForEnergy,
      a.resource.energyWindowSize, a.resource.energyWindowOptimized⟩

def UsageFields.recovered (f : UsageFields) (now : Int) : Option Int :=
  (recoveredUsage f.usage f.latestSlot f.window f.precise now).toOption

/-- What the settlement of one resource reads of two accounts and of the chain. -/
structure Undelegation where
  owner : UsageFields
  receiver : UsageFields
  acquired : Int
  staked : Option Int
  limit : Option Int
  weight : Option Int
  balance : Int
  nowSlot : Int
  precise : Bool

def limitOf : ResourceCode → Property
  | .bandwidth => .totalNetLimit
  | _ => .totalEnergyCurrentLimit

def weightOf : ResourceCode → Property
  | .bandwidth => .totalNetWeight
  | _ => .totalEnergyWeight

def undelegationOf (kind : ResourceCode) (w : World) (owner receiver : Account)
    (balance nowSlot : Int) (precise : Bool) : Undelegation where
  owner := usageFields owner kind
  receiver := usageFields receiver kind
  acquired := acquiredV2 receiver kind
  staked := (checkedAdd (frozenV2 receiver kind) (delegatedV2 receiver kind)).toOption
  limit := (dynamicLong w (limitOf kind)).toOption
  weight := (dynamicLong w (weightOf kind)).toOption
  balance := balance
  nowSlot := nowSlot
  precise := precise

/-- The slots that are left of the window of an owner, and of a receiver. -/
structure WindowsLeft where
  owner : UsageFields → Int → Int
  receiver : UsageFields → Int → Int

/-- Bandwidth counts the slots that have passed. -/
def bandwidthLeft : WindowsLeft where
  owner f now := remainingWindow f.latestSlot f.window f.precise now
  receiver f now := remainingWindow f.latestSlot f.window f.precise now

/-- Energy counts a window in the unit that it is stored in, and that of a receiver as a whole. -/
def energyLeft : WindowsLeft where
  owner f now :=
    max (saturate ((if f.window ≤ 0 then 28800 else f.window) - saturate (now - f.latestSlot))) 0
  receiver f now := max (max f.window (wrap (28800 - saturate (now - f.latestSlot)))) 0

namespace Undelegation

variable (u : Undelegation)

/-- The usage that goes back, of what the receiver has used. -/
def transfer (usage : Int) : Option Int :=
  if u.acquired < u.balance then some 0
  else do
    let staked ← u.staked
    let allFrozen ← (checkedAdd staked u.acquired).toOption
    let limit ← u.limit
    let weight ← u.weight
    let _ ← (checkedSub u.acquired u.balance).toOption
    pure (min (usageLimit u.balance limit weight) (proportionalUsage usage u.balance allFrozen))

/-- The recovered usages of receiver and owner, what goes back, and what the owner has then. -/
def usages : Option (Int × Int × Int × Int) := do
  let receiver ← u.receiver.recovered u.nowSlot
  let owner ← u.owner.recovered u.nowSlot
  let transfer ← u.transfer receiver
  let combined ← if transfer > 0 then (checkedAdd owner transfer).toOption else some owner
  pure (receiver, owner, transfer, combined)

/-- The window of the owner that usage goes back to. -/
def ownerWindow (left : WindowsLeft) (owner transfer combined : Int) : Int :=
  weightedWindow owner (left.owner u.owner u.nowSlot) transfer (left.receiver u.receiver u.nowSlot)
    combined

/-- The fields of owner and receiver after the settlement. -/
def settled (left : WindowsLeft) : Option (UsageFields × UsageFields) := do
  let (receiver, owner, transfer, combined) ← u.usages
  let window ← (preciseWindow u.precise
    (if u.acquired < u.balance then 28800 else left.receiver u.receiver u.nowSlot)).toOption
  let receiver : UsageFields := ⟨saturate (receiver - transfer), u.nowSlot, window,
    u.precise || u.receiver.precise⟩
  if transfer > 0 then do
    let window ← (preciseWindow u.precise (u.ownerWindow left owner transfer combined)).toOption
    pure (⟨combined, u.nowSlot, window, u.precise || u.owner.precise⟩, receiver)
  else pure ({ u.owner with usage := owner }, receiver)

end Undelegation

/-- The fields that the settlement of a resource leaves. -/
def settledFields (kind : ResourceCode) (w : World) (owner receiver : Account)
    (balance nowSlot : Int) (precise : Bool) : Option (UsageFields × UsageFields) := do
  let (owner, receiver) ← (settle kind w owner (some receiver) balance nowSlot precise).toOption
  let receiver ← receiver
  pure (usageFields owner kind, usageFields receiver kind)

section

variable (w : World) (owner receiver : Account) (balance nowSlot : Int) (precise : Bool)

theorem toOption_bind {ε α β : Type} (x : Except ε α) (f : α → Except ε β) :
    (x >>= f).toOption = x.toOption.bind fun a => (f a).toOption := by
  cases x <;> rfl

theorem toOption_ok {ε α : Type} (a : α) : (.ok a : Except ε α).toOption = some a := rfl

/-- What a receiver gives back, and the account that is left of it. -/
theorem toOption_returnedUsage (kind : ResourceCode) (usage : Int) :
    (returnedUsage w receiver kind usage balance (limitOf kind) (weightOf kind)).toOption =
      ((undelegationOf kind w owner receiver balance nowSlot precise).transfer usage).map
        fun transfer => (setAcquiredV2 receiver kind
          (if acquiredV2 receiver kind < balance then 0 else acquiredV2 receiver kind - balance),
          transfer) := by
  unfold returnedUsage Undelegation.transfer undelegationOf
  dsimp only
  by_cases ha : acquiredV2 receiver kind < balance
  · simp only [ha, if_true]
    rfl
  simp only [ha, if_false, toOption_bind, Option.bind_eq_bind]
  cases checkedAdd (frozenV2 receiver kind) (delegatedV2 receiver kind) with
  | error e => rfl
  | ok staked =>
  simp only [toOption_ok, Option.bind_some]
  cases checkedAdd staked (acquiredV2 receiver kind) with
  | error e => rfl
  | ok allFrozen =>
  cases dynamicLong w (limitOf kind) with
  | error e => rfl
  | ok limit =>
  cases dynamicLong w (weightOf kind) with
  | error e => rfl
  | ok weight =>
  cases hs : checkedSub (acquiredV2 receiver kind) balance with
  | error e => rfl
  | ok left =>
  obtain ⟨-, rfl⟩ := checkedSub_eq_ok_iff.mp hs
  rfl

theorem settledFields_bandwidth :
    settledFields .bandwidth w owner receiver balance nowSlot precise =
      (undelegationOf .bandwidth w owner receiver balance nowSlot precise).settled
        bandwidthLeft := by
  have hr := toOption_returnedUsage w owner receiver balance nowSlot precise .bandwidth
  simp only [settledFields, settle, settleBandwidth, if_true, Undelegation.settled,
    Undelegation.usages, toOption_bind, Option.bind_eq_bind]
  dsimp only [undelegationOf, usageFields, limitOf, weightOf, UsageFields.recovered, bandwidthLeft,
    Undelegation.ownerWindow] at hr ⊢
  generalize recoveredUsage receiver.netUsage _ _ _ _ = receiverUsage
  cases receiverUsage with
  | error e => rfl
  | ok receiverUsage =>
  simp only [toOption_ok, Option.bind_some]
  generalize recoveredUsage owner.netUsage _ _ _ _ = ownerUsage
  cases ownerUsage with
  | error e => rfl
  | ok ownerUsage =>
  simp only [toOption_ok, Option.bind_some, hr]
  cases ht : Undelegation.transfer _ receiverUsage with
  | none => rfl
  | some transfer =>
  simp only [Option.map_some, Option.bind_some]
  by_cases ha : acquiredV2 receiver .bandwidth < balance
  · simp only [Undelegation.transfer, ha, if_true, Option.some.injEq] at ht
    subst ht
    simp only [ha, if_true, gt_iff_lt, lt_irrefl, if_false]
    generalize preciseWindow precise 28800 = window
    cases window with
    | error e => rfl
    | ok window => rfl
  simp only [ha, if_false]
  generalize preciseWindow precise (remainingWindow _ _ _ _) = window
  by_cases ht : transfer > 0
  · simp only [ht, if_true]
    generalize checkedAdd ownerUsage transfer = combined
    cases combined with
    | error e => rfl
    | ok combined =>
    cases window with
    | error e => rfl
    | ok window =>
    simp only [toOption_ok, Option.bind_some, Option.pure_def, ht, if_true]
    generalize preciseWindow precise _ = ownerWindow
    cases ownerWindow with
    | error e => rfl
    | ok ownerWindow => rfl
  · simp only [ht, if_false, Option.pure_def, Option.bind_some]
    cases window with
    | error e => rfl
    | ok window => rfl

theorem settledFields_energy :
    settledFields .energy w owner receiver balance nowSlot precise =
      (undelegationOf .energy w owner receiver balance nowSlot precise).settled
        energyLeft := by
  have hr := toOption_returnedUsage w owner receiver balance nowSlot precise .energy
  simp only [settledFields, settle, settleEnergy, reduceCtorEq, if_false, Undelegation.settled,
    Undelegation.usages, toOption_bind, Option.bind_eq_bind]
  dsimp only [undelegationOf, usageFields, limitOf, weightOf, UsageFields.recovered, energyLeft,
    Undelegation.ownerWindow] at hr ⊢
  generalize recoveredUsage receiver.resource.energyUsage _ _ _ _ = receiverUsage
  cases receiverUsage with
  | error e => rfl
  | ok receiverUsage =>
  simp only [toOption_ok, Option.bind_some]
  generalize recoveredUsage owner.resource.energyUsage _ _ _ _ = ownerUsage
  cases ownerUsage with
  | error e => rfl
  | ok ownerUsage =>
  simp only [toOption_ok, Option.bind_some, hr]
  cases ht : Undelegation.transfer _ receiverUsage with
  | none => rfl
  | some transfer =>
  simp only [Option.map_some, Option.bind_some]
  by_cases ha : acquiredV2 receiver .energy < balance
  · simp only [Undelegation.transfer, ha, if_true, Option.some.injEq] at ht
    subst ht
    simp only [ha, if_true, gt_iff_lt, lt_irrefl, if_false]
    generalize preciseWindow precise 28800 = window
    cases window with
    | error e => rfl
    | ok window => rfl
  simp only [ha, if_false]
  generalize preciseWindow precise (max _ 0) = window
  by_cases ht : transfer > 0
  · simp only [ht, if_true]
    generalize checkedAdd ownerUsage transfer = combined
    cases combined with
    | error e => rfl
    | ok combined =>
    cases window with
    | error e => rfl
    | ok window =>
    simp only [toOption_ok, Option.bind_some, Option.pure_def, ht, if_true]
    generalize preciseWindow precise _ = ownerWindow
    cases ownerWindow with
    | error e => rfl
    | ok ownerWindow => rfl
  · simp only [ht, if_false, Option.pure_def, Option.bind_some]
    cases window with
    | error e => rfl
    | ok window => rfl

end

/-- A window of which no slot has passed: there is none, or it counts slots, is no shorter than the
standard one, and was used in this very slot. -/
def UsageFields.Whole (f : UsageFields) (now : Int) : Prop :=
  f.window ≤ 0 ∨ f.precise = false ∧ f.latestSlot = now ∧ 28800 ≤ f.window ∧ f.window ≤ i64Max

/-- Usage is recovered of the past only. -/
theorem UsageFields.latestSlot_le {f : UsageFields} {now usage : Int}
    (h : f.recovered now = some usage) : f.latestSlot ≤ now := by
  by_contra hlt
  have ht : now < f.latestSlot := not_le.mp hlt
  unfold recovered recoveredUsage ResourceWindow.recover at h
  cases hw : (ResourceWindow.mk f.usage f.latestSlot f.window f.precise 28800).windowSlots with
  | error e =>
    rw [hw] at h
    cases h
  | ok window =>
    rw [hw] at h
    simp only [bind, Except.bind, ht, if_true] at h
    cases h

/-- Both ways of counting find the same left of a receiver's window exactly where it is whole. -/
theorem receiver_left_eq_iff {f : UsageFields} {now : Int} (h : f.latestSlot ≤ now) :
    bandwidthLeft.receiver f now = energyLeft.receiver f now ↔ f.Whole now := by
  have hs : saturate (now - f.latestSlot) = min i64Max (now - f.latestSlot) := by
    unfold saturate i64Min i64Max
    omega
  have hi : InI64 (28800 - saturate (now - f.latestSlot)) := by
    rw [hs]
    unfold InI64 i64Min i64Max
    omega
  unfold bandwidthLeft energyLeft remainingWindow UsageFields.Whole
  dsimp only
  rw [wrap_of_inI64 hi, hs]
  rcases le_or_gt f.window 0 with hw | hw
  · rw [if_pos hw]
    unfold saturate i64Min i64Max
    omega
  rw [if_neg (not_le.mpr hw)]
  cases hp : f.precise with
  | true =>
    -- a thousandth of the window is less than the window, and the slots passed only take from it
    have hd : f.window.tdiv 1000 = f.window / 1000 := Int.tdiv_eq_ediv_of_nonneg (le_of_lt hw)
    rw [if_pos rfl, hd]
    simp only [Bool.true_eq_false, false_and, or_false]
    unfold saturate i64Min i64Max
    omega
  | false =>
    simp only [Bool.false_eq_true, if_false, true_and]
    unfold saturate i64Min i64Max
    omega

/-- A window that energy counts as bandwidth does: there is none, or it counts slots, or all of it
has passed even in the unit it is stored in. -/
def UsageFields.CountedAlike (f : UsageFields) (now : Int) : Prop :=
  f.window ≤ 0 ∨ f.precise = false ∨ f.window ≤ saturate (now - f.latestSlot)

theorem UsageFields.CountedAlike.left_eq {f : UsageFields} {now : Int} (h : f.CountedAlike now) :
    bandwidthLeft.owner f now = energyLeft.owner f now := by
  unfold bandwidthLeft energyLeft remainingWindow
  dsimp only
  rcases le_or_gt f.window 0 with hw | hw
  · rw [if_pos hw, if_pos hw]
  rw [if_neg (not_le.mpr hw), if_neg (not_le.mpr hw)]
  rcases h with hle | hp | hpassed
  · omega
  · rw [if_neg (by simp [hp])]
  · -- nothing is left in either unit
    have hd : f.window.tdiv 1000 = f.window / 1000 := Int.tdiv_eq_ediv_of_nonneg (le_of_lt hw)
    rw [hd]
    unfold saturate i64Min i64Max at *
    split <;> omega

/-- Both ways of counting find the same left of an owner's window exactly where it is counted
alike. -/
theorem owner_left_eq_iff {f : UsageFields} {now : Int} (h : f.latestSlot ≤ now)
    (hi : f.window ≤ i64Max) :
    bandwidthLeft.owner f now = energyLeft.owner f now ↔ f.CountedAlike now := by
  refine ⟨fun heq => ?_, UsageFields.CountedAlike.left_eq⟩
  unfold bandwidthLeft energyLeft remainingWindow at heq
  dsimp only at heq
  unfold UsageFields.CountedAlike
  rcases le_or_gt f.window 0 with hw | hw
  · exact .inl hw
  cases hp : f.precise with
  | false => exact .inr (.inl rfl)
  | true =>
    refine .inr (.inr ?_)
    have hd : f.window.tdiv 1000 = f.window / 1000 := Int.tdiv_eq_ediv_of_nonneg (le_of_lt hw)
    rw [if_neg (not_le.mpr hw), if_neg (not_le.mpr hw), hp, if_pos rfl, hd] at heq
    unfold saturate i64Min i64Max at *
    omega

namespace Undelegation

variable (u : Undelegation)

/-- Where usage goes back to the owner, its weighted window comes out the same, although the two
windows it is weighted of may differ: the weighting is rounded and cut to the standard window. -/
def RoundsAlike : Prop :=
  ∀ receiver owner transfer combined,
    u.usages = some (receiver, owner, transfer, combined) → 0 < transfer →
      u.ownerWindow bandwidthLeft owner transfer combined =
        u.ownerWindow energyLeft owner transfer combined

/-- Where the two ways of counting make no difference: the receiver holds too little; or its
window is as whole for bandwidth as for energy, and the window of the owner is counted alike or
rounded alike. -/
def Alike : Prop :=
  u.acquired < u.balance ∨
    (u.receiver.Whole u.nowSlot ∧ (u.owner.CountedAlike u.nowSlot ∨ u.RoundsAlike))

/-- A receiver that holds too little gives nothing back. -/
theorem transfer_eq_zero {receiver owner transfer combined : Int}
    (hu : u.usages = some (receiver, owner, transfer, combined)) (ha : u.acquired < u.balance) :
    transfer = 0 := by
  simp only [usages, Undelegation.transfer, ha, if_true, Option.bind_eq_bind,
    Option.bind_eq_some_iff, Option.bind_some, gt_iff_lt, lt_irrefl, if_false, Option.pure_def,
    Option.some.injEq, Prod.mk.injEq] at hu
  obtain ⟨_, -, _, -, -, -, rfl, -⟩ := hu
  rfl

theorem latestSlot_le {receiver owner transfer combined : Int}
    (hu : u.usages = some (receiver, owner, transfer, combined)) :
    u.receiver.latestSlot ≤ u.nowSlot := by
  obtain ⟨usage, hr, -⟩ := Option.bind_eq_some_iff.mp hu
  exact UsageFields.latestSlot_le hr

theorem settled_of_usages {receiver owner transfer combined : Int}
    (hu : u.usages = some (receiver, owner, transfer, combined)) (ha : ¬ u.acquired < u.balance)
    (left : WindowsLeft) : u.settled left =
      (preciseWindow u.precise (left.receiver u.receiver u.nowSlot)).toOption.bind fun window =>
        if transfer > 0 then
          (preciseWindow u.precise (u.ownerWindow left owner transfer combined)).toOption.bind
            fun ownerWindow =>
              some (⟨combined, u.nowSlot, ownerWindow, u.precise || u.owner.precise⟩,
                ⟨saturate (receiver - transfer), u.nowSlot, window,
                  u.precise || u.receiver.precise⟩)
        else some ({ u.owner with usage := owner },
          ⟨saturate (receiver - transfer), u.nowSlot, window,
            u.precise || u.receiver.precise⟩) := by
  rw [settled, hu]
  simp only [Option.bind_eq_bind, Option.bind_some, ha, if_false]
  rfl

/-- The windows that a settlement leaves, where something is given back. -/
theorem windows_of_settled {receiver owner transfer combined : Int}
    (hu : u.usages = some (receiver, owner, transfer, combined)) (ha : ¬ u.acquired < u.balance)
    {left : WindowsLeft} {x : UsageFields × UsageFields} (h : u.settled left = some x) :
    preciseWindow u.precise (left.receiver u.receiver u.nowSlot) = .ok x.2.window ∧
      (0 < transfer →
        preciseWindow u.precise (u.ownerWindow left owner transfer combined) =
          .ok x.1.window) := by
  rw [u.settled_of_usages hu ha, Option.bind_eq_some_iff] at h
  obtain ⟨window, hw, h⟩ := h
  rw [toOption_eq_some_iff] at hw
  split at h
  · rw [Option.bind_eq_some_iff] at h
    obtain ⟨ownerWindow, ho, h⟩ := h
    cases h
    exact ⟨hw, fun _ => toOption_eq_some_iff.mp ho⟩
  · next ht =>
    cases h
    exact ⟨hw, fun hp => absurd hp ht⟩

theorem preciseWindow_inj {precise : Bool} {a b x : Int} (ha : preciseWindow precise a = .ok x)
    (hb : preciseWindow precise b = .ok x) : a = b := by
  cases precise with
  | false => exact (Except.ok.inj ha).trans (Except.ok.inj hb).symm
  | true =>
    obtain ⟨-, hx⟩ := checkedMul_eq_ok_iff.mp ha
    obtain ⟨-, hy⟩ := checkedMul_eq_ok_iff.mp hb
    omega

/-- The two settlements agree where the windows do, if one of them succeeds. -/
theorem settled_eq_iff (hs : (u.settled energyLeft).isSome ∨ (u.settled bandwidthLeft).isSome) :
    u.settled energyLeft = u.settled bandwidthLeft ↔ u.Alike := by
  cases hu : u.usages with
  | none =>
    have hn : ∀ left, u.settled left = none := fun left => by
      rw [settled, hu]
      rfl
    rw [hn, hn] at hs
    rcases hs with hs | hs <;> cases hs
  | some usages =>
  obtain ⟨receiver, owner, transfer, combined⟩ := usages
  by_cases ha : u.acquired < u.balance
  · have ht := u.transfer_eq_zero hu ha
    subst ht
    refine ⟨fun _ => .inl ha, fun _ => ?_⟩
    rw [settled, settled, hu]
    simp only [ha, if_true, Option.bind_eq_bind, Option.bind_some, gt_iff_lt, lt_irrefl, if_false]
  have hl := u.latestSlot_le hu
  constructor
  · intro heq
    cases hx : u.settled bandwidthLeft with
    | none =>
      rw [heq, hx] at hs
      rcases hs with hs | hs <;> cases hs
    | some x =>
    obtain ⟨hr, ho⟩ := u.windows_of_settled hu ha hx
    obtain ⟨hr', ho'⟩ := u.windows_of_settled hu ha (heq.trans hx)
    refine .inr ⟨(receiver_left_eq_iff hl).mp (preciseWindow_inj hr hr'), .inr ?_⟩
    intro _ _ _ _ hu' ht
    cases hu.symm.trans hu'
    exact preciseWindow_inj (ho ht) (ho' ht)
  · rintro (hlt | ⟨hr, ho⟩)
    · exact absurd hlt ha
    · rw [u.settled_of_usages hu ha, u.settled_of_usages hu ha, (receiver_left_eq_iff hl).mpr hr]
      by_cases ht : transfer > 0
      · have hwe : u.ownerWindow bandwidthLeft owner transfer combined =
            u.ownerWindow energyLeft owner transfer combined := by
          rcases ho with hc | hround
          · rw [ownerWindow, ownerWindow, hc.left_eq, (receiver_left_eq_iff hl).mpr hr]
          · exact hround _ _ _ _ hu ht
        rw [hwe]
      · simp only [ht, if_false]

end Undelegation

/-- **Energy and bandwidth are settled alike** exactly where the windows that are left come out the
same: for every two pairs of accounts, on any two states, whose fields are equal. -/
theorem settlements_agree_iff {w w' : World} {owner owner' receiver receiver' : Account}
    {balance nowSlot : Int} {precise : Bool} {u : Undelegation}
    (he : undelegationOf .energy w owner receiver balance nowSlot precise = u)
    (hb : undelegationOf .bandwidth w' owner' receiver' balance nowSlot precise = u)
    (hs : (settledFields .energy w owner receiver balance nowSlot precise).isSome ∨
      (settledFields .bandwidth w' owner' receiver' balance nowSlot precise).isSome) :
    settledFields .energy w owner receiver balance nowSlot precise =
        settledFields .bandwidth w' owner' receiver' balance nowSlot precise ↔ u.Alike := by
  rw [settledFields_energy, settledFields_bandwidth, he, hb] at *
  exact u.settled_eq_iff hs

namespace SettlementSample

/-- An account that used as much energy as bandwidth a hundred slots ago. -/
def member (acquired : Int) : Account :=
  { address := 0x41 :: List.replicate 20 1
    netUsage := 1000
    latestConsumeTime := 900
    netWindowSize := 28800
    acquiredDelegatedFrozenV2BalanceForBandwidth := acquired
    accountResource := some
      { energyUsage := 1000
        latestConsumeTimeForEnergy := 900
        energyWindowSize := 28800
        acquiredDelegatedFrozenV2BalanceForEnergy := acquired } }

/-- The limits and weights of both resources are the same. -/
def state : World :=
  { dynamicProperties :=
      ((((∅ : FMap Property Bytes).insert .totalNetLimit (be64 43200000000)).insert
        .totalEnergyCurrentLimit (be64 43200000000)).insert .totalNetWeight (be64 10)).insert
          .totalEnergyWeight (be64 10) }

end SettlementSample

open SettlementSample in
/-- Ten TRX are returned: bandwidth leaves the receiver the 28700 slots that have not passed, energy
all of its window. -/
theorem settlements_differ :
    undelegationOf .energy state (member 0) (member 10000000) 10000000 1000 false =
        undelegationOf .bandwidth state (member 0) (member 10000000) 10000000 1000 false ∧
      settledFields .energy state (member 0) (member 10000000) 10000000 1000 false ≠
        settledFields .bandwidth state (member 0) (member 10000000) 10000000 1000 false := by
  refine ⟨rfl, ?_⟩
  decide

open SettlementSample in
/-- In the slot of the last use nothing of a window has passed: usage goes back to the owner, and
both resources are settled alike. -/
theorem settlements_agree_sample :
    (undelegationOf .energy state (member 0) (member 10000000) 10000000 900 false).usages =
        some (1000, 1000, 1000, 2000) ∧
      settledFields .energy state (member 0) (member 10000000) 10000000 900 false =
        settledFields .bandwidth state (member 0) (member 10000000) 10000000 900 false :=
  ⟨by decide, (settlements_agree_iff rfl rfl (.inl (by decide))).mpr
    (.inr ⟨.inr ⟨rfl, rfl, by decide, by decide⟩, .inl (.inr (.inl rfl))⟩)⟩

end RustTron.Actuator
