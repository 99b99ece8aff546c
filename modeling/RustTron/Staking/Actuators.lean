import RustTron.Staking.Resources

/-!
# The staking actuators

Freezing, unfreezing and delegating, in both generations, as `validate` and `execute_in` of their
actuators. An actuator that fails leaves nothing behind, so `execute` is `validate` followed by
`execute_in`, and gives a state only when both succeed.

## Main definitions

* `FreezeBalance`, `UnfreezeBalance`: the legacy contracts, with and without a receiver
* `FreezeBalanceV2`, `UnfreezeBalanceV2`, `WithdrawExpireUnfreeze`, `CancelAllUnfreezeV2`:
  staking and unstaking with a delay
* `DelegateResource`, `UnDelegateResource`: lending staked resources, locked or not
* `Operation`, `Operation.execute`: the eight of them
-/

namespace RustTron.Actuator

/-- `ActuatorResult`, as far as staking fills it in. -/
structure ActuatorResult where
  unfreezeAmount : Int := 0
  withdrawExpireAmount : Int := 0
  cancelUnfreezeV2Amount : List (String × Int) := []

/-! ## Staking with a delay -/

/-- `FreezeBalanceV2Contract`. -/
structure FreezeBalanceV2 where
  ownerAddress : Bytes
  frozenBalance : Int
  resource : Int

def FreezeBalanceV2.validate (c : FreezeBalanceV2) (w : World) : Outcome Unit := do
  let days ← dynamicLong w .unfreezeDelayDays
  refuseIf (days ≤ 0) "Not support FreezeV2 transaction, need to be opened by the committee"
  let owner ← validateOwnerNotExists w c.ownerAddress
  refuseIf (c.frozenBalance ≤ 0) "frozenBalance must be positive"
  refuseIf (c.frozenBalance < trxPrecision) "frozenBalance must be greater than or equal to 1 TRX"
  refuseIf (c.frozenBalance > owner.balance)
    "frozenBalance must be less than or equal to accountBalance"
  let _ ← strictResource c.resource (enabled w .allowNewResourceModel)

def FreezeBalanceV2.executeIn (c : FreezeBalanceV2) (w : World) :
    Outcome (World × ActuatorResult) := do
  let owner ← account w c.ownerAddress
  let owner ← initializeOldTronPower owner (enabled w .allowNewResourceModel)
  let kind ← Actuator.resource c.resource
  let old ← weightBalance owner kind
  let owner ← addFrozenV2 owner kind c.frozenBalance
  let balance ← checkedSub owner.balance c.frozenBalance
  let owner := { owner with balance }
  let new ← weightBalance owner kind
  let w ← changeWeight w kind old new
  pure (save w owner, {})

/-- The unstaked amounts whose time has come. -/
def expiredAmount (now : Int) (items : List UnFreezeV2) : Int :=
  wrap ((items.filter fun item => item.unfreezeExpireTime ≤ now).map UnFreezeV2.unfreezeAmount).sum

/-- The unstaked amounts whose time has not come. -/
def pendingItems (now : Int) (items : List UnFreezeV2) : List UnFreezeV2 :=
  items.filter fun item => ¬ item.unfreezeExpireTime ≤ now

/-- `UnfreezeBalanceV2Contract`. -/
structure UnfreezeBalanceV2 where
  ownerAddress : Bytes
  unfreezeBalance : Int
  resource : Int

def UnfreezeBalanceV2.validate (c : UnfreezeBalanceV2) (w : World) : Outcome Unit := do
  let days ← dynamicLong w .unfreezeDelayDays
  refuseIf (days ≤ 0) "Not support UnfreezeV2 transaction, need to be opened by the committee"
  let owner ← validateOwner w c.ownerAddress
  let kind ← strictResource c.resource (enabled w .allowNewResourceModel)
  refuseIf (frozenV2 owner kind ≤ 0) ("no frozenBalance(" ++
    (match kind with | .bandwidth => "BANDWIDTH" | .energy => "Energy" | .tronPower => "TronPower") ++
    ")")
  refuseIf (c.unfreezeBalance ≤ 0 ∨ c.unfreezeBalance > frozenV2 owner kind)
    ("Invalid unfreeze_balance, [" ++ toString c.unfreezeBalance ++ "] is error")
  let now ← dynamicLong w .latestBlockHeaderTimestamp
  refuseIf ((pendingItems now owner.unfrozenV2).length ≥ 32)
    "Invalid unfreeze operation, unfreezing times is over limit"

/-- The votes of the owner after it has unstaked: gone or scaled down. -/
def UnfreezeBalanceV2.followVotes (cfg : ExecutionConfig) (w : World) (owner : Account)
    (kind : ResourceCode) (newModel : Bool) (oldVotePower : Int) : Outcome (World × Account) :=
  if newModel ∧ owner.oldTronPower ≠ -1 then
    let (w, owner) := clearVotes w owner
    pure (w, { owner with oldTronPower := -1 })
  else if ¬ newModel then scaleLegacyVotes cfg w owner oldVotePower
  else if kind = .tronPower then pure (clearVotes w owner)
  else pure (w, owner)

def UnfreezeBalanceV2.executeIn (cfg : ExecutionConfig) (c : UnfreezeBalanceV2) (w : World) :
    Outcome (World × ActuatorResult) := do
  let w ← withdrawReward cfg w c.ownerAddress
  let owner ← account w c.ownerAddress
  let now ← dynamicLong w .latestBlockHeaderTimestamp
  let expired := expiredAmount now owner.unfrozenV2
  let balance ← checkedAdd owner.balance expired
  let owner := { owner with unfrozenV2 := pendingItems now owner.unfrozenV2, balance }
  let newModel := enabled w .allowNewResourceModel
  let owner ← initializeOldTronPower owner newModel
  let kind ← Actuator.resource c.resource
  let old ← weightBalance owner kind
  let oldVotePower ← (if newModel then pure 0 else legacyVotePower owner)
  let owner ← addFrozenV2 owner kind (-c.unfreezeBalance)
  let new ← weightBalance owner kind
  let w ← changeWeight w kind old new
  let days ← dynamicLong w .unfreezeDelayDays
  let delay ← checkedMul days dayMs
  let expire ← checkedAdd now delay
  let owner := { owner with
    unfrozenV2 := owner.unfrozenV2 ++ [⟨kind.toI32, c.unfreezeBalance, expire⟩] }
  let (w, owner) ← UnfreezeBalanceV2.followVotes cfg w owner kind newModel oldVotePower
  pure (save w owner, { withdrawExpireAmount := expired })

/-- `WithdrawExpireUnfreezeContract`. -/
structure WithdrawExpireUnfreeze where
  ownerAddress : Bytes

def WithdrawExpireUnfreeze.validate (c : WithdrawExpireUnfreeze) (w : World) : Outcome Unit := do
  let days ← dynamicLong w .unfreezeDelayDays
  refuseIf (days ≤ 0)
    "Not support WithdrawExpireUnfreeze transaction, need to be opened by the committee"
  let owner ← validateOwnerNotExists w c.ownerAddress
  let now ← dynamicLong w .latestBlockHeaderTimestamp
  refuseIf (¬ owner.unfrozenV2.any fun item =>
    item.unfreezeExpireTime ≤ now ∧ item.unfreezeAmount > 0) "no unFreeze balance to withdraw "

def WithdrawExpireUnfreeze.executeIn (c : WithdrawExpireUnfreeze) (w : World) :
    Outcome (World × ActuatorResult) := do
  let owner ← account w c.ownerAddress
  let now ← dynamicLong w .latestBlockHeaderTimestamp
  let amount := expiredAmount now owner.unfrozenV2
  let balance ← checkedAdd owner.balance amount
  let owner := { owner with unfrozenV2 := pendingItems now owner.unfrozenV2, balance }
  pure (save w owner, { withdrawExpireAmount := amount })

/-- `CancelAllUnfreezeV2Contract`. -/
structure CancelAllUnfreezeV2 where
  ownerAddress : Bytes

def CancelAllUnfreezeV2.validate (c : CancelAllUnfreezeV2) (w : World) : Outcome Unit := do
  refuseIf (¬ enabled w .allowCancelAllUnfreezeV2)
    "Not support CancelAllUnfreezeV2 transaction, need to be opened by the committee"
  let owner ← validateOwnerNotExists w c.ownerAddress
  refuseIf (owner.unfrozenV2 = []) "No unfreezeV2 list to cancel"

/-- What the cancelling loop carries: the stores, the owner, and the sums it reports. -/
structure Cancelling where
  world : World
  owner : Account
  expired : Int := 0
  cancelled : ResourceCode → Int := fun _ => 0

/-- One turn of the cancelling loop. -/
def Cancelling.step (now : Int) (s : Cancelling) (item : UnFreezeV2) : Outcome Cancelling :=
  if item.unfreezeExpireTime ≤ now then do
    let balance ← checkedAdd s.owner.balance item.unfreezeAmount
    let expired ← checkedAdd s.expired item.unfreezeAmount
    pure { s with owner := { s.owner with balance }, expired }
  else do
    let kind ← strictResource item.type true
    let old ← weightBalance s.owner kind
    let owner ← addFrozenV2 s.owner kind item.unfreezeAmount
    let new ← weightBalance owner kind
    let world ← changeWeight s.world kind old new
    let amount ← checkedAdd (s.cancelled kind) item.unfreezeAmount
    pure { s with world, owner, cancelled := Function.update s.cancelled kind amount }

def CancelAllUnfreezeV2.executeIn (c : CancelAllUnfreezeV2) (w : World) :
    Outcome (World × ActuatorResult) := do
  let owner ← account w c.ownerAddress
  let now ← dynamicLong w .latestBlockHeaderTimestamp
  let done ← owner.unfrozenV2.foldlM (Cancelling.step now)
    { world := w, owner := { owner with unfrozenV2 := [] } }
  pure (save done.world done.owner, {
    withdrawExpireAmount := done.expired,
    cancelUnfreezeV2Amount := [ResourceCode.bandwidth, .energy, .tronPower].map fun kind =>
      (kind.asStrName, done.cancelled kind) })

/-! ## Delegation -/

/-- `DelegateResourceContract`. -/
structure DelegateResource where
  ownerAddress : Bytes
  resource : Int
  balance : Int
  receiverAddress : Bytes
  lock : Bool
  lockPeriod : Int

/-- The part of the stake of an account that its recent usage keeps it from delegating. -/
def weightedUsage (cfg : ExecutionConfig) (w : World) (owner : Account) :
    ResourceCode → Outcome Int
  | .bandwidth => do
    let weight ← dynamicLong w .totalNetWeight
    let limit ← dynamicLong w .totalNetLimit
    let usage := saturate (usageBalance cfg owner.netUsage weight limit -
      wrap (owner.frozen.map Frozen.frozenBalance).sum)
    pure (max (saturate (saturate (usage - owner.acquiredDelegatedFrozenBalanceForBandwidth) -
      owner.acquiredDelegatedFrozenV2BalanceForBandwidth)) 0)
  | .energy => do
    let weight ← dynamicLong w .totalEnergyWeight
    let limit ← dynamicLong w .totalEnergyCurrentLimit
    let usage := saturate (usageBalance cfg owner.resource.energyUsage weight limit -
      (owner.resource.frozenBalanceForEnergy.map Frozen.frozenBalance).getD 0)
    pure (max (saturate (saturate (usage -
      owner.resource.acquiredDelegatedFrozenBalanceForEnergy) -
      owner.resource.acquiredDelegatedFrozenV2BalanceForEnergy)) 0)
  | .tronPower => pure 0

def supportsMaximum (w : World) : Outcome Bool :=
  if (w.dynamicProperties.lookup .maxDelegateLockPeriod).isSome then do
    let days ← dynamicLong w .unfreezeDelayDays
    pure (decide (days > 0))
  else pure false

/-- The number of slots a delegation is locked for. -/
def DelegateResource.period (c : DelegateResource) (supportsMaximum : Bool) : Int :=
  if supportsMaximum ∧ c.lockPeriod ≠ 0 then c.lockPeriod else defaultDelegateLockSlots

/-- The time a delegation is locked until. -/
def DelegateResource.expire (c : DelegateResource) (supportsMaximum : Bool) (now : Int) :
    Outcome Int :=
  if c.lock then do
    let length ← checkedMul (c.period supportsMaximum) blockMs
    checkedAdd now length
  else pure 0

/-- The checks of a locked delegation. -/
def DelegateResource.validateLock (c : DelegateResource) (w : World) (kind : ResourceCode) :
    Outcome Unit := do
  let supports ← supportsMaximum w
  let maximum := ((w.dynamicProperties.lookup .maxDelegateLockPeriod).bind fromBe64).getD
    defaultDelegateLockSlots
  let period := c.period supports
  refuseIf (supports ∧ (period < 0 ∨ period > maximum))
    ("The lock period of delegate resource cannot be less than 0 and cannot exceed " ++
      toString maximum ++ "!")
  match w.delegatedResources.lookup (resourceV2Key c.ownerAddress c.receiverAddress true) with
  | none => pure ()
  | some existing =>
    let name := if kind = .bandwidth then "BANDWIDTH" else "ENERGY"
    let expire := if kind = .bandwidth then existing.expireTimeForBandwidth
      else existing.expireTimeForEnergy
    let now ← dynamicLong w .latestBlockHeaderTimestamp
    let length ← checkedMul period blockMs
    refuseIf (length < wrap (expire - now))
      ("The lock period for " ++ name ++ " this time cannot be less than the remaining time[" ++
        toString (wrap (expire - now)) ++ "ms] of the last lock period for " ++ name ++ "!")

def DelegateResource.validate (cfg : ExecutionConfig) (c : DelegateResource) (w : World) :
    Outcome Unit := do
  refuseIf (¬ enabled w .allowDelegateResource) "No support for resource delegate"
  let days ← dynamicLong w .unfreezeDelayDays
  refuseIf (days ≤ 0)
    "Not support Delegate resource transaction, need to be opened by the committee"
  let owner ← validateOwnerNotExists w c.ownerAddress
  refuseIf (c.balance < trxPrecision) "delegateBalance must be greater than or equal to 1 TRX"
  let kind ← strictResource c.resource false
  let usage ← weightedUsage cfg w owner kind
  refuseIf (c.balance > saturate (frozenV2 owner kind - usage))
    ("delegateBalance must be less than or equal to available Freeze" ++
      (if kind = .bandwidth then "Bandwidth" else "Energy") ++ "V2 balance")
  refuseIf (¬ validAddress c.receiverAddress) "Invalid receiverAddress"
  refuseIf (c.ownerAddress = c.receiverAddress)
    "receiverAddress must not be the same as ownerAddress"
  let receiver ← account w c.receiverAddress
  refuseIf (receiver.type = .contract) "Do not allow delegate resources to contract addresses"
  if c.lock then c.validateLock w kind else pure ()

def DelegateResource.executeIn (c : DelegateResource) (w : World) :
    Outcome (World × ActuatorResult) := do
  let now ← dynamicLong w .latestBlockHeaderTimestamp
  let w ← unlockExpired w c.ownerAddress c.receiverAddress now
  let kind ← Actuator.resource c.resource
  let key := resourceV2Key c.ownerAddress c.receiverAddress c.lock
  let record := delegated w key c.ownerAddress c.receiverAddress
  let supports ← supportsMaximum w
  let expire ← c.expire supports now
  let owner ← account w c.ownerAddress
  let receiver ← account w c.receiverAddress
  let owner ← addFrozenV2 owner kind (-c.balance)
  let lent ← checkedAdd (delegatedV2 owner kind) c.balance
  let acquired ← checkedAdd (acquiredV2 receiver kind) c.balance
  let amount ← checkedAdd (rowAmount record kind) c.balance
  let owner := setDelegatedV2 owner kind lent
  let receiver := setAcquiredV2 receiver kind acquired
  let w := putDelegated w key (setRow record kind amount expire)
  let w := { w with
    accountIndexes := putPair w.accountIndexes (v2FromIndexKey owner.address receiver.address)
      (v2ToIndexKey receiver.address owner.address) owner.address receiver.address now }
  pure (save (save w owner) receiver, {})

/-- `UnDelegateResourceContract`. -/
structure UnDelegateResource where
  ownerAddress : Bytes
  resource : Int
  balance : Int
  receiverAddress : Bytes

def UnDelegateResource.validate (c : UnDelegateResource) (w : World) : Outcome Unit := do
  refuseIf (¬ enabled w .allowDelegateResource) "No support for resource delegate"
  let days ← dynamicLong w .unfreezeDelayDays
  refuseIf (days ≤ 0)
    "Not support unDelegate resource transaction, need to be opened by the committee"
  let _ ← validateOwner w c.ownerAddress
  refuseIf (¬ validAddress c.receiverAddress) "Invalid receiverAddress"
  refuseIf (c.ownerAddress = c.receiverAddress)
    "receiverAddress must not be the same as ownerAddress"
  refuseIf (c.balance ≤ 0) "unDelegateBalance must be more than 0 TRX"
  let kind ← strictResource c.resource false
  let now ← dynamicLong w .latestBlockHeaderTimestamp
  let unlocked := w.delegatedResources.lookup (resourceV2Key c.ownerAddress c.receiverAddress false)
  let locked := w.delegatedResources.lookup (resourceV2Key c.ownerAddress c.receiverAddress true)
  refuseIf (unlocked = none ∧ locked = none) "delegated Resource does not exist"
  let balance := (unlocked.map (rowAmount · kind)).getD 0
  let balance ← (match locked with
    | some row =>
      if rowExpire row kind < now then checkedAdd balance (rowAmount row kind) else pure balance
    | none => pure balance)
  refuseIf (balance < c.balance) ((if kind = .bandwidth then
      "insufficient delegatedFrozenBalance(BANDWIDTH), request="
    else "insufficient delegateFrozenBalance(Energy), request=") ++ toString c.balance ++
      ", unlock_balance=" ++ toString balance)

/-- The usage that goes back to the owner with the stake, and the receiver's stake after it. -/
def returnedUsage (w : World) (receiver : Account) (kind : ResourceCode) (usage balance : Int)
    (limit weight : Property) : Outcome (Account × Int) :=
  let acquired := acquiredV2 receiver kind
  if acquired < balance then pure (setAcquiredV2 receiver kind 0, 0)
  else do
    let staked ← checkedAdd (frozenV2 receiver kind) (delegatedV2 receiver kind)
    let allFrozen ← checkedAdd staked acquired
    let limit ← dynamicLong w limit
    let weight ← dynamicLong w weight
    let left ← checkedSub acquired balance
    pure (setAcquiredV2 receiver kind left,
      min (usageLimit balance limit weight) (proportionalUsage usage balance allFrozen))

/-- The window of one account in thousandths of a slot, when windows are precise. -/
def preciseWindow (precise : Bool) (window : Int) : Outcome Int :=
  if precise then checkedMul window 1000 else pure window

/-- The bandwidth part of `UnDelegateResourceActuator::execute_in`, with a receiver. -/
def settleBandwidth (w : World) (owner receiver : Account) (balance nowSlot : Int)
    (precise : Bool) : Outcome (Account × Account) := do
  let ownerRemaining := remainingWindow owner.latestConsumeTime owner.netWindowSize
    owner.netWindowOptimized nowSlot
  let receiverRemaining := remainingWindow receiver.latestConsumeTime receiver.netWindowSize
    receiver.netWindowOptimized nowSlot
  let receiverUsage ← recoveredUsage receiver.netUsage receiver.latestConsumeTime
    receiver.netWindowSize receiver.netWindowOptimized nowSlot
  let ownerUsage ← recoveredUsage owner.netUsage owner.latestConsumeTime owner.netWindowSize
    owner.netWindowOptimized nowSlot
  let acquired := acquiredV2 receiver .bandwidth
  let (receiver, transfer) ← returnedUsage w receiver .bandwidth receiverUsage balance
    .totalNetLimit .totalNetWeight
  let combined ← (if transfer > 0 then checkedAdd ownerUsage transfer else pure ownerUsage)
  let receiverWindow ← preciseWindow precise (if acquired < balance then 28800 else receiverRemaining)
  let receiver := { receiver with
    netUsage := saturate (receiverUsage - transfer)
    latestConsumeTime := nowSlot
    netWindowSize := receiverWindow
    netWindowOptimized := precise || receiver.netWindowOptimized }
  if transfer > 0 then
    let window ← preciseWindow precise
      (weightedWindow ownerUsage ownerRemaining transfer receiverRemaining combined)
    pure ({ owner with
      netUsage := combined
      latestConsumeTime := nowSlot
      netWindowSize := window
      netWindowOptimized := precise || owner.netWindowOptimized }, receiver)
  else pure ({ owner with netUsage := ownerUsage }, receiver)

/-- The energy part of `UnDelegateResourceActuator::execute_in`, with a receiver. -/
def settleEnergy (w : World) (owner receiver : Account) (balance nowSlot : Int)
    (precise : Bool) : Outcome (Account × Account) := do
  let ownerRes := owner.resource
  let receiverRes := receiver.resource
  let receiverUsage ← recoveredUsage receiverRes.energyUsage receiverRes.latestConsumeTimeForEnergy
    receiverRes.energyWindowSize receiverRes.energyWindowOptimized nowSlot
  let ownerUsage ← recoveredUsage ownerRes.energyUsage ownerRes.latestConsumeTimeForEnergy
    ownerRes.energyWindowSize ownerRes.energyWindowOptimized nowSlot
  let acquired := acquiredV2 receiver .energy
  let (receiver, transfer) ← returnedUsage w receiver .energy receiverUsage balance
    .totalEnergyCurrentLimit .totalEnergyWeight
  let receiverRemaining := if acquired < balance then 28800
    else max (max receiverRes.energyWindowSize
      (wrap (28800 - saturate (nowSlot - receiverRes.latestConsumeTimeForEnergy)))) 0
  let combined ← (if transfer > 0 then checkedAdd ownerUsage transfer else pure ownerUsage)
  let receiverWindow ← preciseWindow precise receiverRemaining
  let receiver := { receiver with accountResource := some { receiver.resource with
    energyUsage := saturate (receiverUsage - transfer)
    latestConsumeTimeForEnergy := nowSlot
    energyWindowSize := receiverWindow
    energyWindowOptimized := precise || receiver.resource.energyWindowOptimized } }
  if transfer > 0 then
    let ownerRemaining := max (saturate ((if ownerRes.energyWindowSize ≤ 0 then 28800
      else ownerRes.energyWindowSize) -
        saturate (nowSlot - ownerRes.latestConsumeTimeForEnergy))) 0
    let window ← preciseWindow precise
      (weightedWindow ownerUsage ownerRemaining transfer receiverRemaining combined)
    pure ({ owner with accountResource := some { ownerRes with
      energyUsage := combined
      latestConsumeTimeForEnergy := nowSlot
      energyWindowSize := window
      energyWindowOptimized := precise || ownerRes.energyWindowOptimized } }, receiver)
  else pure ({ owner with accountResource := some { ownerRes with energyUsage := ownerUsage } },
    receiver)

/-- The usage part of `UnDelegateResourceActuator::execute_in`; a receiver that is gone has none. -/
def settle (kind : ResourceCode) (w : World) (owner : Account) (receiver : Option Account)
    (balance nowSlot : Int) (precise : Bool) : Outcome (Account × Option Account) :=
  match receiver with
  | none => pure (owner, none)
  | some receiver => do
    let (owner, receiver) ←
      (if kind = .bandwidth then settleBandwidth w owner receiver balance nowSlot precise
      else settleEnergy w owner receiver balance nowSlot precise)
    pure (owner, some receiver)

/-- The unlocked row with the expired part of the locked one, and the stores with what is left of
the locked one; and whether a row was deleted from or moved to. -/
def unlockRow (w : World) (owner receiver : Bytes) (now : Int) :
    Outcome (World × DelegatedResource × Bool) :=
  let key := resourceV2Key owner receiver false
  let lockedKey := resourceV2Key owner receiver true
  let existed := (w.delegatedResources.lookup key).isSome
  let record := delegated w key owner receiver
  match w.delegatedResources.lookup lockedKey with
  | none => pure (w, record, existed)
  | some locked => do
    let expired := fun kind => decide (rowAmount locked kind > 0 ∧ rowExpire locked kind < now)
    let (locked, record) ← moveExpired expired locked record
    pure (putOrDelete w lockedKey locked, record,
      existed || expired .bandwidth || expired .energy)

/-- The unlocked row put back, or deleted when it holds nothing, and with it the indexes of the
pair when no locked row is left. -/
def closeRow (w : World) (owner receiver : Bytes) (record : DelegatedResource) (existed : Bool) :
    World :=
  let key := resourceV2Key owner receiver false
  if rowEmpty record then
    let w := if existed then deleteDelegated w key else w
    if (w.delegatedResources.lookup (resourceV2Key owner receiver true)).isNone then
      { w with accountIndexes := removeV2Indexes w.accountIndexes owner receiver }
    else w
  else putDelegated w key record

def UnDelegateResource.executeIn (c : UnDelegateResource) (w : World) :
    Outcome (World × ActuatorResult) := do
  let now ← dynamicLong w .latestBlockHeaderTimestamp
  let precise := enabled w .allowCancelAllUnfreezeV2
  let kind ← Actuator.resource c.resource
  let (w, record, existed) ← unlockRow w c.ownerAddress c.receiverAddress now
  let owner ← account w c.ownerAddress
  let receiver := w.accounts.get c.receiverAddress
  let owner ← addFrozenV2 owner kind c.balance
  let lent ← checkedSub (delegatedV2 owner kind) c.balance
  let owner := setDelegatedV2 owner kind lent
  let amount ← checkedSub (rowAmount record kind) c.balance
  let record := setRow record kind amount (rowExpire record kind)
  let (owner, receiver) ← settle kind w owner receiver c.balance (now.tdiv blockMs) precise
  let w := save (closeRow w c.ownerAddress c.receiverAddress record existed) owner
  pure (match receiver with
    | some receiver => save w receiver
    | none => w, {})

/-! ## The legacy contracts -/

/-- `FreezeBalanceContract`. -/
structure FreezeBalance where
  ownerAddress : Bytes
  frozenBalance : Int
  frozenDuration : Int
  resource : Int
  receiverAddress : Bytes

/-- A legacy contract lends to its receiver. -/
def receiverPresent (w : World) (receiver : Bytes) : Bool :=
  receiver ≠ [] ∧ enabled w .allowDelegateResource

/-- The checks of `FreezeBalanceActuator::validate` for a receiver. -/
def FreezeBalance.validateReceiver (c : FreezeBalance) (w : World) : Outcome Unit := do
  refuseIf (c.receiverAddress = c.ownerAddress)
    "receiverAddress must not be the same as ownerAddress"
  refuseIf (¬ validAddress c.receiverAddress) "Invalid receiverAddress"
  let receiver ← account w c.receiverAddress
  refuseIf (enabled w .allowTvmConstantinople ∧ receiver.type = .contract)
    "Do not allow delegate resources to contract addresses"

def FreezeBalance.validate (c : FreezeBalance) (w : World) : Outcome Unit := do
  let owner ← validateOwnerNotExists w c.ownerAddress
  refuseIf (c.frozenBalance ≤ 0) "frozenBalance must be positive"
  refuseIf (c.frozenBalance < trxPrecision) "frozenBalance must be greater than or equal to 1 TRX"
  refuseIf (owner.frozen.length > 1) "frozenCount must be 0 or 1"
  refuseIf (c.frozenBalance > owner.balance)
    "frozenBalance must be less than or equal to accountBalance"
  let kind ← strictResource c.resource (enabled w .allowNewResourceModel)
  refuseIf (kind = .tronPower ∧ c.receiverAddress ≠ [])
    "TRON_POWER is not allowed to delegate to other accounts."
  (if receiverPresent w c.receiverAddress then c.validateReceiver w else pure ())
  let minimum ← dynamicInt w .minFrozenTime
  let maximum ← dynamicInt w .maxFrozenTime
  refuseIf (c.frozenDuration < minimum ∨ c.frozenDuration > maximum)
    ("frozenDuration must be less than " ++ toString maximum ++ " days and more than " ++
      toString minimum ++ " days")
  refuseIf (longOr w .unfreezeDelayDays 0 > 0) "freeze v2 is open, old freeze is closed"

/-- List `address` once. -/
def addOnce (address : Bytes) (addresses : List Bytes) : List Bytes :=
  if address ∈ addresses then addresses else addresses ++ [address]

/-- The index of a legacy delegation: rows of its own, or the lists of the two accounts. -/
def FreezeBalance.putIndexes (optimized : Bool) (s : Indexes) (owner receiver : Bytes) (now : Int) :
    Indexes :=
  if optimized then
    putPair (convertIndexes (convertIndexes s owner) receiver) (fromIndexKey owner receiver)
      (toIndexKey receiver owner) owner receiver now
  else
    let ownerIndex := index s owner
    let receiverIndex := index s receiver
    (s.insert owner
      { ownerIndex with toAccounts := addOnce receiver ownerIndex.toAccounts }).insert receiver
      { receiverIndex with fromAccounts := addOnce owner receiverIndex.fromAccounts }

/-- The stake of a legacy contract without a receiver. -/
def addLegacy (a : Account) (kind : ResourceCode) (amount expire : Int) : Outcome Account := do
  let balance ← checkedAdd (legacyResourceBalance a kind) amount
  let frozen : Frozen := ⟨balance, expire⟩
  pure (match kind with
    | .bandwidth => { a with frozen := [frozen] }
    | .energy => { a with
        accountResource := some { a.resource with frozenBalanceForEnergy := some frozen } }
    | .tronPower => { a with tronPower := some frozen })

/-- The part of `FreezeBalanceActuator::execute_in` for a receiver. -/
def FreezeBalance.lend (c : FreezeBalance) (w : World) (owner : Account) (kind : ResourceCode)
    (now expire : Int) : Outcome (World × Account) := do
  let key := legacyResourceKey owner.address c.receiverAddress
  let record := delegated w key owner.address c.receiverAddress
  let receiver ← account w c.receiverAddress
  let lent ← checkedAdd (delegatedLegacy owner kind) c.frozenBalance
  let acquired ← checkedAdd (acquiredLegacy receiver kind) c.frozenBalance
  let amount ← checkedAdd (rowAmount record kind) c.frozenBalance
  let w := putDelegated w key (setRow record kind amount expire)
  let w := { w with
    accountIndexes := FreezeBalance.putIndexes (enabled w .allowDelegateOptimization)
      w.accountIndexes owner.address receiver.address now }
  pure (save w (setAcquiredLegacy receiver kind acquired), setDelegatedLegacy owner kind lent)

def FreezeBalance.executeIn (c : FreezeBalance) (w : World) : Outcome (World × ActuatorResult) := do
  let owner ← account w c.ownerAddress
  let owner ← initializeOldTronPower owner (enabled w .allowNewResourceModel)
  let now ← dynamicLong w .latestBlockHeaderTimestamp
  let duration ← checkedMul c.frozenDuration dayMs
  let expire ← checkedAdd now duration
  let kind ← Actuator.resource c.resource
  let old := legacyResourceBalance owner kind
  let (w, owner) ← (if receiverPresent w c.receiverAddress then c.lend w owner kind now expire
    else do
      let owner ← addLegacy owner kind c.frozenBalance expire
      pure (w, owner))
  let balance ← checkedSub owner.balance c.frozenBalance
  let owner := { owner with balance }
  let w ← changeLegacyWeight w kind old (legacyResourceBalance owner kind) c.frozenBalance
  pure (save w owner, {})

/-- `UnfreezeBalanceContract`. -/
structure UnfreezeBalance where
  ownerAddress : Bytes
  resource : Int
  receiverAddress : Bytes

/-- The amount and the expiry of a delegated stake; for every resource but bandwidth, those of
energy. -/
def lentAmount (row : DelegatedResource) (kind : ResourceCode) : Int × Int :=
  if kind = .bandwidth then (row.frozenBalanceForBandwidth, row.expireTimeForBandwidth)
  else (row.frozenBalanceForEnergy, row.expireTimeForEnergy)

/-- The checks of `UnfreezeBalanceActuator::validate` for a receiver. -/
def UnfreezeBalance.validateReceiver (c : UnfreezeBalance) (w : World) (kind : ResourceCode)
    (now : Int) : Outcome Unit := do
  refuseIf (¬ validAddress c.receiverAddress ∨ c.receiverAddress = c.ownerAddress)
    "Invalid receiverAddress"
  let receiver := w.accounts.get c.receiverAddress
  let constantinople := enabled w .allowTvmConstantinople
  refuseIf (receiver = none ∧ ¬ constantinople)
    ("Receiver Account[" ++ hex c.receiverAddress ++ "] does not exist")
  match w.delegatedResources.lookup (legacyResourceKey c.ownerAddress c.receiverAddress) with
  | none => throw (.validation "delegated Resource does not exist")
  | some record =>
    let (amount, expire) := lentAmount record kind
    let enforceAcquired := ¬ constantinople ∨ (¬ enabled w .allowTvmSolidity059 ∧
      (receiver.map fun a => decide (a.type ≠ .contract)).getD false)
    let acquired := (receiver.map (acquiredLegacy · kind)).getD 0
    refuseIf (enforceAcquired ∧ acquired < amount) (if kind = .bandwidth then
        "AcquiredDelegatedFrozenBalanceForBandwidth[" ++ toString acquired ++
          "] < delegatedBandwidth[" ++ toString amount ++ "]"
      else "AcquiredDelegatedFrozenBalanceForEnergy[" ++ toString acquired ++
        "] < delegatedEnergy[" ++ toString amount ++ "]")
    refuseIf (expire > now) "It's not time to unfreeze."

/-- The legacy stake of an account that `UnfreezeBalance` looks at. -/
def legacyFrozen (a : Account) : ResourceCode → Option Frozen
  | .bandwidth => a.frozen.head?
  | .energy => a.resource.frozenBalanceForEnergy
  | .tronPower => a.tronPower

def UnfreezeBalance.validate (c : UnfreezeBalance) (w : World) : Outcome Unit := do
  let owner ← validateOwner w c.ownerAddress
  let kind ← strictResource c.resource (enabled w .allowNewResourceModel)
  let now ← dynamicLong w .latestBlockHeaderTimestamp
  if receiverPresent w c.receiverAddress then c.validateReceiver w kind now
  else
    match legacyFrozen owner kind with
    | none => throw (.validation ("no frozenBalance(" ++ kind.asStrName ++ ")"))
    | some frozen => refuseIf (frozen.expireTime > now) (match kind with
        | .bandwidth => "It's not time to unfreeze(BANDWIDTH)."
        | .energy => "It's not time to unfreeze(Energy)."
        | .tronPower => "It's not time to unfreeze(TronPower).")

/-- The resource that `UnfreezeBalance` takes back from a receiver: energy, whenever it is not
bandwidth. -/
def lentKind (kind : ResourceCode) : ResourceCode := if kind = .bandwidth then .bandwidth else .energy

/-- The part of `UnfreezeBalanceActuator::execute_in` for a receiver: the stores, the owner and
the amount that comes back. -/
def UnfreezeBalance.takeBack (c : UnfreezeBalance) (w : World) (owner : Account)
    (kind : ResourceCode) : Outcome (World × Account × Int) := do
  let lent := lentKind kind
  let key := legacyResourceKey owner.address c.receiverAddress
  let record := delegated w key owner.address c.receiverAddress
  let receiver := w.accounts.get c.receiverAddress
  let value := rowAmount record lent
  let left ← checkedSub (delegatedLegacy owner lent) value
  let owner := setDelegatedLegacy owner lent left
  let record := setRow record lent 0 (rowExpire record lent)
  let w := if rowEmpty record then
      { deleteDelegated w key with
        accountIndexes := removeIndexes w.accountIndexes owner.address c.receiverAddress }
    else putDelegated w key record
  pure (match receiver with
    | some receiver => save w (setAcquiredLegacy receiver lent
        (max (saturate (acquiredLegacy receiver lent - value)) 0))
    | none => w, owner, value)

/-- The legacy stake of an account that is free at `now`, and the account without it. -/
def releaseLegacy (a : Account) (kind : ResourceCode) (now : Int) : Account × Int :=
  match kind with
  | .bandwidth =>
    ({ a with frozen := a.frozen.filter fun item => ¬ item.expireTime ≤ now },
      wrap ((a.frozen.filter fun item => item.expireTime ≤ now).map Frozen.frozenBalance).sum)
  | .energy =>
    ({ a with accountResource := some { a.resource with frozenBalanceForEnergy := none } },
      (a.resource.frozenBalanceForEnergy.map Frozen.frozenBalance).getD 0)
  | .tronPower => ({ a with tronPower := none }, (a.tronPower.map Frozen.frozenBalance).getD 0)

/-- The votes of the owner after it has unfrozen. -/
def UnfreezeBalance.followVotes (w : World) (owner : Account) (kind : ResourceCode)
    (newModel : Bool) : World × Account :=
  let clear := ¬ newModel ∨ owner.oldTronPower ≠ -1 ∨ kind = .tronPower
  let (w, owner) := if clear then clearVotesForce w owner else (w, owner)
  (w, if newModel ∧ owner.oldTronPower ≠ -1 then { owner with oldTronPower := -1 } else owner)

def UnfreezeBalance.executeIn (cfg : ExecutionConfig) (c : UnfreezeBalance) (w : World) :
    Outcome (World × ActuatorResult) := do
  let w ← withdrawReward cfg w c.ownerAddress
  let owner ← account w c.ownerAddress
  let newModel := enabled w .allowNewResourceModel
  let owner ← initializeOldTronPower owner newModel
  let kind ← Actuator.resource c.resource
  let old := legacyResourceBalance owner kind
  let now ← dynamicLong w .latestBlockHeaderTimestamp
  let delegatedUnfreeze := receiverPresent w c.receiverAddress
  let (w, owner, amount) ← (if delegatedUnfreeze then c.takeBack w owner kind
    else
      let (owner, amount) := releaseLegacy owner kind now
      pure (w, owner, amount))
  let balance ← checkedAdd owner.balance amount
  let owner := { owner with balance }
  let w ← (if delegatedUnfreeze then changeLegacyWeight w kind amount 0 (wrap (-amount))
    else changeLegacyWeight w kind old (legacyResourceBalance owner kind) (wrap (-amount)))
  let (w, owner) := UnfreezeBalance.followVotes w owner kind newModel
  pure (save w owner, { unfreezeAmount := amount })

/-! ## Operations -/

/-- The staking contracts. -/
inductive Operation where
  | freezeBalance (c : FreezeBalance)
  | unfreezeBalance (c : UnfreezeBalance)
  | freezeBalanceV2 (c : FreezeBalanceV2)
  | unfreezeBalanceV2 (c : UnfreezeBalanceV2)
  | delegateResource (c : DelegateResource)
  | unDelegateResource (c : UnDelegateResource)
  | cancelAllUnfreezeV2 (c : CancelAllUnfreezeV2)
  | withdrawExpireUnfreeze (c : WithdrawExpireUnfreeze)

namespace Operation

def validate (cfg : ExecutionConfig) (w : World) : Operation → Outcome Unit
  | freezeBalance c => c.validate w
  | unfreezeBalance c => c.validate w
  | freezeBalanceV2 c => c.validate w
  | unfreezeBalanceV2 c => c.validate w
  | delegateResource c => c.validate cfg w
  | unDelegateResource c => c.validate w
  | cancelAllUnfreezeV2 c => c.validate w
  | withdrawExpireUnfreeze c => c.validate w

def executeIn (cfg : ExecutionConfig) (w : World) : Operation → Outcome (World × ActuatorResult)
  | freezeBalance c => c.executeIn w
  | unfreezeBalance c => c.executeIn cfg w
  | freezeBalanceV2 c => c.executeIn w
  | unfreezeBalanceV2 c => c.executeIn cfg w
  | delegateResource c => c.executeIn w
  | unDelegateResource c => c.executeIn w
  | cancelAllUnfreezeV2 c => c.executeIn w
  | withdrawExpireUnfreeze c => c.executeIn w

/-- `Actuator::execute`: the state after it, when it succeeds. -/
def execute (cfg : ExecutionConfig) (w : World) (op : Operation) :
    Outcome (World × ActuatorResult) := do
  op.validate cfg w
  op.executeIn cfg w

end Operation

end RustTron.Actuator
