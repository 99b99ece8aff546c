import RustTron.Staking.Context

/-!
# Stake, votes and delegations of an account

The helper functions of the resource actuators: what an account has staked in each of its places,
the total weight of a resource, the votes that follow the stake, and the rows and indexes of
delegated stake.

## Main definitions

* `frozenV2`, `addFrozenV2`, `weightBalance`, `legacyResourceBalance`: the stake of an account
* `changeWeight`, `changeLegacyWeight`: the total weight of a resource
* `clearVotes`, `scaleLegacyVotes`, `clearVotesForce`: votes that follow the stake
* `delegated`, `removeIndexes`, `convertIndexes`, `unlockExpired`: delegation rows and indexes
* `ResourceWindow.recover`: the usage that is left of a window
-/

namespace RustTron.Actuator

def dayMs : Int := 86400000

def blockMs : Int := 3000

def defaultDelegateLockSlots : Int := (3 * dayMs).tdiv blockMs

/-! ## Resource codes and owners -/

def resource (value : Int) : Outcome ResourceCode :=
  match ResourceCode.ofI32? value with
  | some kind => .ok kind
  | none => .error (.validation "ResourceCode error")

def strictResource (value : Int) (allowTronPower : Bool) : Outcome ResourceCode := do
  let kind ← resource value
  if kind = .bandwidth ∨ kind = .energy ∨ (allowTronPower ∧ kind = .tronPower) then pure kind
  else
    throw (.validation (if allowTronPower then
      "ResourceCode error, valid ResourceCode[BANDWIDTH、ENERGY、TRON_POWER]"
    else "ResourceCode error, valid ResourceCode[BANDWIDTH、ENERGY]"))

/-- An owner that must have a valid address and exist, with the end of the message of a missing
one. -/
def ownerOr (ending : String) (w : World) (address : Bytes) : Outcome Account := do
  refuseIf (¬ validAddress address) "Invalid address"
  match w.accounts.get address with
  | some a => pure a
  | none => throw (.validation ("Account[" ++ hex address ++ ending))

def validateOwner : World → Bytes → Outcome Account := ownerOr "] does not exist"

def validateOwnerNotExists : World → Bytes → Outcome Account := ownerOr "] not exists"

/-! ## The stake of an account -/

/-- `frozen_v2`: the first entry of the resource. -/
def frozenV2 (a : Account) (kind : ResourceCode) : Int :=
  ((a.frozenV2.find? fun item => item.type = kind.toI32).map FreezeV2.amount).getD 0

/-- The loop of `add_frozen_v2`: the first entry of the resource grows, or a new one is added. -/
def addFrozenV2Items (kind : ResourceCode) (delta : Int) : List FreezeV2 → Outcome (List FreezeV2)
  | [] => pure [⟨kind.toI32, delta⟩]
  | item :: items =>
    if item.type = kind.toI32 then do
      let amount ← checkedAdd item.amount delta
      pure ({ item with amount } :: items)
    else do
      let items ← addFrozenV2Items kind delta items
      pure (item :: items)

def addFrozenV2 (a : Account) (kind : ResourceCode) (delta : Int) : Outcome Account := do
  let frozenV2 ← addFrozenV2Items kind delta a.frozenV2
  pure { a with frozenV2 }

def delegatedV2 (a : Account) : ResourceCode → Int
  | .bandwidth => a.delegatedFrozenV2BalanceForBandwidth
  | .energy => a.resource.delegatedFrozenV2BalanceForEnergy
  | .tronPower => 0

/-- `delegated_v2`, written. -/
def setDelegatedV2 (a : Account) (kind : ResourceCode) (value : Int) : Account :=
  match kind with
  | .bandwidth => { a with delegatedFrozenV2BalanceForBandwidth := value }
  | .energy => { a with
      accountResource := some { a.resource with delegatedFrozenV2BalanceForEnergy := value } }
  | .tronPower => a

/-- The stake that others have delegated to an account. -/
def acquiredV2 (a : Account) : ResourceCode → Int
  | .bandwidth => a.acquiredDelegatedFrozenV2BalanceForBandwidth
  | .energy => a.resource.acquiredDelegatedFrozenV2BalanceForEnergy
  | .tronPower => 0

/-- `acquired_v2`, written. -/
def setAcquiredV2 (a : Account) (kind : ResourceCode) (value : Int) : Account :=
  match kind with
  | .bandwidth => { a with acquiredDelegatedFrozenV2BalanceForBandwidth := value }
  | .energy => { a with
      accountResource := some { a.resource with acquiredDelegatedFrozenV2BalanceForEnergy := value } }
  | .tronPower => a

/-- The stake that an account has delegated by the legacy contracts. -/
def delegatedLegacy (a : Account) : ResourceCode → Int
  | .bandwidth => a.delegatedFrozenBalanceForBandwidth
  | .energy => a.resource.delegatedFrozenBalanceForEnergy
  | .tronPower => 0

/-- `delegated_legacy`, written. -/
def setDelegatedLegacy (a : Account) (kind : ResourceCode) (value : Int) : Account :=
  match kind with
  | .bandwidth => { a with delegatedFrozenBalanceForBandwidth := value }
  | .energy => { a with
      accountResource := some { a.resource with delegatedFrozenBalanceForEnergy := value } }
  | .tronPower => a

/-- The stake that others have delegated to an account by the legacy contracts. -/
def acquiredLegacy (a : Account) : ResourceCode → Int
  | .bandwidth => a.acquiredDelegatedFrozenBalanceForBandwidth
  | .energy => a.resource.acquiredDelegatedFrozenBalanceForEnergy
  | .tronPower => 0

/-- `acquired_legacy`, written. -/
def setAcquiredLegacy (a : Account) (kind : ResourceCode) (value : Int) : Account :=
  match kind with
  | .bandwidth => { a with acquiredDelegatedFrozenBalanceForBandwidth := value }
  | .energy => { a with
      accountResource := some { a.resource with acquiredDelegatedFrozenBalanceForEnergy := value } }
  | .tronPower => a

def legacyResourceBalance (a : Account) : ResourceCode → Int
  | .bandwidth => wrap (a.frozen.map Frozen.frozenBalance).sum
  | .energy => (a.resource.frozenBalanceForEnergy.map Frozen.frozenBalance).getD 0
  | .tronPower => (a.tronPower.map Frozen.frozenBalance).getD 0

def weightBalance (a : Account) (kind : ResourceCode) : Outcome Int :=
  checkedAdd (frozenV2 a kind) (delegatedV2 a kind)

/-! ## Total weights -/

def weightName : ResourceCode → Property
  | .bandwidth => .totalNetWeight
  | .energy => .totalEnergyWeight
  | .tronPower => .totalTronPowerWeight

/-- The property of a total weight moved by `delta`. -/
def addWeight (w : World) (kind : ResourceCode) (delta : Int) : Outcome World := do
  let current ← dynamicLong w (weightName kind)
  let next ← checkedAdd current delta
  pure (putDynamicLong w (weightName kind) next)

def changeWeight (w : World) (kind : ResourceCode) (old new : Int) : Outcome World :=
  addWeight w kind (new.tdiv trxPrecision - old.tdiv trxPrecision)

def changeLegacyWeight (w : World) (kind : ResourceCode) (old new amount : Int) : Outcome World :=
  addWeight w kind
    (if enabled w .allowNewReward then new.tdiv trxPrecision - old.tdiv trxPrecision
    else if amount ≥ 0 then amount.tdiv trxPrecision
    else -((wrap (-amount)).tdiv trxPrecision))

/-! ## Voting power and votes -/

def legacyPower (a : Account) : Outcome Int := do
  let bandwidth ← checkedSum (a.frozen.map Frozen.frozenBalance)
  let energy := (a.resource.frozenBalanceForEnergy.map Frozen.frozenBalance).getD 0
  checkedSum [bandwidth, energy, a.delegatedFrozenBalanceForBandwidth,
    a.resource.delegatedFrozenBalanceForEnergy]

def legacyVotePower (a : Account) : Outcome Int := do
  let legacy ← legacyPower a
  let staked ← checkedSum
    ((a.frozenV2.filter fun item => item.type ≠ ResourceCode.tronPower.toI32).map FreezeV2.amount)
  let delegated ← checkedAdd a.delegatedFrozenV2BalanceForBandwidth
    a.resource.delegatedFrozenV2BalanceForEnergy
  let v2 ← checkedAdd staked delegated
  checkedAdd legacy v2

def initializeOldTronPower (a : Account) (newModel : Bool) : Outcome Account :=
  if newModel ∧ a.oldTronPower = 0 then do
    let power ← legacyVotePower a
    pure { a with oldTronPower := if power = 0 then -1 else power }
  else pure a

/-- The row of vote changes of an account: the stored one, or one that starts at its votes. -/
def votesRow (w : World) (a : Account) : Votes :=
  (w.votes.lookup a.address).getD ⟨a.address, a.votes, []⟩

/-- Give an account the votes `votes`, and record the change. -/
def recordVotes (w : World) (a : Account) (votes : List Vote) : World × Account :=
  ({ w with votes := w.votes.insert a.address { votesRow w a with newVotes := votes } },
    { a with votes })

def clearVotesForce (w : World) (a : Account) : World × Account := recordVotes w a []

def clearVotes (w : World) (a : Account) : World × Account :=
  if a.votes = [] then (w, a) else recordVotes w a []

def scaleLegacyVotes (cfg : ExecutionConfig) (w : World) (a : Account) (oldPower : Int) :
    Outcome (World × Account) :=
  if a.votes = [] then pure (w, a)
  else do
    let totalVotes ← checkedSum (a.votes.map Vote.voteCount)
    let remainingPower ← legacyVotePower a
    if totalVotes = 0 then pure (w, a)
    else do
      let needed ← checkedMul totalVotes trxPrecision
      if remainingPower ≥ needed then pure (w, a)
      else
        pure (recordVotes w a (a.votes.filterMap fun vote =>
          let count := cfg.float.scaleVote vote.voteCount remainingPower oldPower
          if count > 0 then some { vote with voteCount := count } else none))

/-! ## Delegation rows -/

/-- `FROM_PREFIX` and its siblings. -/
def prefixedPair (tag : UInt8) (first second : Bytes) : Bytes := tag :: (first ++ second)

def legacyResourceKey (sender receiver : Bytes) : Bytes := sender ++ receiver

def resourceV2Key (sender receiver : Bytes) (locked : Bool) : Bytes :=
  prefixedPair (if locked then 2 else 1) sender receiver

def fromIndexKey (sender receiver : Bytes) : Bytes := prefixedPair 1 sender receiver

def toIndexKey (receiver sender : Bytes) : Bytes := prefixedPair 2 receiver sender

def v2FromIndexKey (sender receiver : Bytes) : Bytes := prefixedPair 3 sender receiver

def v2ToIndexKey (receiver sender : Bytes) : Bytes := prefixedPair 4 receiver sender

/-- The amount of a resource in a delegation row. -/
def rowAmount (row : DelegatedResource) : ResourceCode → Int
  | .bandwidth => row.frozenBalanceForBandwidth
  | .energy => row.frozenBalanceForEnergy
  | .tronPower => 0

/-- The expiry of a resource in a delegation row. -/
def rowExpire (row : DelegatedResource) : ResourceCode → Int
  | .bandwidth => row.expireTimeForBandwidth
  | .energy => row.expireTimeForEnergy
  | .tronPower => 0

/-- The amount and the expiry of a resource in a delegation row, written. -/
def setRow (row : DelegatedResource) (kind : ResourceCode) (amount expire : Int) :
    DelegatedResource :=
  match kind with
  | .bandwidth =>
    { row with frozenBalanceForBandwidth := amount, expireTimeForBandwidth := expire }
  | .energy => { row with frozenBalanceForEnergy := amount, expireTimeForEnergy := expire }
  | .tronPower => row

/-- A delegation row holds nothing. -/
def rowEmpty (row : DelegatedResource) : Prop :=
  row.frozenBalanceForBandwidth = 0 ∧ row.frozenBalanceForEnergy = 0

instance (row : DelegatedResource) : Decidable (rowEmpty row) :=
  inferInstanceAs (Decidable (_ ∧ _))

def delegated (w : World) (key sender receiver : Bytes) : DelegatedResource :=
  (w.delegatedResources.lookup key).getD { sender, receiver }

/-- Put a delegation row. -/
def putDelegated (w : World) (key : Bytes) (row : DelegatedResource) : World :=
  { w with delegatedResources := w.delegatedResources.insert key row }

/-- Delete a delegation row. -/
def deleteDelegated (w : World) (key : Bytes) : World :=
  { w with delegatedResources := w.delegatedResources.erase key }

/-- Put a delegation row, or delete it when it holds nothing. -/
def putOrDelete (w : World) (key : Bytes) (row : DelegatedResource) : World :=
  if rowEmpty row then deleteDelegated w key else putDelegated w key row

/-- Move the expired amounts of a locked row to the unlocked one; `expired` says which. -/
def moveExpired (expired : ResourceCode → Bool) (locked unlocked : DelegatedResource) :
    Outcome (DelegatedResource × DelegatedResource) := do
  let bandwidth ←
    (if expired .bandwidth then
      checkedAdd unlocked.frozenBalanceForBandwidth locked.frozenBalanceForBandwidth
    else pure unlocked.frozenBalanceForBandwidth)
  let energy ←
    (if expired .energy then
      checkedAdd unlocked.frozenBalanceForEnergy locked.frozenBalanceForEnergy
    else pure unlocked.frozenBalanceForEnergy)
  let locked := if expired .bandwidth then setRow locked .bandwidth 0 0 else locked
  let locked := if expired .energy then setRow locked .energy 0 0 else locked
  pure (locked, { unlocked with
    frozenBalanceForBandwidth := bandwidth, frozenBalanceForEnergy := energy })

def unlockExpired (w : World) (owner receiver : Bytes) (now : Int) : Outcome World :=
  let lockedKey := resourceV2Key owner receiver true
  match w.delegatedResources.lookup lockedKey with
  | none => pure w
  | some locked =>
    let expired := fun kind => decide (rowExpire locked kind < now)
    if ¬ expired .energy ∧ ¬ expired .bandwidth then pure w
    else do
      let unlockedKey := resourceV2Key owner receiver false
      let (locked, unlocked) ← moveExpired expired locked (delegated w unlockedKey owner receiver)
      pure (putOrDelete (putDelegated w unlockedKey unlocked) lockedKey locked)

/-! ## Delegation indexes -/

/-- The store of delegation indexes. -/
abbrev Indexes := FMap Bytes DelegatedResourceAccountIndex

def index (s : Indexes) (address : Bytes) : DelegatedResourceAccountIndex :=
  (s.lookup address).getD { account := address }

/-- Change an index row that exists. -/
def updateIndex (s : Indexes) (key : Bytes)
    (f : DelegatedResourceAccountIndex → DelegatedResourceAccountIndex) : Indexes :=
  match s.lookup key with
  | some row => s.insert key (f row)
  | none => s

def removeIndexes (s : Indexes) (owner receiver : Bytes) : Indexes :=
  updateIndex
    (updateIndex s owner fun row =>
      { row with toAccounts := row.toAccounts.filter (· ≠ receiver) })
    receiver fun row => { row with fromAccounts := row.fromAccounts.filter (· ≠ owner) }

def removeV2Indexes (s : Indexes) (owner receiver : Bytes) : Indexes :=
  (s.erase (v2FromIndexKey owner receiver)).erase (v2ToIndexKey receiver owner)

/-- The rows that list the pair from `sender` to `receiver`, one for each side. -/
def putPair (s : Indexes) (fromKey toKey sender receiver : Bytes) (timestamp : Int) : Indexes :=
  (s.insert fromKey { account := receiver, timestamp }).insert toKey { account := sender, timestamp }

/-- The accounts that `address` lends to, from the position `offset` on, written as rows of their
own. -/
def convertTo (address : Bytes) : Indexes → Nat → List Bytes → Indexes
  | s, _, [] => s
  | s, offset, receiver :: rest =>
    convertTo address (putPair s (fromIndexKey address receiver) (toIndexKey receiver address)
      address receiver (offset + 1)) (offset + 1) rest

/-- The accounts that lend to `address`, written as rows of their own. -/
def convertFrom (address : Bytes) : Indexes → Nat → List Bytes → Indexes
  | s, _, [] => s
  | s, offset, sender :: rest =>
    convertFrom address ((s.insert (toIndexKey address sender)
      { account := sender, timestamp := offset + 1 }).insert (fromIndexKey sender address)
      { account := address, timestamp := offset + 1 }) (offset + 1) rest

/-- `convert_indexes`, with the mutations of `legacy_index_conversion` in their order. -/
def convertIndexes (s : Indexes) (address : Bytes) : Indexes :=
  match s.lookup address with
  | none => s
  | some row =>
    (convertFrom address (convertTo address s 0 row.toAccounts) 0 row.fromAccounts).erase address

/-! ## Usage windows -/

/-- `ResourceError`, as far as a window gives one. -/
inductive ResourceError where
  | nonPositiveWindow
  | timeReversal (last now : Int)
  | negativeAmount (amount : Int)
  | overflow
  deriving DecidableEq, Repr

/-- The text of a resource error. -/
def ResourceError.message : ResourceError → String
  | nonPositiveWindow => "resource arithmetic error: NonPositiveWindow"
  | timeReversal last now => "resource arithmetic error: TimeReversal \x7b last: " ++ toString last ++
      ", now: " ++ toString now ++ " \x7d"
  | negativeAmount amount =>
    "resource arithmetic error: NegativeAmount(" ++ toString amount ++ ")"
  | overflow => "resource arithmetic error: Overflow"

def resourcePrecision : Int := 1000000

def windowSizePrecision : Int := 1000

structure ResourceWindow where
  usage : Int
  latestSlot : Int
  window : Int
  precise : Bool
  standardWindow : Int

def ceilDiv (value divisor : Int) : Int :=
  value.tdiv divisor + if value.tmod divisor > 0 then 1 else 0

def javaRoundRatio (value numerator denominator : Int) : Int :=
  let scaled := value * numerator
  scaled / denominator + if scaled % denominator * 2 ≥ denominator then 1 else 0

def i64Exact (value : Int) : Except ResourceError Int :=
  if InI64 value then .ok value else .error .overflow

namespace ResourceWindow

def windowSlots (r : ResourceWindow) : Except ResourceError Int :=
  if r.standardWindow ≤ 0 then .error .nonPositiveWindow
  else if r.window = 0 ∨ (r.precise ∧ r.window < windowSizePrecision) then .ok r.standardWindow
  else if r.window < 0 then .error .nonPositiveWindow
  else .ok (if r.precise then r.window.tdiv windowSizePrecision else r.window)

def recover (r : ResourceWindow) (now : Int) : Except ResourceError Int := do
  let window ← r.windowSlots
  if now < r.latestSlot then throw (.timeReversal r.latestSlot now)
  else
    let delta := wrap (now - r.latestSlot)
    if delta ≥ window then pure 0
    else
      let average := ceilDiv (r.usage * resourcePrecision) window
      let decayed := javaRoundRatio average (window - delta) window
      i64Exact ((decayed * window).tdiv resourcePrecision)

end ResourceWindow

def usageLimit (balance limit weight : Int) : Int :=
  if balance ≤ 0 ∨ limit ≤ 0 ∨ weight ≤ 0 then 0
  else min ((balance * limit).tdiv (trxPrecision * weight)) i64Max

def proportionalUsage (usage balance allFrozen : Int) : Int :=
  if usage ≤ 0 ∨ balance ≤ 0 ∨ allFrozen ≤ 0 then 0
  else min ((usage * balance).tdiv allFrozen) i64Max

def usageBalance (cfg : ExecutionConfig) (usage weight limit : Int) : Int :=
  if usage ≤ 0 ∨ weight ≤ 0 ∨ limit ≤ 0 then 0 else max (cfg.float.usageBalance usage weight limit) 0

def recoveredUsage (usage latestSlot window : Int) (precise : Bool) (now : Int) : Outcome Int :=
  match (ResourceWindow.mk usage latestSlot window precise 28800).recover now with
  | .ok value => .ok value
  | .error e => .error (.arithmetic e.message)

def remainingWindow (latestSlot window : Int) (precise : Bool) (now : Int) : Int :=
  let slots := if window ≤ 0 then 28800 else if precise then window.tdiv 1000 else window
  max (saturate (slots - saturate (now - latestSlot))) 0

def weightedWindow (leftUsage leftWindow rightUsage rightWindow totalUsage : Int) : Int :=
  if totalUsage ≤ 0 then 28800
  else max 0 (min 28800 ((leftUsage * leftWindow + rightUsage * rightWindow).tdiv totalUsage))

end RustTron.Actuator
