import RustTron.Library.Rows
import RustTron.Tvm.Staking

/-!
# Votes and maintenance

`VoteWitness` replaces the votes of an account and records the change in the votes store. A
maintenance round takes the recorded changes into the vote counts of the witnesses, elects the
active ones and empties the store.

## Main definitions

* `VoteWitness.validate`, `VoteWitness.executeIn`: the actuator
* `removeGenesisVotes`, `collectDeltas`, `applyDeltas`: the parts of `do_maintenance` that count
* `sortWitnesses`, `payLegacyStandby`: the election
* `doMaintenance`: a maintenance round
-/

namespace RustTron.Actuator

/-! ## `VoteWitness` -/

def maxVoteNumber : Nat := 30

/-- `legacy_power` of the voting actuator. -/
def votingPower (a : Account) : Outcome Int := do
  let frozen ← checkedSum (a.frozen.map Frozen.frozenBalance)
  let energy := (a.resource.frozenBalanceForEnergy.map Frozen.frozenBalance).getD 0
  let staked ← checkedSum
    ((a.frozenV2.filter fun item => item.type ≠ ResourceCode.tronPower.toI32).map FreezeV2.amount)
  checkedSum [frozen, energy, a.delegatedFrozenBalanceForBandwidth,
    a.resource.delegatedFrozenBalanceForEnergy, staked, a.delegatedFrozenV2BalanceForBandwidth,
    a.resource.delegatedFrozenV2BalanceForEnergy]

def tronPowerFrozen (a : Account) : Outcome Int := do
  let v2 ← checkedSum
    ((a.frozenV2.filter fun item => item.type = ResourceCode.tronPower.toI32).map FreezeV2.amount)
  checkedAdd ((a.tronPower.map Frozen.frozenBalance).getD 0) v2

def allPower (a : Account) : Outcome Int := do
  let dedicated ← tronPowerFrozen a
  if a.oldTronPower = -1 then pure dedicated
  else if a.oldTronPower = 0 then do
    let legacy ← votingPower a
    checkedAdd legacy dedicated
  else checkedAdd a.oldTronPower dedicated

/-- `VoteWitnessContract`. -/
structure VoteWitness where
  ownerAddress : Bytes
  votes : List Vote

/-- The checks of each vote, with the sum of the votes so far. -/
def validateVotes (w : World) : Int → List Vote → Outcome Int
  | sum, [] => pure sum
  | sum, vote :: votes => do
    refuseIf (¬ validAddress vote.voteAddress) "Invalid vote address!"
    refuseIf (vote.voteCount ≤ 0) "vote count must be greater than 0"
    refuseIf (w.accounts.get vote.voteAddress = none)
      ("Account[" ++ hex vote.voteAddress ++ "] not exists")
    refuseIf (w.witnesses.lookup vote.voteAddress = none)
      ("Witness[" ++ hex vote.voteAddress ++ "] not exists")
    let sum ← checkedAdd sum vote.voteCount
    validateVotes w sum votes

def VoteWitness.validate (c : VoteWitness) (w : World) : Outcome Unit := do
  refuseIf (¬ validAddress c.ownerAddress) "Invalid address"
  refuseIf (c.votes = []) "VoteNumber must more than 0"
  refuseIf (c.votes.length > maxVoteNumber)
    ("VoteNumber more than maxVoteNumber " ++ toString maxVoteNumber)
  let sum ← validateVotes w 0 c.votes
  let owner ← account w c.ownerAddress
  let newModel ← dynamicLong w .allowNewResourceModel
  let power ← (if newModel = 1 then allPower owner else votingPower owner)
  let votes ← checkedMul sum trxPrecision
  refuseIf (votes > power) ("The total number of votes[" ++ toString votes ++
    "] is greater than the tronPower[" ++ toString power ++ "]")

def VoteWitness.executeIn (cfg : ExecutionConfig) (c : VoteWitness) (w : World) :
    Outcome World := do
  let w ← withdrawReward cfg w c.ownerAddress
  let owner ← account w c.ownerAddress
  let newModel ← dynamicLong w .allowNewResourceModel
  let owner ← (if newModel = 1 ∧ owner.oldTronPower = 0 then do
      let power ← votingPower owner
      pure { owner with oldTronPower := if power = 0 then -1 else power }
    else pure owner)
  let (w, owner) := recordVotes w owner c.votes
  pure (save w owner)

/-- `VoteWitnessActuator`, with its checks. -/
def VoteWitness.execute (cfg : ExecutionConfig) (c : VoteWitness) (w : World) : Outcome World := do
  c.validate w
  c.executeIn cfg w

end RustTron.Actuator

namespace RustTron.Consensus

open Actuator (wrap)

/-! ## Errors -/

/-- `StateError`, as far as the hooks of a block give one. -/
inductive StateError where
  | arithmeticOverflow (what : String)
  | missingDynamic (name : String)
  | invalidDynamic (name : String) (actual : Nat)
  | invalidSchedule (actual : Nat)
  | missingWitnessAccount (address : Bytes)
  | missingAccount (address : Bytes)
  | missingActiveWitness (address : Bytes)
  deriving DecidableEq, Repr

/-- `Display` of `StateError`. -/
def StateError.toText (error : StateError) : String :=
  "consensus state error: " ++
    match error with
    | arithmeticOverflow what => s!"ArithmeticOverflow(\"{what}\")"
    | missingDynamic name => s!"MissingDynamic(\"{name}\")"
    | invalidDynamic name actual =>
      s!"InvalidDynamic \x7b name: \"{name}\", expected: 8, actual: {actual} \x7d"
    | invalidSchedule actual =>
      "InvalidSchedule(InvalidLength \x7b kind: \"witness address\", expected: \"21 bytes\", " ++
        s!"actual: {actual} \x7d)"
    | missingWitnessAccount address => missing "Account" address "missing witness account"
    | missingAccount address => missing "Account" address "missing account"
    | missingActiveWitness address => missing "Witness" address "missing active witness"
where
  /-- `InvalidProtobuf`, of a row that is not there. -/
  missing (store : String) (address : Bytes) (source : String) : String :=
    s!"InvalidProtobuf \x7b store: {store}, key: [" ++
      String.intercalate ", " (address.map fun b => toString b.toNat) ++
      s!"], source: \"{source}\" \x7d"

/-- `checked_add`, with the error of the place it stands at. -/
def addOr (what : String) (x y : Int) : Except StateError Int :=
  if InI64 (x + y) then .ok (x + y) else .error (.arithmeticOverflow what)

/-- `checked_sub`, with the error of the place it stands at. -/
def subOr (what : String) (x y : Int) : Except StateError Int :=
  if InI64 (x - y) then .ok (x - y) else .error (.arithmeticOverflow what)

def dynamicLong (w : World) (p : Property) : Except StateError Int :=
  match w.dynamicProperties.lookup p with
  | none => .error (.missingDynamic p.name)
  | some bytes =>
    match fromBe64 bytes with
    | some value => .ok value
    | none => .error (.invalidDynamic p.name bytes.length)

/-- `dynamic_long`, with `unwrap_or`. -/
def longOr (w : World) (p : Property) (default : Int) : Int :=
  match dynamicLong w p with
  | .ok value => value
  | .error _ => default

def saveDynamicLong (w : World) (p : Property) (value : Int) : World :=
  { w with dynamicProperties := w.dynamicProperties.insert p (be64 value) }

/-! ## Counting -/

/-- `MaintenanceConfig`, with the floating-point expression of the standby rewards as a function of
the integers in it. -/
structure MaintenanceConfig where
  genesisVotes : List (Bytes × Int)
  witnessSortOptimized : Bool
  standbyReward : Int → Int → Int → Int

def saveWitness (witnesses : FMap Bytes Witness) (witness : Witness) : FMap Bytes Witness :=
  witnesses.insert witness.address witness

/-- The vote counts of the witnesses that exist changed by the amounts of a list, in its order. -/
def changeCounts (change : Int → Int → Except StateError Int) :
    FMap Bytes Witness → List (Bytes × Int) → Except StateError (FMap Bytes Witness)
  | witnesses, [] => pure witnesses
  | witnesses, (address, votes) :: rest =>
    match witnesses.lookup address with
    | none => changeCounts change witnesses rest
    | some witness => do
      let voteCount ← change witness.voteCount votes
      changeCounts change (saveWitness witnesses { witness with voteCount }) rest

/-- The votes of the genesis witnesses taken off again. -/
def removeGenesisVotes : FMap Bytes Witness → List (Bytes × Int) →
    Except StateError (FMap Bytes Witness) := changeCounts (subOr "genesis vote removal")

/-- The changes of the vote counts. -/
abbrev Deltas : Type := FMap Bytes Int

/-- `deltas.entry(..).or_default()`. -/
def Deltas.value (deltas : Deltas) (address : Bytes) : Int := (deltas.lookup address).getD 0

/-- The votes of one list added to the changes, or taken off them. -/
def collectVotes (change : Int → Int → Except StateError Int) :
    Deltas → List Vote → Except StateError Deltas
  | deltas, [] => pure deltas
  | deltas, vote :: votes => do
    let value ← change (deltas.value vote.voteAddress) vote.voteCount
    collectVotes change (deltas.insert vote.voteAddress value) votes

/-- The changes of all rows, in their order. -/
def collectDeltas : Deltas → List (Bytes × Votes) → Except StateError Deltas
  | deltas, [] => pure deltas
  | deltas, (_, row) :: rows => do
    let deltas ← collectVotes (subOr "old vote") deltas row.oldVotes
    let deltas ← collectVotes (addOr "new vote") deltas row.newVotes
    collectDeltas deltas rows

/-- The changes taken into the vote counts of the witnesses that exist. -/
def applyDeltas : FMap Bytes Witness → List (Bytes × Int) →
    Except StateError (FMap Bytes Witness) := changeCounts (addOr "witness votes")

/-! ## The election -/

def maxActiveWitnesses : Nat := 27

/-- An `i32` from an integer, as wrapping arithmetic leaves it. -/
def wrap32 (x : Int) : Int := (x + 2 ^ 31) % 2 ^ 32 - 2 ^ 31

def javaBytesHash (bytes : Bytes) : Int :=
  let signed := fun b : UInt8 => if b.toNat < 128 then (b.toNat : Int) else b.toNat - 256
  let hash := bytes.foldl (fun hash b => wrap32 (wrap32 (hash * 31) + signed b)) (bytes.length : Int)
  if hash = 0 then 1 else hash

/-- The halves of the bytes, as `hex_desc` compares them. -/
def nibbles (bytes : Bytes) : List Nat := bytes.flatMap fun b => [b.toNat / 16, b.toNat % 16]

/-- The order of `sort_witnesses`: `left` may stand before `right`. -/
def witnessLe (optimized : Bool) (left right : Witness) : Prop :=
  right.voteCount < left.voteCount ∨ (right.voteCount = left.voteCount ∧
    if optimized then nibbles right.address ≤ nibbles left.address
    else javaBytesHash right.address ≤ javaBytesHash left.address)

instance (optimized : Bool) : DecidableRel (witnessLe optimized) := fun left right => by
  unfold witnessLe
  cases optimized
  · exact inferInstanceAs (Decidable (_ ∨ (_ ∧ _)))
  · exact inferInstanceAs (Decidable (_ ∨ (_ ∧ _)))

/-- `sort_witnesses`: a stable sort. -/
def sortWitnesses (optimized : Bool) : List Witness → List Witness :=
  List.insertionSort (witnessLe optimized)

def saveActiveWitnesses (w : World) (addresses : List Bytes) : Except StateError World :=
  match addresses.find? fun address => address.length ≠ 21 with
  | some address => .error (.invalidSchedule address.length)
  | none => .ok { w with activeWitnesses := addresses }

/-- The rewards of `pay_legacy_standby`, one witness after the other. -/
def payEach (reward : Int → Int) : World → List Witness → Except StateError World
  | w, [] => pure w
  | w, witness :: rest =>
    match w.accounts.get witness.address with
    | none => throw (.missingWitnessAccount witness.address)
    | some a =>
      payEach reward { w with
        accounts := w.accounts.put { a with allowance := wrap (a.allowance + reward witness.voteCount) } }
        rest

def payLegacyStandby (cfg : MaintenanceConfig) (w : World) (witnesses : List Witness) :
    Except StateError World := do
  let witnesses := witnesses.take 127
  let voteSum := wrap (witnesses.map Witness.voteCount).sum
  if voteSum ≤ 0 then pure w
  else
    let allowance ← dynamicLong w .witnessStandbyAllowance
    payEach (fun voteCount => cfg.standbyReward voteCount allowance voteSum) w witnesses

/-- The witnesses saved with their part in the new period. -/
def saveJobs (active : List Bytes) : FMap Bytes Witness → List Witness → FMap Bytes Witness
  | stored, [] => stored
  | stored, witness :: rest =>
    saveJobs active (saveWitness stored { witness with isJobs := active.contains witness.address })
      rest

/-- The election after the changes have been counted; without changes the active witnesses stay. -/
def elect (cfg : MaintenanceConfig) (w : World) (changed : Bool) :
    Except StateError (World × List Bytes) :=
  if changed then do
    let witnesses := sortWitnesses cfg.witnessSortOptimized
      ((w.witnesses.sortedRows keyLe).map Prod.snd)
    let active := (witnesses.take maxActiveWitnesses).map Witness.address
    let w ← saveActiveWitnesses w active
    let w ← (if longOr w .changeDelegation 0 ≠ 1 then payLegacyStandby cfg w witnesses else pure w)
    pure ({ w with witnesses := saveJobs active w.witnesses witnesses }, active)
  else pure (w, w.activeWitnesses)

/-! ## A maintenance round -/

/-- The first part of `do_maintenance`: the votes of genesis, once. -/
def removeThePower (cfg : MaintenanceConfig) (w : World) : Except StateError World :=
  if longOr w .removeThePowerOfTheGr 0 = 1 then do
    let witnesses ← removeGenesisVotes w.witnesses cfg.genesisVotes
    pure (saveDynamicLong { w with witnesses } .removeThePowerOfTheGr (-1))
  else pure w

/-- The second part: every recorded change is counted, and its row deleted. -/
def countVotes (w : World) : Except StateError World := do
  let deltas ← collectDeltas ∅ (w.votes.sortedRows keyLe)
  let witnesses ← applyDeltas w.witnesses (FMap.sortedRows keyLe deltas)
  pure { w with witnesses, votes := ∅ }

/-- The last part: the cycle of the new reward algorithm. -/
def nextCycle (w : World) : Except StateError (World × Int) :=
  let cycle := longOr w .currentCycleNumber 0
  if longOr w .changeDelegation 0 = 1 then do
    let next ← addOr "cycle" cycle 1
    pure (saveDynamicLong w .currentCycleNumber next, next)
  else pure (w, cycle)

/-- `do_maintenance`: the active witnesses, the number of rows consumed and the cycle. -/
def doMaintenance (cfg : MaintenanceConfig) (w : World) :
    Except StateError (World × List Bytes × Nat × Int) := do
  let consumed := (w.votes.sortedRows keyLe).length
  let w ← removeThePower cfg w
  let w ← countVotes w
  let (w, active) ← elect cfg w (decide (0 < consumed))
  let (w, cycle) ← nextCycle w
  pure (w, active, consumed, cycle)

end RustTron.Consensus
