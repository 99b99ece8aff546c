import RustTron.Consensus.Proposals
import RustTron.Consensus.Schedule
import RustTron.Execution.Block
import RustTron.Primitives.F64

/-!
# Solidified heights

Every block writes its number into the row of its witness. After all other hooks the solidified
height is taken from these numbers: the active witnesses are read again, since maintenance may
have replaced them in the same block, and the number at three tenths of the sorted list is the
candidate. The height never goes down within a chain; a fork switch takes blocks back, and with
them their state.

## Main definitions

* `accountBlockProduction`: the statistics of the witnesses
* `updateSolidity`: the solidified height after a block
* `ProducedBlock.apply`: the hooks of a block in their order
* `Chain`, `Chain.Reachable`: the committed states over a genesis, and what application and rewind
  make of them
-/

namespace RustTron.Consensus

open Execution (BlockApplyError)

/-! ## The statistics of production -/

/-- The row of a witness changed, where there is one. -/
def adjustWitness (address : Bytes) (change : Witness → Witness) (witnesses : FMap Bytes Witness) :
    FMap Bytes Witness :=
  match witnesses.lookup address with
  | none => witnesses
  | some witness => witnesses.insert address (change witness)

/-- `previous_absolute_slot + 1..current_absolute_slot`. -/
def missedSlots (previous current : Int) : List Int :=
  (List.range (current - (previous + 1)).toNat).map fun k : Nat => previous + 1 + k

/-- A slot without a block. -/
def accountMissed (active : List Bytes) (witnesses : FMap Bytes Witness) (missedSlot : Int) :
    FMap Bytes Witness :=
  adjustWitness (active.getD (missedSlot % active.length).toNat [])
    (fun witness => { witness with
      totalMissed := saturateI64 (witness.totalMissed + 1)
      latestSlotNum := missedSlot }) witnesses

def accountProduction (active : List Bytes) (previousAbsoluteSlot currentAbsoluteSlot : Int)
    (blockWitness : Bytes) (witnesses : FMap Bytes Witness) : FMap Bytes Witness :=
  let witnesses :=
    if previousAbsoluteSlot + 1 < currentAbsoluteSlot ∧ active ≠ [] then
      (missedSlots previousAbsoluteSlot currentAbsoluteSlot).foldl (accountMissed active) witnesses
    else witnesses
  adjustWitness blockWitness
    (fun witness => { witness with
      totalProduced := saturateI64 (witness.totalProduced + 1)
      latestSlotNum := currentAbsoluteSlot }) witnesses

def accountBlockProduction (active : List Bytes) (previousAbsoluteSlot currentAbsoluteSlot : Int)
    (blockNumber : Int) (blockWitness : Bytes) (witnesses : FMap Bytes Witness) :
    FMap Bytes Witness :=
  adjustWitness blockWitness (fun witness => { witness with latestBlockNum := blockNumber })
    (accountProduction active previousAbsoluteSlot currentAbsoluteSlot blockWitness witnesses)

/-- The rows written one after the other. -/
def saveWitnesses (stored : FMap Bytes Witness) (rows : List (Bytes × Witness)) :
    FMap Bytes Witness :=
  rows.foldl (fun stored row => saveWitness stored row.2) stored

/-! ## The slots with blocks -/

def applyFilledSlot (slots : List UInt8) (index : Nat) (filled : Bool) : List UInt8 × Nat :=
  (slots.set index (if filled then 49 else 48), (index + 1) % slots.length)

/-- The slots up to the one of a block, the last of them filled. -/
def fillSlots (previousSlot currentSlot : Int) (slots : List UInt8) (index : Nat) :
    List UInt8 × Nat :=
  let elapsed := max (saturateI64 (currentSlot - previousSlot)) 1
  let (slots, index) :=
    if 128 ≤ elapsed then (List.replicate 128 48, (index + elapsed.toNat) % 128)
    else (List.range (elapsed - 1).toNat).foldl
      (fun (slots, index) _ => applyFilledSlot slots index false) (slots, index)
  applyFilledSlot slots index true

/-- The slot of a time, counted from genesis. -/
def productionSlot (genesisTime timestamp : Int) : Int :=
  max ((wrapI64 (timestamp - genesisTime)).tdiv blockIntervalMs) 0

/-! ## The solidified height -/

/-- The significand of the `f64` that is nearest to `0.3`: it is this number over `2 ^ 54`. -/
def threeTenths : Nat := 5404319552844595

def solidityPosition (size : Nat) : Nat :=
  roundSignificand (roundSignificand size * threeTenths) / 2 ^ 54

structure SolidityUpdate where
  previous : Int
  candidate : Int
  applied : Int
  position : Nat

/-- The last blocks of the active witnesses. -/
def latestBlockNums (witnesses : FMap Bytes Witness) : List Bytes → Except StateError (List Int)
  | [] => pure []
  | address :: rest =>
    match witnesses.lookup address with
    | none => .error (.missingActiveWitness address)
    | some witness => do
      let numbers ← latestBlockNums witnesses rest
      pure (witness.latestBlockNum :: numbers)

/-- `update_solidity`. The position is that of a number, `solidityPosition_lt`. -/
def updateSolidity (g : Governance) : Except StateError (Governance × SolidityUpdate) := do
  let active := g.world.activeWitnesses
  if active = [] then throw (.arithmeticOverflow "empty active witness set")
  let numbers ← latestBlockNums g.world.witnesses active
  let numbers := numbers.insertionSort (· ≤ ·)
  let position := solidityPosition numbers.length
  let candidate := numbers.getD position 0
  let previous ← g.dynamicLong "LATEST_SOLIDIFIED_BLOCK_NUM"
  let applied := max previous candidate
  let g ← (if applied ≠ previous then g.saveDynamicLong "LATEST_SOLIDIFIED_BLOCK_NUM" applied
    else pure g)
  pure (g, ⟨previous, candidate, applied, position⟩)

/-! ## Blocks -/

/-- The properties that the solidified height is derived from. -/
def solidityNames : List String := ["LATEST_SOLIDIFIED_BLOCK_NUM", "LATEST_BLOCK_HEADER_NUMBER"]

/-- Work of a block that leaves the witnesses as they are: a transaction that creates none, the
reward of the producer, the statistics of the forks. -/
structure SideWork where
  run : Governance → Except BlockApplyError Governance
  witnesses : ∀ {g g'}, run g = .ok g' → g'.world.witnesses = g.world.witnesses
  active : ∀ {g g'}, run g = .ok g' → g'.world.activeWitnesses = g.world.activeWitnesses
  properties : ∀ {g g'}, run g = .ok g' → ∀ name ∈ solidityNames,
    g'.dynamicRaw name = g.dynamicRaw name

/-- A transaction of a block: one that makes its owner a witness, whose other writes are side work,
or another one. -/
inductive BlockTransaction where
  | createWitness (ownerAddress : Bytes) (accounts : SideWork)
  | other (work : SideWork)

/-- The execution of a transaction. -/
def BlockTransaction.execute (g : Governance) : BlockTransaction → Except BlockApplyError Governance
  | createWitness ownerAddress accounts =>
    if g.world.witnesses.lookup ownerAddress ≠ none then
      .error (.invalidTransaction
        (.stage .runtime ("Witness[" ++ Actuator.hex ownerAddress ++ "] has existed")))
    else accounts.run { g with
      world := { g.world with
        witnesses := saveWitness g.world.witnesses { address := ownerAddress } } }
  | other work => work.run g

/-- A block, with what its transactions and the hooks beside production do. -/
structure ProducedBlock where
  number : Int
  timestamp : Int
  witnessAddress : Bytes
  transactions : List BlockTransaction
  payReward : SideWork
  forkStats : SideWork

/-- `ProductionBlockHooks`, as far as the hooks read it. -/
structure ProductionBlockHooks where
  maintenance : MaintenanceConfig
  genesisTime : Int

namespace ProductionBlockHooks

variable (hooks : ProductionBlockHooks)

/-- The error of a hook. -/
def hookError (error : StateError) : BlockApplyError := .hook error.toText

/-- The slots that are recorded as filled, up to the slot of a block. -/
def saveFilledSlots (previousSlot currentSlot : Int) (g : Governance) :
    Except BlockApplyError Governance := do
  let slots := (g.dynamicRaw "BLOCK_FILLED_SLOTS").getD (List.replicate 128 49)
  if slots.length ≠ 128 then throw (.hook "invalid BLOCK_FILLED_SLOTS length")
  let index := (((g.dynamicRaw "BLOCK_FILLED_SLOTS_INDEX").bind fromBe32).getD 0).toNat % 128
  let (slots, index) := fillSlots previousSlot currentSlot slots index
  (g.putDynamic "BLOCK_FILLED_SLOTS" slots).saveDynamicInt "BLOCK_FILLED_SLOTS_INDEX" index
    |>.mapError hookError

/-- `maintenance_and_dpos`, after `pay_reward` has recorded the witness of the block. -/
def maintenanceAndDpos (producer : Bytes) (timestamp : Int) (g : Governance) :
    Except BlockApplyError Governance := do
  let number := saturateI64 (g.longOr "LATEST_BLOCK_HEADER_NUMBER" 0 + 1)
  let previousTime ← (g.dynamicLong "LATEST_BLOCK_HEADER_TIMESTAMP").mapError hookError
  let previousSlot := productionSlot hooks.genesisTime previousTime
  let currentSlot := productionSlot hooks.genesisTime timestamp
  let witnesses := saveWitnesses ∅ (g.world.witnesses.sortedRows keyLe)
  let witnesses := accountBlockProduction g.world.activeWitnesses previousSlot currentSlot number
    producer witnesses
  let g := { g with world := { g.world with
    witnesses := saveWitnesses g.world.witnesses (witnesses.sortedRows keyLe) } }
  let g ← saveFilledSlots previousSlot currentSlot g
  let (g, _) ← (applyMaintenanceBlock hooks.maintenance number timestamp g).mapError hookError
  pure g

end ProductionBlockHooks

namespace ProducedBlock

/-- `persist_block`, of the properties that are read here. -/
def persist (b : ProducedBlock) (g : Governance) : Governance :=
  (g.putDynamic "LATEST_BLOCK_HEADER_NUMBER" (be64 b.number)).putDynamic
    "LATEST_BLOCK_HEADER_TIMESTAMP" (be64 b.timestamp)

/-- The body of `apply_block_mode`: the transactions, then the hooks in their order. -/
def apply (hooks : ProductionBlockHooks) (b : ProducedBlock) (g : Governance) :
    Except BlockApplyError Governance := do
  let g ← b.transactions.foldlM BlockTransaction.execute g
  let g ← b.payReward.run g
  let (g, _) ← (processExpiredProposals canonicalParameterRules g).mapError
    ProductionBlockHooks.hookError
  let g ← hooks.maintenanceAndDpos b.witnessAddress b.timestamp g
  let g ← b.forkStats.run g
  let (g, _) ← (updateSolidity (b.persist g)).mapError ProductionBlockHooks.hookError
  pure g

end ProducedBlock

/-! ## Chains -/

structure GenesisWitnessConfig where
  address : Bytes
  voteCount : Int

/-- `GenesisConfig`, of the witnesses. Their addresses are distinct, and stand in one value of a
store, whose length is written in four bytes. -/
structure GenesisConfig where
  witnesses : List GenesisWitnessConfig
  distinct : (witnesses.map GenesisWitnessConfig.address).Nodup
  fits : 21 * witnesses.length < 2 ^ 32

/-- The rows of genesis, over those that have nothing to do with witnesses and blocks. -/
def GenesisConfig.rows (config : GenesisConfig) (timestamp : Int) (rest : Governance) :
    Governance :=
  let witnesses := config.witnesses.foldl
    (fun stored witness => saveWitness stored
      { address := witness.address, voteCount := witness.voteCount, isJobs := true }) ∅
  let active := config.witnesses.map GenesisWitnessConfig.address
  { rest with world := { rest.world with witnesses, activeWitnesses := active } }
    |>.putDynamic "LATEST_BLOCK_HEADER_NUMBER" (be64 0)
    |>.putDynamic "LATEST_BLOCK_HEADER_TIMESTAMP" (be64 timestamp)
    |>.putDynamic "LATEST_SOLIDIFIED_BLOCK_NUM" (be64 0)

/-- A block with the state that was committed after it. -/
structure AppliedBlock where
  block : ProducedBlock
  state : Governance

/-- The state of genesis and the blocks over it, the newest one first. -/
structure Chain where
  genesis : Governance
  blocks : List AppliedBlock

namespace Chain

/-- The committed state at the head. -/
def state (c : Chain) : Governance := (c.blocks.head?.map AppliedBlock.state).getD c.genesis

/-- The height of the head. -/
def height (c : Chain) : Int := (c.blocks.head?.map fun a => a.block.number).getD 0

/-- The chain without its newest block. -/
def parent (c : Chain) : Chain := { c with blocks := c.blocks.tail }

/-- The witness has produced a block of the chain at the height or above. -/
def Produced (c : Chain) (witness : Bytes) (height : Int) : Prop :=
  ∃ a ∈ c.blocks, a.block.witnessAddress = witness ∧ height ≤ a.block.number

instance (c : Chain) (witness : Bytes) (height : Int) : Decidable (c.Produced witness height) :=
  inferInstanceAs (Decidable (∃ a ∈ c.blocks, _))

/-- `apply_block_mode`, over the head. The checks of the header that do not concern its number are
an argument. -/
def applyBlock (hooks : ProductionBlockHooks) (checks : Chain → Except BlockApplyError Unit)
    (c : Chain) (b : ProducedBlock) : Except BlockApplyError Chain :=
  if ¬ InI64 (c.height + 1) then .error .arithmetic
  else if b.number ≠ c.height + 1 then .error .heightMismatch
  else do
    checks c
    let state ← b.apply hooks c.state
    pure { c with blocks := ⟨b, state⟩ :: c.blocks }

/-- The chains over a genesis: blocks are applied, and a fork switch takes back those at the
head. -/
inductive Reachable (hooks : ProductionBlockHooks) (genesis : Governance) : Chain → Prop
  | start : Reachable hooks genesis ⟨genesis, []⟩
  | apply {c c' : Chain} {checks : Chain → Except BlockApplyError Unit} {b : ProducedBlock} :
    Reachable hooks genesis c → c.applyBlock hooks checks b = .ok c' → Reachable hooks genesis c'
  | rewind {c : Chain} : Reachable hooks genesis c → Reachable hooks genesis c.parent

/-- The solidified height of the committed state. -/
def solidified (c : Chain) : Except StateError Int :=
  c.state.dynamicLong "LATEST_SOLIDIFIED_BLOCK_NUM"

end Chain

end RustTron.Consensus
