import RustTron.Consensus.Ballots
import RustTron.Consensus.Production
import RustTron.State.Restart
import RustTron.State.Cursor
import RustTron.State.TimeTravel

/-!
# PBFT in a node

The runtime gives the messages of the network to the sidecar, with a context it makes for each of
them, and persists the commits that come back. A commit goes to the durable root at once, with a
marker of the largest block number so far: past the sessions of the blocks, which the node applies,
rewinds and publishes meanwhile. The marker is read at the next start.

The decoding of a message and the digest of a payload are parameters.

## Main definitions

* `runtimeContext`, `PbftHandler.handleWire`: from a payload to its effects
* `persistAtomic`, `persistCommit`: how a commit is stored
* `PbftNode`, `NodeStep.run`: a node with its sidecar and its sessions, and what it does
-/

namespace RustTron.Consensus.Pbft

open State

variable {Key : Type}

/-! ## Messages -/

def readSchedule (key : String) (view : Image) : Except String (List Bytes) :=
  let bytes := (view.lookup ⟨.witnessSchedule, Marker.key.ascii key⟩).getD []
  if bytes.length % 21 ≠ 0 then
    .error ("consensus state error: InvalidSchedule(InvalidLength \x7b kind: \"witness schedule\", " ++
      s!"expected: \"a multiple of 21 bytes\", actual: {bytes.length} \x7d)")
  else .ok (bytes.toChunks 21)

def currentWitnesses (view : Image) : Except String (List Bytes) :=
  readSchedule "current_shuffled_witnesses" view

/-- What the runtime uses of the wire format and of cryptography. -/
structure WireHost (Key : Type) where
  crypto : Crypto Key
  decode : Bytes → Except PbftError SignedMessage
  digest : Bytes → Bytes

/-- Why a payload comes to nothing. -/
inductive DeliveryError where
  | pbft (error : PbftError)
  | schedule (message : String)
  | storage (error : CheckpointError)

/-- The context that the runtime makes for a payload. Whatever is proposed is expected, from
whoever has signed it. -/
def runtimeContext (host : WireHost Key) (sessions : Sessions) (nowMillis : Int) (payload : Bytes) :
    Except DeliveryError (PbftContext Key) := do
  let message ← (host.decode payload).mapError .pbft
  let current ← (currentWitnesses sessions.readView).mapError .schedule
  let proposer ← (message.recoverWitness host.crypto).mapError .pbft
  pure {
    nowMillis := nowMillis
    syncing := false
    chainSwitch := false
    currentWitnesses := current
    beforeWitnesses := current
    beforeMaintenanceTime := 0
    localSigners := []
    expectedProposals :=
      [⟨message.raw.dataType, message.raw.viewN, message.raw.epoch, proposer, message.raw.data⟩] }

def pbftDedupLimit : Nat := 10000

/-- The `expire_blocks` of the runtime. -/
def expireBlocks : Int := 27

/-- The `maintenance_interval` of the runtime. -/
def maintenanceInterval : Int := 21600000

/-- The `next_maintenance` of the runtime. -/
def nextMaintenance (view : Image) : Int :=
  let value := view.lookup ⟨.dynamicProperties, Marker.key.ascii "NEXT_MAINTENANCE_TIME"⟩
  (value.bind fromBe64).getD 0

structure PbftHandler where
  seen : List Bytes
  sidecar : PbftSidecar

/-- A message that is too old for the handler. -/
def Raw.stale (raw : Raw) (head nextMaintenance : Int) : Bool :=
  match raw.dataType with
  | .block => expireBlocks < saturatingSub head raw.viewN.toInt
  | .srl => maintenanceInterval * 2 < saturatingSub nextMaintenance raw.epoch.toInt

def PbftHandler.handleWire (host : WireHost Key) (payload : Bytes) (context : PbftContext Key)
    (head nextMaintenance : Int) (handler : PbftHandler) :
    Except DeliveryError (List Effect) × PbftHandler :=
  match host.decode payload with
  | .error e => (.error (.pbft e), handler)
  | .ok message =>
    if message.raw.stale head nextMaintenance then (.ok [], handler)
    else if host.digest payload ∈ handler.seen then (.ok [], handler)
    else
      match PbftSidecar.handle host.crypto message context handler.sidecar with
      | (.error e, sidecar) => (.error (.pbft e), { handler with sidecar := sidecar })
      | (.ok effects, sidecar) =>
        let seen := handler.seen ++ [host.digest payload]
        (.ok effects, ⟨seen.drop (seen.length - pbftDedupLimit), sidecar⟩)

/-! ## Commits -/

def DataType.keyPrefix : DataType → Bytes
  | block => Marker.key.ascii "BLOCK"
  | srl => Marker.key.ascii "SRL"

/-- The `PbftCommitResult` of a commit, encoded. -/
def CommitData.result (commit : CommitData) : Bytes :=
  bytesField 0x0a commit.raw ++ commit.signatures.flatMap (presentField 0x12)

/-- The number that the marker row holds, zero where there is none. -/
def latestPbftBlock (rows : Image) : Int :=
  ((rows.lookup CursorSet.pbftMarker).bind fromBe64).getD 0

/-- The rows with a commit, and with the marker where it has advanced. -/
def withCommit (key value : Bytes) (advanced : Option Int) (rows : Image) : Image :=
  let rows := rows.insert ⟨.pbft, key⟩ value
  match advanced with
  | none => rows
  | some cursor => rows.insert CursorSet.pbftMarker (be64 cursor)

def persistAtomic (key value : Bytes) (candidateCursor : Option Int) :
    Prog Sessions CheckpointError (Option Int) := do
  let s ← get
  let latest := latestPbftBlock s.root.rows
  let advanced := candidateCursor.filter fun candidate => latest < candidate
  commitBatch fun root => { root with rows := withCommit key value advanced root.rows }
  pure advanced

def persistCommit (commit : CommitData) : Prog Sessions CheckpointError (Option Int) :=
  let number := match commit.dataType with
    | .block => commit.number.toInt
    | .srl => commit.epoch.toInt
  persistAtomic (commit.dataType.keyPrefix ++ decimal number) commit.result
    (if commit.dataType = .block then some commit.number.toInt else none)

/-- What the dispatcher does with the effects of a message; what it forwards to the peers is left
out. -/
def persistEffects : List Effect → Prog Sessions CheckpointError Unit
  | [] => pure ()
  | .forward _ :: rest => persistEffects rest
  | .commit commit :: rest => do
    let _ ← persistCommit commit
    persistEffects rest

/-! ## The node -/

/-- A node: the sessions of its state, and its handler of PBFT messages. -/
structure PbftNode where
  sessions : Sessions
  handler : PbftHandler

namespace PbftNode

/-- The chain of the node: the checkpoints of its blocks. -/
def chain (node : PbftNode) : List CursorPoint := node.sessions.checkpointPoints

/-- The rows of the durable root. -/
def rows (node : PbftNode) : Image := node.sessions.root.rows

/-- A node over a root, before its first checkpoint. -/
def new (root : StateStore) (quorum : Option Nat) (bounds : PbftBounds) : PbftNode :=
  ⟨Sessions.new root, [], .new quorum bounds⟩

/-- The effects of a payload, and the handler it leaves; `head` is what `sync_head` answers. -/
def receive (host : WireHost Key) (payload : Bytes) (nowMillis head : Int) (node : PbftNode) :
    Except DeliveryError (List Effect) × PbftHandler :=
  match runtimeContext host node.sessions nowMillis payload with
  | .error e => (.error e, node.handler)
  | .ok context => node.handler.handleWire host payload context head
      (nextMaintenance node.sessions.readView)

/-- `ProductionNetwork::dispatch`, of a PBFT message. -/
def deliver (host : WireHost Key) (payload : Bytes) (nowMillis head : Int) (node : PbftNode) :
    PbftNode :=
  match node.receive host payload nowMillis head with
  | (.error _, handler) => { node with handler := handler }
  | (.ok effects, handler) => ⟨(persistEffects effects node.sessions).2, handler⟩

end PbftNode

/-- What a node does. The runtime calls neither the compaction nor the retreat of the history. -/
inductive NodeStep where
  | deliver (payload : Bytes) (nowMillis head : Int)
  | record (point : CursorPoint)
  | apply (temporarilyEnable : Bool) (work : Work) (point : CursorPoint)
  | rewind (identity : CheckpointIdentity)
  | publish
  | restart

/-- The node after a step, whether the step fails or not; a start that fails leaves none. -/
def NodeStep.run (host : WireHost Key) (limits : CheckpointLimits) (node : PbftNode) :
    NodeStep → Option PbftNode
  | deliver payload nowMillis head => some (node.deliver host payload nowMillis head)
  | record point => some { node with sessions := (Sessions.recordCheckpoint point node.sessions).2 }
  | apply temporarilyEnable work point =>
    some { node with sessions := (blockSession temporarilyEnable work point node.sessions).2 }
  | rewind identity =>
    some { node with sessions := (Sessions.rewindCheckpoint identity node.sessions).2 }
  | publish => some { node with sessions := (CheckpointStack.persist limits node.sessions).2 }
  | restart =>
    match CheckpointStack.recoverAndRelink limits (Sessions.new node.sessions.root) with
    | (.error _, _) => none
    | (.ok _, sessions) =>
      some ⟨sessions, [], .new node.handler.sidecar.quorum node.handler.sidecar.bounds⟩

/-- The commits that a step persists, or tries to. -/
def NodeStep.commits (host : WireHost Key) (node : PbftNode) : NodeStep → List CommitData
  | deliver payload nowMillis head =>
    match (node.receive host payload nowMillis head).1 with
    | .error _ => []
    | .ok effects => commitsOf effects
  | _ => []

end RustTron.Consensus.Pbft
