import RustTron.Execution.Pending

/-!
# Switching to another branch

`ForkManager::switch` rewinds the canonical blocks down to the common ancestor with the new head,
applies the retained blocks of the new branch, and rebuilds the pending pool. When a block of the
new branch fails, it retracts what it has applied and applies the old branch again.

## Main definitions

* `ForkManager.switch`, `ForkManager.restore`, `ForkManager.removeBadBranch`
-/

namespace RustTron.Execution

open State

/-- `ForkSwitchError`. Where the source formats the failures of the restoration into a text, they
are kept as they are. -/
inductive ForkSwitchError where
  | state (message : String)
  | graph (message : String)
  | apply (block : BlockId) (error : BlockApplyError)
  | restore (original : ForkSwitchError) (discard : Option SessionError)
      (restoration : Option ForkSwitchError)

structure ForkSwitchOutcome where
  oldHead : BlockId
  newHead : BlockId
  commonAncestor : BlockId
  removed : List BlockId
  applied : List BlockId
  poppedTransactions : List Hash32

/-- `From<SessionError> for ForkSwitchError`. -/
def ForkSwitchError.ofSession (e : SessionError) : ForkSwitchError := .state e.toText

namespace ForkManager

variable {H : Type} (env : Environment H)

/-- The operations of the fork manager. -/
abbrev ForkM (H : Type) := Prog (FullNode H) ForkSwitchError

/-- An operation of Khaos. -/
def onNodeKhaos {α : Type} (x : Prog (KhaosDatabase ManagedBlock) KhaosError α) : ForkM H α :=
  onBlocks (fun e => e) (onKhaos (fun e => .graph e.toText) x)

/-- An operation of the pool. -/
def onPool {α : Type} (x : Prog (FullNode H) SessionError α) : ForkM H α :=
  Prog.mapError ForkSwitchError.ofSession x

/-- An event. -/
def publish (event : ChainEvent) : ForkM H Unit :=
  modify fun node => { node with events := node.events ++ [event] }

/-- The contract events of a block. -/
def publishContracts (id : BlockId) (removed : Bool) : Nat → List Bytes → ForkM H Unit
  | _, [] => pure ()
  | index, bytes :: rest => do
    let tx ← Prog.ofExcept .state (env.decodeTransaction bytes)
    publish (.contract id (env.transactionId tx) index removed)
    publishContracts id removed (index + 1) rest

def publishRemoved (block : ManagedBlock) : ForkM H Unit := do
  publishContracts env block.id true 0 block.raw.transactionBytes
  publish (.block block.id true)
  publish (.filterLogs block.id true)

def publishReapplied (branch : List ManagedBlock) : ForkM H Unit :=
  branch.forM fun block => do
    publishContracts env block.id false 0 block.raw.transactionBytes
    publish (.filterBlock block.id)
    publish (.filterLogs block.id false)
    publish (.block block.id false)

def canonicalHead : ForkM H BlockId := do
  let node ← get
  match node.blocks.sessions.readView.lookup Marker.latestBlockHeaderHash.key with
  | none => throw (.state "latest block hash property is missing")
  | some bytes =>
    match Hash32.ofBytes? bytes with
    | none => throw (.state "invalid hash length")
    | some hash => pure hash

def collectTransactions (block : ManagedBlock) :
    Except ForkSwitchError (List PendingTransaction) :=
  block.raw.transactionBytes.mapM fun bytes =>
    match env.decodeTransaction bytes with
    | .error message => .error (.state message)
    | .ok tx => .ok ⟨env.transactionId tx, tx, block.receivedAt, tx.message.shielded, false⟩

def replayPending (strict : Bool) (now : Int) : ForkM H Unit := do
  let node ← get
  match node.blocks.khaos.getHead with
  | none => throw (.graph "Khaos head is missing during pending replay")
  | some head =>
    match head.value.raw.rawHeader with
    | none => throw (.state "head raw header is missing during pending replay")
    | some raw =>
      onPool (PendingPool.replaySpeculative env strict (.at .network raw now none))

/-- `ForkManager::remove_bad_branch`: block by block from `id` on, each time to the parent. -/
def removeBadBranch : Nat → BlockId → KhaosDatabase ManagedBlock → KhaosDatabase ManagedBlock
  | 0, _, db => db
  | fuel + 1, id, db =>
    let parent := (db.getBlock id).map (·.parentId)
    match KhaosDatabase.removeBlk id db, parent with
    | (.ok (), db), some parent => removeBadBranch fuel parent db
    | (_, db), _ => db

/-- The rounds that `remove_bad_branch` can take: each but the last removes a node. -/
def branchFuel (db : KhaosDatabase ManagedBlock) : Nat :=
  db.linked.entries.length + db.unlinked.entries.length + 1

/-- `rewind_checkpoint`, and the step of Khaos to the parent, of a block that is retracted. -/
def retract (block : ManagedBlock) : ForkM H Unit := do
  if !(← onPool (onNodeSessions (Sessions.rewindCheckpoint block.id))) then
    throw (.state "checkpoint stack ended while retracting failed branch")
  let node ← get
  let (popped, khaos) := node.blocks.khaos.pop
  if !popped then throw (.graph "Khaos head ended while retracting failed branch")
  set { node with blocks := { node.blocks with khaos := khaos } }

/-- `apply_fork_block`, with its error. -/
def applyFork (block : ManagedBlock) : ForkM H Unit := do
  let _ ← onBlocks (ForkSwitchError.apply block.id)
    (BlockManager.applyForkBlock env block.raw block.receivedAt)

/-- A change of the cache. -/
def setCache (f : TransactionCache → TransactionCache) : ForkM H Unit :=
  modify fun node => { node with blocks := { node.blocks with cache := f node.blocks.cache } }

def restore (oldHead ancestor : BlockId) (newBranch oldBranch : List ManagedBlock)
    (appliedCount : Nat) (cacheBefore : TransactionCache) (snapshot : ForkPendingSnapshot)
    (now : Int) : ForkM H Unit := do
  (newBranch.take appliedCount).reverse.forM retract
  newBranch.forM fun block => do
    -- failures to remove a block are ignored
    let _ ← (Prog.attempt (onNodeKhaos (KhaosDatabase.removeBlk block.id)) :
      ForkM H (Except ForkSwitchError Unit))
    pure ()
  onNodeKhaos (KhaosDatabase.setHead ancestor)
  setCache TransactionCache.clear
  oldBranch.forM fun block =>
    applyFork env { block with raw := block.raw.clearSignatureVerificationCache }
  onNodeKhaos (KhaosDatabase.setHead oldHead)
  setCache fun _ => cacheBefore
  onPool (PendingPool.restoreAfterFailedFork snapshot)
  replayPending env true now

/-- What `switch` does when it fails with `original` after it has begun to change the state:
restore the old branch, publish it again, and report both failures. -/
def failSwitch {α : Type} (original : ForkSwitchError) (discard : Option SessionError)
    (restoration : ForkM H Unit) (reapplied : List ManagedBlock) : ForkM H α := do
  match ← (Prog.attempt restoration : ForkM H (Except ForkSwitchError Unit)) with
  | .ok () =>
    publishReapplied env reapplied
    match discard with
    | none => throw original
    | some e => throw (.restore original (some e) none)
  | .error e => throw (.restore original discard (some e))

/-- The head of Khaos, or the old head. -/
def khaosHead (oldHead : BlockId) (node : FullNode H) : BlockId :=
  (node.blocks.khaos.getHead.map (·.id)).getD oldHead

/-- The rewind of the old branch in `switch`, from its head; `done` are the blocks rewound. -/
def rewindOld (oldHead : BlockId) (newBranch : List ManagedBlock)
    (cacheBefore : TransactionCache) (snapshot : ForkPendingSnapshot) (now : Int) :
    List ManagedBlock → List ManagedBlock → ForkM H Unit
  | [], _ => pure ()
  | block :: rest, done => do
    publishRemoved env block
    let rewound ← Prog.attempt (onNodeSessions (Sessions.rewindCheckpoint block.id))
    let node ← get
    let base := khaosHead oldHead node
    match rewound with
    | .ok true =>
      let (popped, khaos) := node.blocks.khaos.pop
      if popped then
        set { node with blocks := { node.blocks with khaos := khaos } }
        rewindOld oldHead newBranch cacheBefore snapshot now rest (done ++ [block])
      else
        let replay := (done ++ [block]).reverse
        failSwitch env (.graph "Khaos head ended before common ancestor") none
          (restore env oldHead base newBranch replay 0 cacheBefore snapshot now) replay
    | .ok false =>
      failSwitch env (.state "checkpoint stack ended before common ancestor") none
        (restore env oldHead base newBranch done.reverse 0 cacheBefore snapshot now)
        (done ++ [block]).reverse
    | .error (e : SessionError) =>
      failSwitch env (.state e.toText) none
        (restore env oldHead base newBranch done.reverse 0 cacheBefore snapshot now)
        (done ++ [block]).reverse

/-- The application of the new branch in `switch`: how many blocks were applied, and the error
that stopped it. -/
def applyNew : List ManagedBlock → Nat → ForkM H (Nat × Option ForkSwitchError)
  | [], applied => pure (applied, none)
  | block :: rest, applied => do
    match ← (Prog.attempt (applyFork env block) : ForkM H (Except ForkSwitchError Unit)) with
    | .error e => pure (applied, some e)
    | .ok () => applyNew rest (applied + 1)

/-- The pending rebuild failed: discard it, by force if need be, and restore. -/
def failRebuild {α : Type} (original : ForkSwitchError) (restoration : ForkM H Unit)
    (oldBranch : List ManagedBlock) : ForkM H α := do
  match ← Prog.attempt PendingPool.discardForkRebuild with
  | .ok () => failSwitch env original none restoration oldBranch
  | .error (e : SessionError) =>
    PendingPool.forceDiscardForkRebuild
    failSwitch env original (some e) restoration oldBranch

/-- The part of `switch` that changes the state, once both branches are known. Nodes come newest
first. -/
def switchBranches (oldHead newHead ancestor : BlockId) (newNodes oldNodes : List ManagedBlock)
    (abandoned : List PendingTransaction) (now : Int) : ForkM H ForkSwitchOutcome := do
  onNodeKhaos (KhaosDatabase.setHead oldHead)
  let snapshot ← onPool PendingPool.suspendForFork
  let cacheBefore := (← get).blocks.cache
  setCache TransactionCache.clear
  let newBranch := newNodes.reverse.map fun block =>
    { block with raw := block.raw.clearSignatureVerificationCache }
  let oldBranch := oldNodes.reverse
  rewindOld env oldHead newBranch cacheBefore snapshot now oldNodes []
  onNodeKhaos (KhaosDatabase.setHead ancestor)
  let (applied, failure) ← applyNew env newBranch 0
  let restoration := restore env oldHead ancestor newBranch oldBranch applied cacheBefore snapshot
    now
  match failure with
  | some original => failSwitch env original none restoration oldBranch
  | none =>
    match ← Prog.attempt (PendingPool.resumeAfterFork abandoned now) with
    | .error (e : SessionError) => failRebuild env (.state e.toText) restoration oldBranch
    | .ok () =>
      match ← (Prog.attempt (replayPending env false now) :
          ForkM H (Except ForkSwitchError Unit)) with
      | .error original => failRebuild env original restoration oldBranch
      | .ok () =>
        modifyPool PendingPool.finishForkRequeue
        publishReapplied env newBranch
        pure ⟨oldHead, newHead, ancestor, oldNodes.map (·.id), newBranch.map (·.id),
          abandoned.map (·.id)⟩

def switch (newHead : BlockId) (now : Int) : ForkM H ForkSwitchOutcome := do
  let oldHead ← canonicalHead
  let node ← get
  let khaos := node.blocks.khaos
  match khaos.getBranch newHead oldHead with
  | .error e =>
    set { node with blocks := { node.blocks with
      khaos := removeBadBranch (branchFuel khaos) newHead khaos } }
    throw (.graph e.toText)
  | .ok (newNodes, oldNodes) =>
    match newNodes.getLast? with
    | none => pure ⟨oldHead, oldHead, oldHead, [], [], []⟩
    | some last =>
      match khaos.parentOf last with
      | none => throw (.graph "replacement branch has no retained ancestor")
      | some ancestor =>
        let oldBlocks := oldNodes.map (·.block.value)
        let abandoned ← Prog.ofExcept id (oldBlocks.mapM (collectTransactions env))
        switchBranches env oldHead newHead ancestor.block.id (newNodes.map (·.block.value))
          oldBlocks abandoned.flatten now

end ForkManager

end RustTron.Execution
