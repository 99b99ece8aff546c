import RustTron.Execution.Fork

/-!
# The canonical chain manager

`CanonicalChainManager` is the single owner of canonical state: blocks and transactions reach it
one request at a time. A full node has a pending pool, a replica has none.

## Main definitions

* `ChainManager`: the block manager, the pool of a full node, and what has been published
* `ChainManager.broadcastRaw`, `validateNetworkBlock`, `acceptNetworkBlock`, `applyReplicaBlock`,
  `knownTransaction`, `shutdown`: the requests
* `Request`, `ChainManager.serve`: a request, and the state after it
* `Reachable`: the states after any sequence of requests
-/

namespace RustTron.Execution

open State

/-- `ChainManagerError`. Where the source formats another error into a text, the error is kept. -/
inductive ChainManagerError where
  | replicaReadOnly
  | decode (message : String)
  | block (error : BlockApplyError)
  | fork (error : ForkSwitchError)
  | process (error : ProcessError)
  | state (message : String)
  | persistence (error : CheckpointError)
  | restore (original : CheckpointError) (restoration : ChainManagerError)

/-- `From<SessionError> for ChainManagerError`. -/
def ChainManagerError.ofSession (e : SessionError) : ChainManagerError := .state e.toText

/-- `CanonicalChainManager`. -/
structure ChainManager (H : Type) where
  blocks : BlockManager H
  pending : Option PendingPool
  checkpointLimits : CheckpointLimits
  events : List ChainEvent

namespace ChainManager

variable {H : Type} {α : Type}

/-- Operations of the chain manager. -/
abbrev ChainM (H : Type) := Prog (ChainManager H) ChainManagerError

/-- An operation of the block manager. -/
def onChainBlocks {ε : Type} (f : ε → ChainManagerError) (x : Prog (BlockManager H) ε α) :
    ChainM H α :=
  Prog.zoom ChainManager.blocks (fun c b => { c with blocks := b }) f x

/-- An operation of a full node on its pool and its block manager; what it publishes is for its
caller to pass on. -/
def onFull {ε : Type} (f : ε → ChainManagerError) (x : Prog (FullNode H) ε α) :
    ChainM H (α × List ChainEvent) := fun c =>
  match c.pending with
  | none => (.error .replicaReadOnly, c)
  | some pool =>
    match x ⟨c.blocks, pool, []⟩ with
    | (.ok a, node) =>
      (.ok (a, node.events), { c with blocks := node.blocks, pending := some node.pool })
    | (.error e, node) =>
      (.error (f e), { c with blocks := node.blocks, pending := some node.pool })

/-- An operation on the pool, where there is one. -/
def ifFull {ε : Type} (f : ε → ChainManagerError) (x : Prog (FullNode H) ε Unit) :
    ChainM H Unit := do
  if (← get).pending.isSome then
    let _ ← onFull f x

/-- `CheckpointStack::persist`, of the chain's sessions. -/
def persist : Prog (ChainManager H) CheckpointError Nat := do
  let c ← get
  Prog.zoom (fun c => c.blocks.sessions)
    (fun c s => { c with blocks := { c.blocks with sessions := s } }) (fun e => e)
    (CheckpointStack.persist c.checkpointLimits)

variable (env : Environment H)

def replayPending (strict : Bool) (now : Int) : Prog (FullNode H) ChainManagerError Unit := do
  let node ← get
  match node.blocks.khaos.getHead with
  | none => throw (.state "Khaos head is missing during pending replay")
  | some head =>
    match head.value.raw.rawHeader with
    | none => throw (.state "head raw header is missing during pending replay")
    | some raw =>
      Prog.mapError ChainManagerError.ofSession
        (PendingPool.replaySpeculative env strict (.at .network raw now none))

/-- An event. -/
def publish (event : ChainEvent) : ChainM H Unit :=
  modify fun c => { c with events := c.events ++ [event] }

/-- The contract events of a block. -/
def publishContracts (id : BlockId) : Nat → List Bytes → ChainM H Unit
  | _, [] => pure ()
  | index, bytes :: rest => do
    let tx ← Prog.ofExcept .decode (env.decodeTransaction bytes)
    publish (.contract id (env.transactionId tx) index false)
    publishContracts id (index + 1) rest

def publishApplied (id : BlockId) : ChainM H Unit := do
  let c ← get
  match c.blocks.khaos.getBlock id with
  | none => throw (.state "committed block is missing from Khaos")
  | some block =>
    publishContracts env id 0 block.value.raw.transactionBytes
    publish (.filterBlock id)
    publish (.filterLogs id false)
    publish (.block id false)

/-- The pool suspended, where there is one. -/
def suspend : ChainM H (Option ForkPendingSnapshot) := do
  if (← get).pending.isSome then
    let (snapshot, _) ← onFull .ofSession PendingPool.suspendForFork
    pure (some snapshot)
  else pure none

/-- The pool put back as it was before the block, where there is one. -/
def restorePool (snapshot : Option ForkPendingSnapshot) (now : Int) : ChainM H Unit :=
  match snapshot with
  | none => pure ()
  | some snapshot => do
    ifFull .ofSession (PendingPool.restoreAfterFailedFork snapshot)
    ifFull (fun e => e) (replayPending env true now)

def rollbackDirect (id : BlockId) (cache : TransactionCache)
    (snapshot : Option ForkPendingSnapshot) (now : Int) : ChainM H Unit := do
  ifFull .ofSession PendingPool.discardForkRebuild
  if !(← onChainBlocks (fun e => e)
      (onSessions .ofSession (Sessions.rewindCheckpoint id))) then
    throw (.state "applied checkpoint was not rewindable")
  onChainBlocks (fun e => e) (onKhaos (fun e => .state e.toText) (KhaosDatabase.removeBlk id))
  modify fun c => { c with blocks := { c.blocks with cache := cache } }
  restorePool env snapshot now

/-- The rest of `apply_direct` once the block is applied: the pool is opened again and its
transactions are replayed, then the checkpoint is published, and the block if that succeeds. -/
def settleDirect (id : BlockId) (cacheBefore : TransactionCache)
    (snapshot : Option ForkPendingSnapshot) (now : Int) : ChainM H BlockId := do
  ifFull .ofSession (PendingPool.resumeAfterFork [] now)
  ifFull (fun e => e) (replayPending env false now)
  ifFull (fun e : ChainManagerError => e) (modifyPool PendingPool.finishForkRequeue)
  match ← Prog.attempt persist with
  | .error (original : CheckpointError) =>
    match ← (Prog.attempt (rollbackDirect env id cacheBefore snapshot now) :
        ChainM H (Except ChainManagerError Unit)) with
    | .ok () => throw (.persistence original)
    | .error restoration => throw (.restore original restoration)
  | .ok _ =>
    publishApplied env id
    pure id

def applyDirect (block : RawBlock) (now : Int) : ChainM H BlockId := do
  let id ← Prog.ofExcept .block (block.blockId env)
  let cacheBefore := (← get).blocks.cache
  let snapshot ← suspend
  match ← Prog.attempt (onChainBlocks .block (BlockManager.applyBlock env block now)) with
  | .ok _ => settleDirect env id cacheBefore snapshot now
  | .error (error : ChainManagerError) =>
    modify fun c => { c with blocks := { c.blocks with cache := cacheBefore } }
    restorePool env snapshot now
    throw error

def switchFork (newHead : BlockId) (now : Int) : ChainM H Unit := do
  let (_, events) ← onFull .fork (ForkManager.switch env newHead now)
  match ← Prog.attempt persist with
  | .error (e : CheckpointError) => throw (.persistence e)
  | .ok _ => modify fun c => { c with events := c.events ++ events }

def acceptBlock (block : RawBlock) (receivedAt : Int) (allowFork : Bool) : ChainM H BlockId := do
  let id ← Prog.ofExcept .block (block.blockId env)
  match block.rawHeader, (← get).blocks.khaos.getHead with
  | none, _ => throw (.block .missingRawHeader)
  | _, none => throw (.block .parentMismatch)
  | some raw, some head =>
    if raw.parentHash = head.id.bytes then applyDirect env block receivedAt
    else if !allowFork then throw (.block .parentMismatch)
    else
      let _ ← onChainBlocks .block (BlockManager.retainCompetingBlock env block receivedAt)
      if raw.number ≤ head.number then pure id
      else
        switchFork env id receivedAt
        pure id

def acceptNetworkBlock (bytes : Bytes) (receivedAt : Int) : ChainM H BlockId := do
  let block ← Prog.ofExcept .block (RawBlock.decode env bytes)
  acceptBlock env block receivedAt true

def validateNetworkBlock (bytes : Bytes) (now : Int) : ChainM H BlockId := do
  let block ← Prog.ofExcept .block (RawBlock.decode env bytes)
  onChainBlocks .block (BlockManager.validateBlock env block now)

def applyReplicaBlock (block : RawBlock) (now : Int) : ChainM H BlockId := do
  if (← get).pending.isSome then throw (.state "replica apply requires replica mode")
  applyDirect env block now

def broadcastRaw (bytes : Bytes) (receivedAt : Int) (smart : Bool) : ChainM H BroadcastResult := do
  let transaction ← Prog.ofExcept .decode (env.decodeTransaction bytes)
  let id := env.transactionId transaction
  match (← get).blocks.khaos.getHead with
  | none => throw (.state "Khaos head is missing")
  | some head =>
    match head.value.raw.rawHeader with
    | none => throw (.state "head raw header is missing")
    | some header =>
      let item := ⟨id, transaction, receivedAt, transaction.message.shielded, smart⟩
      let execute (session : Session) : Prog (BlockManager H) ChainManagerError Unit := do
        let _ ← Prog.mapError .process
          (processPending env session transaction (.at .network header receivedAt none))
      let (result, _) ← onFull (fun e => e)
        (PendingPool.admitItem item receivedAt .ofSession execute)
      pure result

def knownTransaction (id : Hash32) : ChainM H Bool := do
  let c ← get
  if c.pending.any fun pool => (pool.pending ++ pool.smart).any fun item => item.id = id then
    pure true
  else
    match ← Prog.attempt (onChainBlocks (fun e => e) (onCache (fun e => .state e.toText)
        (TransactionCache.containsRecent id i64Max))) with
    | .ok true => pure true
    | .ok false | .error (_ : ChainManagerError) =>
      pure (c.blocks.sessions.readView.lookup ⟨.transaction, id.bytes⟩).isSome

def shutdown : ChainM H Unit := do
  ifFull .ofSession PendingPool.discardForkRebuild
  match ← Prog.attempt persist with
  | .error (e : CheckpointError) => throw (.persistence e)
  | .ok _ => pure ()

end ChainManager

/-! ## Runs -/

/-- A request to the chain manager. -/
inductive Request where
  | broadcast (bytes : Bytes) (receivedAt : Int) (smart : Bool)
  | validateBlock (bytes : Bytes) (now : Int)
  | acceptBlock (bytes : Bytes) (receivedAt : Int)
  | replicaBlock (block : RawBlock) (now : Int)
  | known (id : Hash32)
  | shutdown

namespace ChainManager

variable {H : Type} (env : Environment H)

/-- The state after a request. -/
def serve (c : ChainManager H) : Request → ChainManager H
  | .broadcast bytes receivedAt smart => (broadcastRaw env bytes receivedAt smart c).2
  | .validateBlock bytes now => (validateNetworkBlock env bytes now c).2
  | .acceptBlock bytes receivedAt => (acceptNetworkBlock env bytes receivedAt c).2
  | .replicaBlock block now => (applyReplicaBlock env block now c).2
  | .known id => (knownTransaction id c).2
  | .shutdown => (shutdown c).2

/-- The states after any sequence of requests, from a state of `start`. -/
inductive Reachable (start : ChainManager H → Prop) : ChainManager H → Prop
  | start {c : ChainManager H} (h : start c) : Reachable start c
  | serve {c : ChainManager H} (h : Reachable start c) (request : Request) :
      Reachable start (c.serve env request)

end ChainManager

end RustTron.Execution
