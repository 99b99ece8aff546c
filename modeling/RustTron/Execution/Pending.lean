import RustTron.Execution.Block

/-!
# The pending pool

Transactions from the network run in a speculative session over the committed state, the pending
session, and wait in one of three queues. Before canonical state changes the session is suspended;
afterwards it is opened again and the queued transactions are replayed in it.

The pool and the block manager share the session manager, so the operations of the pool act on
both. The test hooks of the source that inject failures are left out.

## Main definitions

* `PendingPool`, `FullNode`: the pool, and the pool with the block manager
* `PendingPool.admitItem`, `replaySpeculative`
* `PendingPool.suspendForFork`, `resumeAfterFork`, `restoreAfterFailedFork`, `discardForkRebuild`
-/

namespace RustTron.Execution

open State

structure PendingLimits where
  maximum : Nat
  timeoutMillis : Int
  shieldedMaximum : Nat
  smartDrainLimit : Nat
  deriving DecidableEq

def PendingLimits.default : PendingLimits := ⟨2000, 60000, 10, 100⟩

structure PendingTransaction where
  id : Hash32
  transaction : RawWireTransaction
  receivedAt : Int
  shielded : Bool
  smart : Bool
  deriving DecidableEq

/-- `PendingReject`, of an admission. -/
inductive PendingReject where
  | duplicate
  | full
  | shieldedFull
  | expired
  | closed
  deriving DecidableEq

inductive BroadcastResult where
  | accepted (transactionId : Hash32)
  | rejected (transactionId : Hash32) (reason : PendingReject)
  deriving DecidableEq

/-- `PendingPool`. The session is the id of the outer layer of its `PendingSession`. -/
structure PendingPool where
  limits : PendingLimits
  pending : List PendingTransaction
  popped : List PendingTransaction
  smart : List PendingTransaction
  shielded : Nat
  session : Option Nat

structure ForkPendingSnapshot where
  pending : List PendingTransaction
  popped : List PendingTransaction
  smart : List PendingTransaction
  shielded : Nat

/-- `ContractEvent`, `BlockEvent` and `FilterEvent`, in the order they are published. Their block
number is the height in the block id. -/
inductive ChainEvent where
  | contract (blockId : BlockId) (transactionId : Hash32) (index : Nat) (removed : Bool)
  | block (blockId : BlockId) (removed : Bool)
  | filterBlock (blockId : BlockId)
  | filterLogs (blockId : BlockId) (removed : Bool)
  deriving DecidableEq

/-- The block manager and the pool of a full node, and what has been published. -/
structure FullNode (H : Type) where
  blocks : BlockManager H
  pool : PendingPool
  events : List ChainEvent

/-- The three queues of the pool. -/
inductive Queue where
  | pending
  | popped
  | smart
  deriving DecidableEq

namespace PendingPool

def new (limits : PendingLimits) : SessionM PendingPool := do
  if limits.maximum = 0 || limits.timeoutMillis ≤ 0 || limits.maximum < limits.shieldedMaximum then
    throw .invalidSession
  let id ← Sessions.buildPendingOuter
  pure ⟨limits, [], [], [], 0, some id⟩

/-- `PendingPool::len`. -/
def length (pool : PendingPool) : Nat :=
  pool.pending.length + pool.popped.length + pool.smart.length

/-- The items of all queues. -/
def items (pool : PendingPool) : List PendingTransaction := pool.pending ++ pool.popped ++ pool.smart

def recount (pool : PendingPool) : PendingPool :=
  { pool with shielded := (pool.items.filter (·.shielded)).length }

def finishForkRequeue (pool : PendingPool) : PendingPool :=
  recount { pool with pending := pool.pending ++ pool.popped, popped := [] }

/-- The queues emptied. -/
def clear (pool : PendingPool) : PendingPool :=
  { pool with pending := [], popped := [], smart := [], shielded := 0 }

/-- An item at the end of its queue. -/
def pushBack (pool : PendingPool) (queue : Queue) (item : PendingTransaction) : PendingPool :=
  match queue with
  | .pending => { pool with pending := pool.pending ++ [item] }
  | .popped => { pool with popped := pool.popped ++ [item] }
  | .smart => { pool with smart := pool.smart ++ [item] }

def restoreReplay (pool : PendingPool) (replay : List (Queue × PendingTransaction)) : PendingPool :=
  recount (replay.foldl (fun pool entry => pool.pushBack entry.1 entry.2) pool)

/-- The queues taken for a replay, in its order. -/
def takeReplay (pool : PendingPool) : List (Queue × PendingTransaction) :=
  pool.pending.map (.pending, ·) ++ pool.popped.map (.popped, ·) ++ pool.smart.map (.smart, ·)

/-- Why an item is refused before it is executed. -/
def refusal (pool : PendingPool) (item : PendingTransaction) (now : Int) : Option PendingReject :=
  if pool.session.isNone then some .closed
  else if pool.limits.timeoutMillis ≤ now - item.receivedAt then some .expired
  else if pool.items.any (fun queued => queued.id = item.id) then some .duplicate
  else if pool.limits.maximum ≤ pool.length then some .full
  else if item.shielded && pool.limits.shieldedMaximum ≤ pool.shielded then some .shieldedFull
  else none

/-- An executed item joins its queue. -/
def enqueue (pool : PendingPool) (item : PendingTransaction) : PendingPool :=
  let pool := { pool with shielded := pool.shielded + if item.shielded then 1 else 0 }
  pool.pushBack (if item.smart then .smart else .pending) item

end PendingPool

variable {H ε : Type}

/-- An operation of the block manager. -/
def onBlocks {α ε' : Type} (f : ε' → ε) (x : Prog (BlockManager H) ε' α) :
    Prog (FullNode H) ε α :=
  Prog.zoom FullNode.blocks (fun node b => { node with blocks := b }) f x

/-- An operation of the session manager. -/
def onNodeSessions {α : Type} (x : SessionM α) : Prog (FullNode H) SessionError α :=
  onBlocks (fun e => e) (onSessions (fun e => e) x)

/-- A change of the pool. -/
def modifyPool (f : PendingPool → PendingPool) : Prog (FullNode H) ε Unit :=
  modify fun node => { node with pool := f node.pool }

namespace PendingPool

/-- `PendingSession::new`, as the session of the pool. -/
def openSession : Prog (FullNode H) SessionError Unit := do
  let id ← onNodeSessions Sessions.buildPendingOuter
  modifyPool fun pool => { pool with session := some id }

def suspendForFork : Prog (FullNode H) SessionError ForkPendingSnapshot := do
  let node ← get
  match node.pool.session with
  | none => throw .invalidSession
  | some id =>
    onNodeSessions (PendingSession.close id)
    modifyPool fun pool => { pool with session := none }
    pure ⟨node.pool.pending, node.pool.popped, node.pool.smart, node.pool.shielded⟩

def restoreAfterFailedFork (snapshot : ForkPendingSnapshot) :
    Prog (FullNode H) SessionError Unit := do
  modifyPool fun pool => { pool with
    pending := snapshot.pending
    popped := snapshot.popped
    smart := snapshot.smart
    shielded := snapshot.shielded }
  openSession

def resumeAfterFork (abandoned : List PendingTransaction) (currentTime : Int) :
    Prog (FullNode H) SessionError Unit := do
  if (← get).pool.session.isSome then throw .invalidSession
  modifyPool fun pool => recount { pool with
    popped := (pool.popped ++ abandoned).map fun item => { item with receivedAt := currentTime } }
  openSession

def discardForkRebuild : Prog (FullNode H) SessionError Unit := do
  let node ← get
  match node.pool.session with
  | none => modifyPool clear
  | some id =>
    modifyPool fun pool => { pool with session := none }
    match ← Prog.attempt (onNodeSessions (PendingSession.close id)) with
    | .ok () => modifyPool clear
    | .error (e : SessionError) =>
      -- the dropped `PendingSession` closes once more
      let _ ← (Prog.attempt (onNodeSessions (PendingSession.close id)) :
        Prog (FullNode H) SessionError (Except SessionError Unit))
      throw e

def forceDiscardForkRebuild : Prog (FullNode H) ε Unit := do
  modify fun node => { node with blocks := { node.blocks with
    sessions := node.blocks.sessions.forceResetPendingOuter } }
  modifyPool fun pool => { clear pool with session := none }

/-- `PendingPool::admit`. -/
def admitItem (item : PendingTransaction) (now : Int) (f : SessionError → ε)
    (execute : Session → Prog (BlockManager H) ε Unit) : Prog (FullNode H) ε BroadcastResult := do
  let node ← get
  match node.pool.refusal item now with
  | some reason => pure (.rejected item.id reason)
  | none =>
    let child ← onBlocks f (onSessions (fun e => e) (Sessions.buildChild node.pool.session))
    match ← Prog.attempt (onBlocks (fun e => e) (execute child)) with
    | .error error =>
      onBlocks f (onSessions (fun e => e) child.discard)
      throw error
    | .ok () =>
      match ← Prog.attempt (onNodeSessions child.merge) with
      | .error error =>
        onBlocks f (onSessions (fun e => e) child.discard)
        throw (f error)
      | .ok () =>
        modifyPool fun pool => pool.enqueue item
        pure (.accepted item.id)

variable (env : Environment H)

/-- One item of a replay, in a child of the pending session: the signature cache is cleared and
the transaction processed. The item as it is left comes with the result. -/
def replayItem (context : ProcessContext) (child : Session) (item : PendingTransaction) :
    Prog (FullNode H) SessionError (Except ProcessError Unit × PendingTransaction) := do
  let node ← get
  let tx := item.transaction.clearSignatureVerificationCache
  let left := { item with transaction := processedTransaction env child tx context node.blocks }
  match ← Prog.attempt (onBlocks (fun e => e) (processInSession env child tx context)) with
  | .ok _ => pure (.ok (), left)
  | .error e => pure (.error e, left)

/-- The loop of `replay_speculative`. -/
def replayLoop (strict : Bool) (context : ProcessContext) (outer : Nat) :
    List (Queue × PendingTransaction) → List (Queue × PendingTransaction) →
      Prog (FullNode H) SessionError Unit
  | [], retained => modifyPool fun pool => pool.restoreReplay retained
  | (queue, item) :: rest, retained => do
    match ← Prog.attempt (onNodeSessions (Sessions.buildChild (some outer))) with
    | .error (e : SessionError) =>
      modifyPool fun pool => pool.restoreReplay (retained ++ (queue, item) :: rest)
      throw e
    | .ok child =>
      let (result, item) ← replayItem env context child item
      match result with
      | .ok () =>
        match ← Prog.attempt (onNodeSessions child.merge) with
        | .ok () => replayLoop strict context outer rest (retained ++ [(queue, item)])
        | .error (e : SessionError) =>
          modifyPool fun pool => pool.restoreReplay (retained ++ (queue, item) :: rest)
          onNodeSessions child.drop
          throw e
      | .error _ =>
        onNodeSessions child.discard
        if strict then
          modifyPool fun pool => pool.restoreReplay (retained ++ (queue, item) :: rest)
          throw .invalidSession
        else replayLoop strict context outer rest retained

def replaySpeculative (strict : Bool) (context : ProcessContext) :
    Prog (FullNode H) SessionError Unit := do
  let node ← get
  match node.pool.session with
  | none => throw .invalidSession
  | some outer =>
    modifyPool fun pool => { pool with pending := [], popped := [], smart := [] }
    replayLoop env strict context outer node.pool.takeReplay []

end PendingPool

end RustTron.Execution
