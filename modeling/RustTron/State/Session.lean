import RustTron.State.Store
import RustTron.Library.Prog

/-!
# Sessions

The session manager keeps a stack of overlay layers over the durable root. A session owns one
layer; only the session of the top layer may write, and the committed layers under it are what a
read view shows. Each checkpoint holds the identity of a block and the whole image of the state
after it.

A session handle is the id of its layer, or `none` for a session of a disabled manager. The flag
that makes a second finish of one handle do nothing is left out: no modelled caller uses a handle
again once an operation on it has succeeded, and `Session.drop` stands where a handle goes out of
scope unfinished. The wrap of the id counter at `2 ^ 64` is left out as well.

## Main definitions

* `OverlayLayer`, `CommittedCheckpoint`, `Sessions`: `ManagerState`, the state of the manager
* `Sessions.readView`, `Session.rows`, `Session.view`: the images a reader sees
* `Sessions.buildRoot`, `buildChild`, `buildPendingOuter`: opening a layer
* `Session.finish`, `Session.commitWithCheckpoint`, `Session.close`: closing one
* `Sessions.recordCheckpoint`, `rewindCheckpoint`, `checkpointState`: the checkpoint history
-/

namespace RustTron.State

/-- `OverlayLayer`. The second index of the market rows is left out: it holds the same writes. -/
structure OverlayLayer where
  values : Overlay
  committed : Bool
  abandoned : Bool
  disableOnExit : Bool
  id : Nat

/-- A layer that still takes part in `active`. -/
def OverlayLayer.isActive (layer : OverlayLayer) : Bool := !layer.committed && !layer.abandoned

/-- A committed layer that a read view includes. -/
def OverlayLayer.isSettled (layer : OverlayLayer) : Bool := layer.committed && !layer.abandoned

/-- `CheckpointIdentity`: the 32 bytes of a block id. -/
abbrev CheckpointIdentity := Hash32

structure CursorPoint where
  block : Nat
  identity : CheckpointIdentity
  deriving DecidableEq

structure CommittedCheckpoint where
  point : CursorPoint
  parent : Option CheckpointIdentity
  view : Image

structure CheckpointLayer where
  id : Nat
  committed : Bool
  values : Overlay

structure CheckpointHistory where
  point : CursorPoint
  parent : Option CheckpointIdentity
  image : Image

/-- `CheckpointState`: what a checkpoint publication stores. -/
structure CheckpointState where
  layers : List CheckpointLayer
  history : List CheckpointHistory

/-- `StateStore`, the durable root: its rows, the staged and the current checkpoint publication
among its metadata, and whether each of the next batches to be committed fails. -/
structure StateStore where
  rows : Image
  staged : Option CheckpointState
  current : Option CheckpointState
  faults : List Bool

inductive SessionError where
  | disabled
  | noActiveSession
  | activeSessions (count : Nat)
  | invalidDepth (expected actual : Nat)
  | invalidSession
  | alreadyFinalized
  | storage (message : String)
  | concurrentPending
  deriving DecidableEq, Repr

/-- `Display` of `SessionError`. -/
def SessionError.toText : SessionError → String
  | disabled => "session manager is disabled"
  | noActiveSession => "there is no active session"
  | activeSessions count => s!"operation requires no active sessions, found {count}"
  | invalidDepth expected actual =>
    s!"invalid overlay depth: expected {expected}, found {actual}"
  | invalidSession => "session is not the active top layer"
  | alreadyFinalized => "session is already finalized"
  | concurrentPending => "a pending outer session is already held"
  | storage message => s!"storage error: {message}"

inductive CursorError where
  | negativePbftOffset (offset : Int)
  | identityMismatch
  | unrelatedCheckpoint
  | uncommittedState
  | missingCheckpoint
  | beyondHead (requested head : Nat)
  deriving DecidableEq, Repr

/-- `ManagerState`. -/
structure Sessions where
  root : StateStore
  layers : List OverlayLayer
  checkpoints : List CommittedCheckpoint
  enabled : Bool
  active : Nat
  nextId : Nat
  pendingOuter : Option Nat

/-- A handle of a session: the id of its layer, or `none` where the manager is disabled. -/
abbrev Session := Option Nat

/-- Operations of the session manager. -/
abbrev SessionM := Prog Sessions SessionError

/-- The layers below the one with this id, the layer, and those above it. -/
def locate (id : Nat) : List OverlayLayer →
    Option (List OverlayLayer × OverlayLayer × List OverlayLayer)
  | [] => none
  | layer :: above =>
    if layer.id = id then some ([], layer, above)
    else (locate id above).map fun found => (layer :: found.1, found.2)

def captureWhere (root : StateStore) (layers : List OverlayLayer)
    (keep : OverlayLayer → Bool) : Image :=
  (layers.filter keep).foldl (fun image layer => FMap.overlay image layer.values) root.rows

namespace Sessions

def new (root : StateStore) : Sessions where
  root := root
  layers := []
  checkpoints := []
  enabled := true
  active := 0
  nextId := 1
  pendingOuter := none

/-- `SessionManager::read_view`: the durable root and the committed layers. -/
def readView (s : Sessions) : Image := captureWhere s.root s.layers OverlayLayer.isSettled

def checkpointPoints (s : Sessions) : List CursorPoint := s.checkpoints.map (·.point)

def pushLayer (temporarilyEnable : Bool) (s : Sessions) : Sessions where
  root := s.root
  layers := s.layers ++ [{
    values := ∅
    committed := false
    abandoned := false
    disableOnExit := temporarilyEnable && !s.enabled
    id := s.nextId }]
  checkpoints := s.checkpoints
  enabled := s.enabled || temporarilyEnable
  active := s.active + 1
  nextId := s.nextId + 1
  pendingOuter := s.pendingOuter

def buildRoot (temporarilyEnable : Bool) : SessionM Session := fun s =>
  if s.active ≠ 0 then (.error (.activeSessions s.active), s)
  else if !s.enabled && !temporarilyEnable then (.ok none, s)
  else (.ok (some s.nextId), s.pushLayer temporarilyEnable)

def buildSessionEnabled : SessionM Session := buildRoot true

/-- `Session::child`, `SessionManager::build_child`. -/
def buildChild (parent : Session) : SessionM Session := fun s =>
  match parent, s.layers.getLast? with
  | some id, some layer =>
    if layer.id ≠ id || layer.committed || layer.abandoned then (.error .invalidSession, s)
    else (.ok (some s.nextId), s.pushLayer true)
  | _, _ => (.error .invalidSession, s)

def buildPendingOuter : SessionM Nat := fun s =>
  if s.pendingOuter.isSome then (.error .concurrentPending, s)
  else if s.active ≠ 0 then (.error (.activeSessions s.active), s)
  else (.ok s.nextId, { s.pushLayer true with pendingOuter := some s.nextId })

def releasePendingOuter (id : Nat) (s : Sessions) : Sessions :=
  if s.pendingOuter = some id then { s with pendingOuter := none } else s

def forceResetPendingOuter (s : Sessions) : Sessions :=
  match s.pendingOuter with
  | none => s
  | some id =>
    let s := { s with pendingOuter := none }
    match locate id s.layers with
    | none => s
    | some (below, layer, above) =>
      let discarded := layer :: above
      { s with
        layers := below
        active := s.active - (discarded.filter OverlayLayer.isActive).length
        enabled := s.enabled && !discarded.any OverlayLayer.disableOnExit }

def recordCheckpoint (point : CursorPoint) : Prog Sessions CursorError Unit := fun s =>
  if s.active ≠ 0 || s.layers.any (fun layer => !layer.isSettled) then (.error .uncommittedState, s)
  else if s.checkpoints.any (fun c => c.point.identity = point.identity) then
    (.error .identityMismatch, s)
  else if s.checkpoints.getLast?.any (fun head => point.block ≤ head.point.block) then
    (.error .unrelatedCheckpoint, s)
  else
    let view := captureWhere s.root s.layers fun layer => !layer.abandoned
    let parent := s.checkpoints.getLast?.map (·.point.identity)
    (.ok (), { s with checkpoints := s.checkpoints ++ [⟨point, parent, view⟩] })

def rewindCheckpoint (expected : CheckpointIdentity) : SessionM Bool := fun s =>
  if s.active ≠ 0 then (.error (.activeSessions s.active), s)
  else
    match s.layers.getLast?, s.checkpoints.getLast? with
    | none, none => (.ok false, s)
    | none, some _ => (.error .invalidSession, s)
    | some _, none => (.error .invalidSession, s)
    | some layer, some checkpoint =>
      if !layer.isSettled || checkpoint.point.identity ≠ expected then (.error .invalidSession, s)
      else (.ok true, { s with
        layers := s.layers.dropLast
        checkpoints := s.checkpoints.dropLast })

def checkpointState (s : Sessions) : Except SessionError CheckpointState :=
  if s.active ≠ 0 then .error (.activeSessions s.active)
  else if s.layers.any (fun layer => !layer.isSettled) then .error .invalidSession
  else .ok {
    layers := s.layers.map fun layer => ⟨layer.id, true, layer.values⟩
    history := s.checkpoints.map fun c => ⟨c.point, c.parent, c.view⟩ }

/-- `SessionManager::replace_checkpoint_state_from`, after the load. -/
def replaceCheckpointState (checkpoint : CheckpointState) : SessionM Nat := fun s =>
  if s.active ≠ 0 then (.error (.activeSessions s.active), s)
  else if checkpoint.layers.any (fun layer => !layer.committed) then (.error .invalidSession, s)
  else (.ok checkpoint.layers.length, { s with
    nextId := (checkpoint.layers.map (·.id)).foldl max 0 + 1
    layers := checkpoint.layers.map fun layer =>
      { values := layer.values, committed := true, abandoned := false, disableOnExit := false,
        id := layer.id }
    checkpoints := checkpoint.history.map fun entry => ⟨entry.point, entry.parent, entry.image⟩ })

/-- `SessionManager::shutdown`, with `flush_committed` false; the backend's flush and close do not
change what the root holds. -/
def shutdownUnflushed : SessionM Unit := fun s =>
  if s.active ≠ 0 then (.error (.activeSessions s.active), s)
  else (.ok (), { s with layers := [] })

/-- `state.active = state.active.checked_sub(count).ok_or(NoActiveSession)?`. -/
def subActive (count : Nat) : SessionM Unit := fun s =>
  if count ≤ s.active then (.ok (), { s with active := s.active - count })
  else (.error .noActiveSession, s)

/-- The end of `Session::finish`: layers from the first abandoned one on go with it, and a
manager that the session had enabled is disabled again. -/
def sweep (disableOnExit : Bool) : SessionM Unit := do
  let s ← get
  let abandoned := s.layers.dropWhile fun layer => !layer.abandoned
  set { s with layers := s.layers.takeWhile fun layer => !layer.abandoned }
  subActive (abandoned.filter OverlayLayer.isActive).length
  if disableOnExit || abandoned.any OverlayLayer.disableOnExit then
    modify fun s => { s with enabled := false }

end Sessions

inductive Finish where
  | commit
  | merge
  | revoke
  deriving DecidableEq

namespace Session

def finish (how : Finish) (session : Session) : SessionM Unit := do
  match session with
  | none => pure ()
  | some id =>
    let s ← get
    match locate id s.layers with
    | none => throw .invalidSession
    | some (below, layer, above) =>
      if layer.committed || layer.abandoned then throw .invalidSession
      else if how ≠ .revoke && !above.all OverlayLayer.isSettled then throw .invalidSession
      else
        match how with
        | .commit =>
          set { s with layers := below ++ { layer with committed := true } :: above }
          Sessions.subActive 1
          Sessions.sweep layer.disableOnExit
        | .merge =>
          match below.getLast? with
          | none => throw (.invalidDepth 2 s.layers.length)
          | some predecessor =>
            -- later layers win over earlier ones
            let merged := (layer :: above).foldl (fun values l => l.values ∪ values)
              predecessor.values
            set { s with layers := below.dropLast ++ [{ predecessor with values := merged }] }
            Sessions.subActive 1
            Sessions.sweep ((layer :: above).any OverlayLayer.disableOnExit)
        | .revoke =>
          let discarded := layer :: above
          set { s with layers := below }
          Sessions.subActive (discarded.filter OverlayLayer.isActive).length
          Sessions.sweep (discarded.any OverlayLayer.disableOnExit)

def merge (session : Session) : SessionM Unit := finish .merge session

def revoke (session : Session) : SessionM Unit := finish .revoke session

def close (session : Session) : SessionM Unit := do
  match session with
  | none => pure ()
  | some id =>
    let s ← get
    match locate id s.layers with
    | none => throw .invalidSession
    | some (below, layer, above) =>
      if above.any OverlayLayer.isActive then
        set { s with layers := below ++ { layer with abandoned := true } :: above }
        Sessions.subActive 1
        throw .invalidSession
      else revoke session

/-- `Drop for Session`. -/
def drop (session : Session) : SessionM Unit := do
  let _ ← (Prog.attempt (close session) : SessionM (Except SessionError Unit))
  pure ()

/-- `let _ = session.revoke()`, and the drop that follows where the revoke failed. -/
def discard (session : Session) : SessionM Unit := do
  match ← (Prog.attempt (revoke session) : SessionM (Except SessionError Unit)) with
  | .ok () => pure ()
  | .error _ => drop session

def commitWithCheckpoint (session : Session) (point : CursorPoint) : SessionM Unit := do
  match session with
  | none => pure ()
  | some id =>
    let s ← get
    match locate id s.layers with
    | none => throw .invalidSession
    | some (below, layer, above) =>
      if layer.committed || layer.abandoned || above.any (fun l => !l.isSettled) ||
          s.checkpoints.any (fun c => c.point.identity = point.identity) ||
          s.checkpoints.getLast?.any (fun head => point.block ≤ head.point.block) then
        throw .invalidSession
      else
        let view := captureWhere s.root s.layers fun l => !l.abandoned
        let parent := s.checkpoints.getLast?.map (·.point.identity)
        set { s with layers := below ++ { layer with committed := true } :: above }
        Sessions.subActive 1
        modify fun s => { s with
          checkpoints := s.checkpoints ++ [⟨point, parent, view⟩]
          enabled := s.enabled && !layer.disableOnExit }

/-- `OverlayStore::valid_index`: the session owns the top layer, and has not finished it. -/
def ownsTop (session : Session) (s : Sessions) : Bool :=
  match session, s.layers.getLast? with
  | some id, some layer => layer.id = id && layer.isActive
  | _, _ => false

/-- The rows that the stores of a session read. -/
def rows (session : Session) (s : Sessions) : Image :=
  if ownsTop session s then
    s.layers.foldl (fun image layer => FMap.overlay image layer.values) s.root.rows
  else ∅

def view (session : Session) (s : Sessions) : Image :=
  match session.bind fun id => locate id s.layers with
  | some (below, layer, _) => captureWhere s.root (below ++ [layer]) fun l => !l.abandoned
  | none => s.root.rows

def mutate (session : Session) (key : RowKey) (value : Write Bytes) : SessionM Unit := fun s =>
  match s.layers.getLast? with
  | some layer =>
    if ownsTop session s then
      (.ok (), { s with
        layers := s.layers.dropLast ++ [{ layer with values := layer.values.insert key value }] })
    else (.error .invalidSession, s)
  | none => (.error .invalidSession, s)

def put (session : Session) (store : StoreKind) (key value : Bytes) : SessionM Unit :=
  mutate session ⟨store, key⟩ (.put value)

/-- A sequence of puts and deletes. -/
def mutateAll (session : Session) (writes : List (RowKey × Write Bytes)) : SessionM Unit :=
  writes.forM fun w => mutate session w.1 w.2

end Session

/-- `PendingSession::close`, of the session with the outer layer `id`. -/
def PendingSession.close (id : Nat) : SessionM Unit := do
  Session.revoke (some id)
  modify (Sessions.releasePendingOuter id)

end RustTron.State
