import RustTron.State.Checkpoint

/-!
# Maintenance of the checkpoint stack

Beside the publication of the committed layers, the stack can drop the newest of them, move the
oldest into the durable root, and write all of them there. The first two publish what they leave in
the same operation; a flush does not.

## Main definitions

* `CheckpointStack.relink`, `retreatWith`, `compactFinalized`, `flushBounded`
* `Sessions.flushCommitted`, `Sessions.popLayer`, `Sessions.destroy`
-/

namespace RustTron.State

namespace Sessions

/-- `SessionManager::pop`. -/
def popLayer : SessionM Bool := fun s =>
  if s.active ≠ 0 then (.error (.activeSessions s.active), s)
  else
    match s.layers.getLast? with
    | some layer =>
      if layer.committed then (.ok true, { s with layers := s.layers.dropLast })
      else (.error .invalidSession, s)
    | none => (.ok false, s)

def destroy : SessionM Unit := fun s =>
  if s.active ≠ 0 then (.error (.activeSessions s.active), s)
  else (.ok (), { s with layers := [] })

/-- `flush_committed_locked`: the number of layers written to the root. -/
def flushCommitted : SessionM Nat := do
  let s ← get
  if s.active ≠ 0 then throw (.activeSessions s.active)
  if s.layers.any (fun layer => !layer.committed) then throw .invalidSession
  let merged := s.layers.foldl (fun merged layer => layer.values ∪ merged) (∅ : Overlay)
  if merged.entries.card ≠ 0 then
    Prog.mapError (fun _ => .storage "write failed")
      (commitBatch fun root => { root with rows := FMap.overlay root.rows merged })
  modify fun s => { s with layers := [] }
  pure s.layers.length

end Sessions

namespace CheckpointStack

def relink (limits : CheckpointLimits) : Prog Sessions CheckpointError Nat := do
  match ← recoverAndRelink limits with
  | some count => pure count
  | none => throw (.corrupt "missing current checkpoint")

/-- `CheckpointStack::retreat_with`, and `SessionManager::retreat_checkpoint_with`. -/
def retreatWith (limits : CheckpointLimits) (count : Nat) :
    Prog Sessions CheckpointError Nat := do
  if limits.maxFlushCount < count then throw (.limit "maximum retreat count exceeded")
  let s ← get
  let current ← Prog.ofExcept .session s.checkpointState
  let retained := current.layers.length - count
  let historyRetained := current.history.length - count
  let checkpoint : CheckpointState :=
    ⟨current.layers.take retained, current.history.take historyRetained⟩
  let result ← publish limits checkpoint
  modify fun s => { s with
    layers := s.layers.take retained
    checkpoints := s.checkpoints.take checkpoint.history.length }
  pure result

/-- The history from the anchor on, whose first entry loses its parent. -/
def orphanFirst : List CheckpointHistory → List CheckpointHistory
  | [] => []
  | first :: rest => { first with parent := none } :: rest

/-- `CheckpointStack::compact_finalized`: the number of layers that went into the root. -/
def compactFinalized (limits : CheckpointLimits) (anchor : CursorPoint) :
    Prog Sessions CheckpointError Nat := do
  let s ← get
  let current ← Prog.ofExcept .session s.checkpointState
  match current.history.findIdx? fun entry => entry.point = anchor with
  | none => throw (.cursor .unrelatedCheckpoint)
  | some anchorIndex =>
    let removeLayers := min anchorIndex current.layers.length
    let retained : CheckpointState :=
      ⟨current.layers.drop removeLayers, orphanFirst (current.history.drop anchorIndex)⟩
    if retained.history.isEmpty then throw (.corrupt "missing finalized anchor")
    let encoded ← Prog.ofExcept id (retained.encode limits)
    commitBatch fun root => { root with
      rows := (current.layers.take removeLayers).foldl
        (fun rows layer => FMap.overlay rows layer.values) root.rows
      current := some encoded
      staged := none }
    let _ ← relink limits
    pure removeLayers

def flushBounded (limits : CheckpointLimits) : Prog Sessions CheckpointError Nat := do
  let s ← get
  if limits.maxFlushCount < s.layers.length then throw (.limit "maximum flush count exceeded")
  Prog.mapError .session Sessions.flushCommitted

end CheckpointStack

end RustTron.State
