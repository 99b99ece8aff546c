import RustTron.State.Checkpoint

/-!
# Cursors

The head, solidity and PBFT cursors each show one checkpoint of the history. They are rebuilt at
start-up from markers, which `CursorSet::reconstruct` reads from the durable root.

## Main definitions

* `CursorSet`, `CursorSet.new`, `CursorSet.reconstruct`
-/

namespace RustTron.State

/-- A cursor: a checkpoint and its image. -/
structure Cursor where
  point : CursorPoint
  view : Image

structure CursorSet where
  head : Cursor
  solidity : Cursor
  pbft : Cursor
  pbftOffset : Nat

namespace CursorSet

/-- The cursor at a checkpoint. -/
def cursorAt (checkpoint : CommittedCheckpoint) : Cursor := ⟨checkpoint.point, checkpoint.view⟩

/-- The checkpoint with this identity. -/
def findCheckpoint (history : List CommittedCheckpoint) (identity : CheckpointIdentity) :
    Option CommittedCheckpoint :=
  history.find? fun c => c.point.identity = identity

/-- `is_ancestor`. The walk ends within the history, whose entries name the one before them as
their parent; the fuel is its length. -/
def isAncestor (history : List CommittedCheckpoint) (ancestor : CheckpointIdentity) :
    Nat → CheckpointIdentity → Bool
  | 0, descendant => ancestor = descendant
  | fuel + 1, descendant =>
    if ancestor = descendant then true
    else
      match findCheckpoint history descendant with
      | none => false
      | some checkpoint =>
        match checkpoint.parent with
        | none => false
        | some parent => isAncestor history ancestor fuel parent

def resolve (history : List CommittedCheckpoint) (point : CursorPoint)
    (head : CheckpointIdentity) : Except CursorError CommittedCheckpoint :=
  match findCheckpoint history point.identity with
  | none => .error .unrelatedCheckpoint
  | some checkpoint =>
    if checkpoint.point ≠ point then .error .identityMismatch
    else if !isAncestor history checkpoint.point.identity history.length head then
      .error .unrelatedCheckpoint
    else .ok checkpoint

def ancestorAt (history : List CommittedCheckpoint) :
    Nat → CheckpointIdentity → Except CursorError CommittedCheckpoint
  | offset, identity =>
    match findCheckpoint history identity with
    | none => .error .unrelatedCheckpoint
    | some current =>
      match offset, current.parent with
      | 0, _ => .ok current
      | _ + 1, none => .ok current
      | offset + 1, some parent => ancestorAt history offset parent

def new (s : Sessions) (head : CursorPoint) (solidity pbft : Option CursorPoint)
    (pbftOffset : Int) : Except CursorError CursorSet := do
  match s.checkpoints.getLast? with
  | none => throw .missingCheckpoint
  | some committedHead =>
    if committedHead.point ≠ head then throw .identityMismatch
    let solidity ← resolve s.checkpoints (solidity.getD head) committedHead.point.identity
    if pbftOffset < 0 then throw (.negativePbftOffset pbftOffset)
    match pbft with
    | none =>
      pure ⟨cursorAt committedHead, cursorAt solidity, cursorAt solidity, 0⟩
    | some expected =>
      let resolved ← ancestorAt s.checkpoints pbftOffset.toNat committedHead.point.identity
      if resolved.point ≠ expected then throw .identityMismatch
      pure ⟨cursorAt committedHead, cursorAt solidity, cursorAt resolved, pbftOffset.toNat⟩

/-- `marker_i64`, and the conversion to a block number that follows it. -/
def markerBlock (value : Option Bytes) : Except CursorError Nat :=
  match value with
  | none => .error .missingCheckpoint
  | some bytes =>
    match fromBe64 bytes with
    | none => .error .identityMismatch
    | some number => if number < 0 then .error .identityMismatch else .ok number.toNat

/-- `unique_point`, and the missing checkpoint that its callers report. -/
def uniquePoint (history : List CursorPoint) (block : Nat) : Except CursorError CursorPoint :=
  match history.filter fun point => point.block = block with
  | [] => .error .missingCheckpoint
  | [point] => .ok point
  | _ => .error .identityMismatch

/-- The key of the PBFT marker in the common store. -/
def pbftMarker : RowKey := ⟨.common, Marker.key.ascii "LATEST_PBFT_BLOCK_NUM"⟩

def reconstruct (s : Sessions) : Except CursorError CursorSet := do
  let durable := fun key => s.root.rows.lookup key
  let headBlock ← markerBlock (durable Marker.latestBlockHeaderNumber.key)
  match durable Marker.latestBlockHeaderHash.key with
  | none => throw .missingCheckpoint
  | some headHash =>
    match Hash32.ofBytes? headHash with
    | none => throw .identityMismatch
    | some headIdentity =>
      let history := s.checkpointPoints
      let head ← uniquePoint history headBlock
      if head.identity ≠ headIdentity then throw .identityMismatch
      let solidityBlock ← markerBlock (durable Marker.latestSolidifiedBlockNum.key)
      let solidity ← uniquePoint history solidityBlock
      match durable pbftMarker with
      | none => new s head (some solidity) none 0
      | some bytes =>
        let block ← markerBlock (some bytes)
        let pbft ← uniquePoint history block
        let offset := history.findIdx (fun p => p = head) - history.findIdx fun p => p = pbft
        new s head (some solidity) (some pbft) offset

/-- The head cursor of a set is at the last checkpoint of the history. -/
theorem head_of_new {s : Sessions} {head : CursorPoint} {solidity pbft : Option CursorPoint}
    {offset : Int} {cursors : CursorSet} (h : new s head solidity pbft offset = .ok cursors) :
    s.checkpoints.getLast?.map (·.point) = some head := by
  unfold new at h
  split at h
  · cases h
  · rename_i committedHead hl
    rw [hl]
    by_cases hp : committedHead.point = head
    · rw [Option.map_some, hp]
    · simp only [ne_eq, hp, not_false_eq_true, if_true] at h
      cases h

theorem uniquePoint_eq_ok {history : List CursorPoint} {block : Nat} {point : CursorPoint}
    (h : uniquePoint history block = .ok point) : point.block = block := by
  unfold uniquePoint at h
  split at h
  · cases h
  · rename_i found hf
    cases h
    have hm : point ∈ history.filter fun point => point.block = block := by
      rw [hf]
      exact List.mem_singleton_self point
    simpa using (List.mem_filter.mp hm).2
  · cases h

/-- **The rebuilt head is the durable one**: cursors can only be rebuilt where the last checkpoint
has the number of the durable head marker. -/
theorem reconstruct_eq_ok {s : Sessions} {cursors : CursorSet} (h : reconstruct s = .ok cursors) :
    ∃ head, markerBlock (s.root.rows.lookup Marker.latestBlockHeaderNumber.key) = .ok head.block ∧
      s.checkpoints.getLast?.map (·.point) = some head := by
  simp only [reconstruct, bind, Except.bind, throw, throwThe, MonadExceptOf.throw] at h
  split at h
  · cases h
  rename_i block hb
  split at h
  · cases h
  split at h
  · cases h
  split at h
  · cases h
  rename_i head hh
  have hr {solidity pbft : Option CursorPoint} {offset : Int}
      (hn : new s head solidity pbft offset = .ok cursors) :
      ∃ head, markerBlock (s.root.rows.lookup Marker.latestBlockHeaderNumber.key) =
        .ok head.block ∧ s.checkpoints.getLast?.map (·.point) = some head :=
    ⟨head, by rw [uniquePoint_eq_ok hh]; exact hb, head_of_new hn⟩
  repeat' split at h
  all_goals first
    | exact hr h
    | cases h

end CursorSet

end RustTron.State
