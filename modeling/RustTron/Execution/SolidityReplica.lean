import RustTron.State.Cursor
import RustTron.State.Restart

/-!
# The solidity replica

A replica asks a trusted node for the blocks below its solid height, one by one, and hands each to
the applier. After an application it publishes the solidity marker, in the durable root; at its
start it moves a marker that is behind to the last checkpoint. The run of the loop is a machine
whose signals are what it waits for: the answers of the node and of the applier, the end of a
sleep, and the cancellation. Each of them may also be the death of the process; the next process
has the sessions that a restart makes from the durable root.

The marker is written to the root and read through the committed layers. A block that writes the
row itself, as the consensus does when the solid height moves, leaves its row over that of the
root.

The queue between the fetch and the application is left out: the loop takes out of it the block it
has just put in.

## Main definitions

* `StateReplicaCheckpoint`, `latestSolidified`, `publish`: the marker and its two operations
* `ReplicaRunner.advance`: what the loop does at a signal
* `CommittedState`, `Sessions.reboot`: what the sessions have committed, and a restart
* `Applier`, `Applier.Exact`: the applier of blocks, and what the replica relies on
* `Lives`, `Ledger`: a life of the replica, over any number of starts, and its record

## Main results

* `Lives.inv`: what holds at every point of a life
* `Lives.gapFree`: the committed heights have no gap; the marker follows them where no block leaves
  a row of another height over the root
* `SampleReplica.marker_shadowed`: a marker that stays behind
-/

namespace RustTron.State

/-- `Display` of `CursorError`, the `Debug` text of the variant. -/
def CursorError.toText : CursorError → String
  | negativePbftOffset offset => s!"cursor error: NegativePbftOffset({offset})"
  | identityMismatch => "cursor error: IdentityMismatch"
  | unrelatedCheckpoint => "cursor error: UnrelatedCheckpoint"
  | uncommittedState => "cursor error: UncommittedState"
  | missingCheckpoint => "cursor error: MissingCheckpoint"
  | beyondHead requested head =>
    s!"cursor error: BeyondHead \x7b requested: {requested}, head: {head} \x7d"

def CursorSet.withLiveSolidity (s : Sessions) (point : CursorPoint) :
    Except CursorError CursorSet := do
  let cursors ← CursorSet.new s point (some point) none 0
  pure { cursors with solidity := ⟨point, s.readView⟩ }

namespace Sessions

def latestCheckpoint (s : Sessions) : Option CursorPoint := s.checkpoints.getLast?.map (·.point)

/-- `SessionManager::publish_committed_metadata`: one row of the root, below all the layers. -/
def publishCommittedMetadata (row : RowKey) (value : Bytes) : SessionM Unit := fun s =>
  match commitBatch (fun root => { root with rows := root.rows.insert row value }) s with
  | (.ok (), s') => (.ok (), s')
  | (.error _, s') => (.error (.storage "write failed"), s')

theorem publishCommittedMetadata_cases (row : RowKey) (value : Bytes) (s : Sessions) :
    (∃ faults, publishCommittedMetadata row value s = (.ok (), { s with root :=
        { s.root with rows := s.root.rows.insert row value, faults := faults } })) ∨
      ∃ e faults, publishCommittedMetadata row value s =
        (.error e, { s with root := { s.root with faults := faults } }) := by
  rcases CheckpointStack.commitBatch_cases
      (fun root => { root with rows := root.rows.insert row value }) s with
    ⟨faults, h⟩ | ⟨e, faults, h⟩
  · exact .inl ⟨faults, by rw [publishCommittedMetadata, h]⟩
  · exact .inr ⟨_, faults, by rw [publishCommittedMetadata, h]⟩

/-- `StateLifecycle::new` and `recover_and_relink`: the sessions of a new process over a durable
root; `none` where they cannot be loaded. -/
def reboot (limits : CheckpointLimits) (root : StateStore) : Option Sessions :=
  match CheckpointStack.recoverAndRelink limits (new root) with
  | (.ok _, s) => some s
  | (.error _, _) => none

end Sessions

/-- What sessions have committed: the rows of the root, the writes of the committed layers over
them, and the points of the checkpoints. -/
@[ext]
structure CommittedState where
  rows : Image
  overlays : List Overlay
  points : List CursorPoint

namespace CommittedState

def view (d : CommittedState) : Image := FMap.overAll d.rows d.overlays

def latest (d : CommittedState) : Option CursorPoint := d.points.getLast?

end CommittedState

def Sessions.committedState (s : Sessions) : CommittedState where
  rows := s.root.rows
  overlays := (s.layers.filter OverlayLayer.isSettled).map (·.values)
  points := s.checkpointPoints

/-- What a root has: its rows, and the layers and the points of its publication. -/
def StateStore.committedState (root : StateStore) : CommittedState where
  rows := root.rows
  overlays := root.publishedLayers
  points := (root.publication.map fun p => p.history.map (·.point)).getD []

namespace Sessions

theorem readView_eq_view (s : Sessions) : s.readView = s.committedState.view := by
  rw [readView, captureWhere, CommittedState.view, FMap.overAll, committedState, List.foldl_map]

theorem latestCheckpoint_eq_latest (s : Sessions) :
    s.latestCheckpoint = s.committedState.latest :=
  List.getLast?_map.symm

/-- The layers of a publication are committed ones. -/
theorem relinked_committedState (root : StateStore) (p : CheckpointState) :
    (relinked root p).committedState =
      ⟨root.rows, p.layers.map (·.values), p.history.map (·.point)⟩ := by
  have hsettled : ∀ layer ∈ (relinked root p).layers, layer.isSettled = true := by
    intro layer hlayer
    obtain ⟨saved, -, rfl⟩ := List.mem_map.mp hlayer
    rfl
  rw [committedState, List.filter_eq_self.mpr hsettled]
  simp [relinked, checkpointPoints, new, Function.comp_def]

/-- **A restart** has what the root has, and leaves a root that has it too. -/
theorem reboot_committedState {limits : CheckpointLimits} {root : StateStore} {s : Sessions}
    (h : reboot limits root = some s) :
    s.committedState = root.committedState ∧ s.root.committedState = root.committedState := by
  have hcurrent {root : StateStore} (hstaged : root.staged = none)
      (h : reboot limits root = some s) : s.committedState = root.committedState ∧ s.root = root := by
    have hpublication : root.publication = root.current := by
      rw [StateStore.publication, hstaged, Option.none_or]
    rw [StateStore.committedState, StateStore.publishedLayers, hpublication]
    cases hp : root.current with
    | none =>
      rw [reboot, CheckpointStack.recoverAndRelink_of_none hstaged hp, Option.some_inj] at h
      subst h
      exact ⟨rfl, rfl⟩
    | some p =>
      cases hd : p.decode limits with
      | error e =>
        rw [reboot, CheckpointStack.recoverAndRelink_new_error hstaged hp hd] at h
        cases h
      | ok decoded =>
        rw [reboot, CheckpointStack.recoverAndRelink_new hstaged hp hd, Option.some_inj] at h
        subst h
        exact ⟨relinked_committedState root p, rfl⟩
  cases hstaged : root.staged with
  | none =>
    obtain ⟨hs, hroot⟩ := hcurrent hstaged h
    exact ⟨hs, by rw [hroot]⟩
  | some p =>
    cases hd : p.decode limits with
    | error e =>
      have hfails : CheckpointStack.recoverAndRelink limits (new root) = (.error e, new root) := by
        simp only [CheckpointStack.recoverAndRelink, CheckpointStack.recoverStore, Prog.bind_run,
          Prog.get_run, new, hstaged, hd]
        rfl
      rw [reboot, hfails] at h
      cases h
    | ok decoded =>
      obtain ⟨rfl, -⟩ := CheckpointState.decode_eq_ok hd
      rcases hb : commitBatch (fun root => { root with current := some decoded, staged := none })
        (new root) with ⟨e | _, u⟩
      · rw [reboot, CheckpointStack.recoverAndRelink_of_staged_error hstaged hd hb] at h
        cases h
      · rw [reboot, CheckpointStack.recoverAndRelink_of_staged hstaged hd hb] at h
        obtain ⟨faults, rfl⟩ := CheckpointStack.commitBatch_eq_ok hb
        obtain ⟨hs, hroot⟩ := @hcurrent ⟨root.rows, none, some decoded, faults⟩ rfl h
        have hsame : StateStore.committedState ⟨root.rows, none, some decoded, faults⟩ =
            root.committedState := by
          simp [StateStore.committedState, StateStore.publishedLayers, StateStore.publication,
            hstaged]
        exact ⟨hs.trans hsame, by rw [hroot, hsame]⟩

end Sessions

end RustTron.State

namespace RustTron.Execution

open State

/-- `StateReplicaCheckpoint`: the sessions, and the cursors last handed to the API. -/
structure StateReplicaCheckpoint where
  sessions : Sessions
  api : Option CursorSet

/-- The operations of the marker. -/
abbrev ReplicaM := Prog StateReplicaCheckpoint String

/-- The marker that an image shows, 0 where it has none. -/
def readMarker (rows : Image) : Except String Int :=
  match rows.lookup Marker.latestSolidifiedBlockNum.key with
  | none => .ok 0
  | some bytes =>
    match fromBe64 bytes with
    | none => .error "LATEST_SOLIDIFIED_BLOCK_NUM is not i64"
    | some number => .ok number

namespace StateReplicaCheckpoint

/-- The end of both operations: the marker, and then the cursors of the API. -/
def publishMarker (height : Int) (point : CursorPoint) : ReplicaM Unit := do
  Prog.zoom sessions (fun c s => { c with sessions := s }) SessionError.toText
    (Sessions.publishCommittedMetadata Marker.latestSolidifiedBlockNum.key (be64 height))
  let c ← get
  let cursors ← Prog.ofExcept CursorError.toText (CursorSet.withLiveSolidity c.sessions point)
  set { c with api := some cursors }

def latestSolidified : ReplicaM Int := do
  let c ← get
  let published ← Prog.ofExcept id (readMarker c.sessions.readView)
  match c.sessions.latestCheckpoint with
  | none => pure published
  | some committed =>
    if 2 ^ 63 ≤ committed.block then throw "committed checkpoint height exceeds i64"
    else if committed.block < published then
      throw s!"solidified marker {published} is ahead of committed checkpoint {committed.block}"
    else if published < committed.block then do
      publishMarker committed.block committed
      pure (committed.block : Int)
    else pure (committed.block : Int)

def publish (height : Int) : ReplicaM Unit := do
  let c ← get
  match c.sessions.latestCheckpoint with
  | none => throw "missing committed block checkpoint"
  | some point =>
    if height < 0 then throw "negative solidified height"
    else if (point.block : Int) ≠ height then
      throw s!"checkpoint height {point.block} does not match applied height {height}"
    else publishMarker height point

end StateReplicaCheckpoint

/-! ## The loop -/

/-- Where the loop of `ReplicaRunner::run` stands. -/
inductive Stage (B : Type) where
  /-- Not started, or the process has died. -/
  | idle
  /-- `run` has returned. -/
  | stopped (result : Except String Unit)
  /-- In `get_dynamic_properties`. -/
  | polling (next : Int)
  /-- In `get_block_by_num`. -/
  | fetching (next : Int)
  /-- In `apply_verified`. -/
  | applying (next : Int) (block : B)
  /-- In `sleep_or_cancel`. -/
  | sleeping (next : Int)

/-- The height that the loop is at. -/
def Stage.next {B : Type} : Stage B → Option Int
  | idle => none
  | stopped _ => none
  | polling next => some next
  | fetching next => some next
  | applying next _ => some next
  | sleeping next => some next

/-- The block that the applier is at. -/
def Stage.block {B : Type} : Stage B → Option B
  | applying _ block => some block
  | _ => none

/-- What the loop waits for. A signal that may find the applier at work has the sessions that the
applier leaves, or the durable root where the process dies. -/
inductive Signal (B : Type) where
  | start (cancelled : Bool)
  | cancel
  | interrupted (after : Sessions)
  | killed (root : StateStore)
  | slept
  | properties (answer : Except String Int)
  | fetched (answer : Except String B)
  | applied (answer : Except String Int) (after : Sessions)

/-- `ReplicaRunner`, the token of its cancellation, and where its loop stands. -/
structure ReplicaRunner (B : Type) where
  checkpoint : StateReplicaCheckpoint
  cancelled : Bool
  stage : Stage B

namespace ReplicaRunner

variable {B : Type}

/-- The top of the loop. -/
def top (next : Int) (r : ReplicaRunner B) : ReplicaRunner B :=
  { r with stage := if r.cancelled then .stopped (.ok ()) else .polling next }

/-- The start of `run` under a token, which may be cancelled already. -/
def start (cancelled : Bool) (r : ReplicaRunner B) : ReplicaRunner B :=
  match StateReplicaCheckpoint.latestSolidified r.checkpoint with
  | (.error e, c) => ⟨c, cancelled, .stopped (.error e)⟩
  | (.ok height, c) =>
    match checkedAdd height 1 with
    | none => ⟨c, cancelled, .stopped (.error "solidified height overflow")⟩
    | some next => top next ⟨c, cancelled, .idle⟩

/-- The end of an application of the block of the height `next`. -/
def finish (next : Int) (answer : Except String Int) (r : ReplicaRunner B) : ReplicaRunner B :=
  if answer = .ok next then
    if r.cancelled then { r with stage := .stopped (.ok ()) }
    else
      match StateReplicaCheckpoint.publish next r.checkpoint with
      | (.error e, c) => { r with checkpoint := c, stage := .stopped (.error e) }
      | (.ok (), c) =>
        match checkedAdd next 1 with
        | none => { r with
            checkpoint := c, stage := .stopped (.error "solidified height overflow") }
        | some next => top next { r with checkpoint := c }
  else if r.cancelled then { r with stage := .stopped (.ok ()) }
  else { r with stage := .sleeping next }

/-- The runner over the sessions that the applier leaves. -/
def leave (after : Sessions) (r : ReplicaRunner B) : ReplicaRunner B :=
  { r with checkpoint.sessions := after }

/-- What the loop does at a signal; `none` where it does not wait for it, or no process starts. -/
def advance (limits : CheckpointLimits) (number : B → Option Int) (r : ReplicaRunner B) :
    Signal B → Option (ReplicaRunner B)
  | .start cancelled =>
    match r.stage with
    | .idle => some (r.start cancelled)
    | .stopped _ => some (r.start cancelled)
    | _ => none
  | .cancel => some { r with cancelled := true }
  | .interrupted after =>
    if r.cancelled ∧ r.stage.next.isSome then
      some { r.leave after with stage := .stopped (.ok ()) }
    else none
  | .killed root =>
    (Sessions.reboot limits root).map fun sessions => ⟨⟨sessions, none⟩, false, .idle⟩
  | .slept =>
    match r.stage with
    | .sleeping next => some (r.top next)
    | _ => none
  | .properties answer =>
    match r.stage, answer with
    | .polling next, .ok solid =>
      some { r with stage := if solid < next then .sleeping next else .fetching next }
    | .polling next, .error _ => some { r with stage := .sleeping next }
    | _, _ => none
  | .fetched answer =>
    match r.stage, answer with
    | .fetching next, .ok block =>
      some { r with
        stage := if number block ≠ some next then .sleeping next else .applying next block }
    | .fetching next, .error _ => some { r with stage := .sleeping next }
    | _, _ => none
  | .applied answer after =>
    match r.stage with
    | .applying next _ => some ((r.leave after).finish next answer)
    | _ => none

end ReplicaRunner

/-! ## The applier and the record -/

/-- `VerifiedBlockApplier`: the number in the header of a block, and what a call of
`apply_verified` may do: how it ends, what it leaves where it is dropped on the way, and the root
that it leaves where the process dies. -/
structure Applier (B : Type) where
  number : B → Option Int
  ends : B → Sessions → Except String Int → Sessions → Prop
  dropped : B → Sessions → Sessions → Prop
  died : B → Sessions → StateStore → Prop

/-- The block is committed with its checkpoint, and its rows are in a layer over the root. -/
structure Commits (number : Option Int) (d d' : CommittedState) : Prop where
  rows : d'.rows = d.rows
  overlays : ∃ values, d'.overlays = d.overlays ++ [values]
  points : ∃ point : CursorPoint, number = some (point.block : Int) ∧
    d'.points = d.points ++ [point]

/-- The root has what the sessions have committed. -/
def Saved (s : Sessions) : Prop := s.root.committedState = s.committedState

/-- **What the replica relies on**: a call commits exactly the given block with its checkpoint, in
the sessions and in the root, or changes nothing; and a call that ends without the number of the
block has changed nothing. -/
structure Applier.Exact {B : Type} (applier : Applier B) : Prop where
  ends : ∀ {block s answer s'}, applier.ends block s answer s' → s' = s ∨
    Commits (applier.number block) s.committedState s'.committedState ∧ Saved s' ∧
      applier.number block = answer.toOption
  dropped : ∀ {block s s'}, applier.dropped block s s' → s' = s ∨
    Commits (applier.number block) s.committedState s'.committedState ∧ Saved s'
  died : ∀ {block s root}, applier.died block s root →
    root.committedState = s.committedState ∨
      Commits (applier.number block) s.committedState root.committedState

/-- What a signal brings is what the applier can leave, or what the runner has where the applier is
not at work. -/
def Applier.Admits {B : Type} (applier : Applier B) (r : ReplicaRunner B) : Signal B → Prop
  | .interrupted after =>
    match r.stage.block with
    | some block => applier.dropped block r.checkpoint.sessions after
    | none => after = r.checkpoint.sessions
  | .killed root =>
    match r.stage.block with
    | some block => applier.died block r.checkpoint.sessions root
    | none => root = r.checkpoint.sessions.root
  | .applied answer after =>
    match r.stage.block with
    | some block => applier.ends block r.checkpoint.sessions answer after
    | none => False
  | _ => True

/-- The row of the marker. -/
abbrev markerKey : RowKey := Marker.latestSolidifiedBlockNum.key

/-- A step that commits no layer, or after which no layer writes the marker, or that commits a
layer which writes it with the height of the block. -/
def ClearStep (d d' : CommittedState) : Prop :=
  d'.overlays = d.overlays ∨ FMap.topWrite d'.overlays markerKey = none ∨
    ∃ point, d'.latest = some point ∧
      d'.overlays.getLast?.bind (·.lookup markerKey) = some (.put (be64 point.block))

/-- What has happened in a life: the solid heights that the node has reported, the heights whose
blocks were handed to the applier, those it has committed, the markers that were to be read, and
that all steps were clear. -/
structure Ledger where
  reported : List Int
  applied : List Int
  committed : List Int
  shown : List Int
  clear : Prop

/-- The heights of the checkpoints that `d'` has and `d` has not. -/
def newHeights (d d' : CommittedState) : List Int :=
  (d'.points.drop d.points.length).map fun point => (point.block : Int)

/-- The marker that is to be read. -/
def shownMarker (d : CommittedState) : List Int := (readMarker d.view).toOption.toList

/-- What the sessions of a runner have committed. -/
def ReplicaRunner.state {B : Type} (r : ReplicaRunner B) : CommittedState :=
  r.checkpoint.sessions.committedState

/-- The record after a step of the runner. -/
def Ledger.record {B : Type} (ledger : Ledger) (r : ReplicaRunner B) (signal : Signal B)
    (r' : ReplicaRunner B) : Ledger where
  reported := ledger.reported ++
    match signal with
    | .properties (.ok solid) => [solid]
    | _ => []
  applied := ledger.applied ++
    match r.stage.block, r'.stage.block with
    | none, some _ => r'.stage.next.toList
    | _, _ => []
  committed := ledger.committed ++ newHeights r.state r'.state
  shown := ledger.shown ++ shownMarker r'.state
  clear := ledger.clear ∧ ClearStep r.state r'.state

theorem Ledger.record_committed {B : Type} (ledger : Ledger) (r : ReplicaRunner B)
    (signal : Signal B) (r' : ReplicaRunner B) :
    (ledger.record r signal r').committed = ledger.committed ++ newHeights r.state r'.state := rfl

/-- A life of the replica from what a process finds in a root, over any number of starts. -/
inductive Lives {B : Type} (applier : Applier B) (limits : CheckpointLimits)
    (durable : CommittedState) : ReplicaRunner B → Ledger → Prop
  | begin {root : StateStore} {sessions : Sessions} :
    Sessions.reboot limits root = some sessions → sessions.committedState = durable →
      Lives applier limits durable ⟨⟨sessions, none⟩, false, .idle⟩
        ⟨[], [], [], shownMarker durable, True⟩
  | step {r r' : ReplicaRunner B} {ledger : Ledger} (signal : Signal B) :
    Lives applier limits durable r ledger → applier.Admits r signal →
      r.advance limits applier.number signal = some r' →
      Lives applier limits durable r' (ledger.record r signal r')

/-! ## The marker -/

/-- The sessions `s'` differ from `s` in the root at most, and in the marker row of it only if it
now has the height of the last checkpoint. -/
structure Raised (s s' : Sessions) : Prop where
  checkpoints : s'.checkpoints = s.checkpoints
  layers : s'.layers = s.layers
  publication : s'.root.publication = s.root.publication
  row : s'.root.rows.lookup markerKey = s.root.rows.lookup markerKey ∨
    ∃ point, s.latestCheckpoint = some point ∧ InI64 point.block ∧
      s'.root.rows.lookup markerKey = some (be64 point.block)

namespace Raised

variable {s s' : Sessions}

theorem refl (s : Sessions) : Raised s s := ⟨rfl, rfl, rfl, .inl rfl⟩

theorem overlays (h : Raised s s') : s'.committedState.overlays = s.committedState.overlays := by
  rw [Sessions.committedState, Sessions.committedState, h.layers]

theorem points (h : Raised s s') : s'.committedState.points = s.committedState.points := by
  rw [Sessions.committedState, Sessions.committedState, Sessions.checkpointPoints,
    Sessions.checkpointPoints, h.checkpoints]

theorem latest (h : Raised s s') : s'.committedState.latest = s.committedState.latest :=
  congrArg List.getLast? h.points

theorem latestCheckpoint (h : Raised s s') : s'.latestCheckpoint = s.latestCheckpoint := by
  rw [Sessions.latestCheckpoint_eq_latest, Sessions.latestCheckpoint_eq_latest, h.latest]

/-- The publication is that of the sessions before. -/
theorem saved (h : Raised s s') (hs : Saved s) : Saved s' := by
  refine CommittedState.ext rfl ?_ ?_
  · rw [h.overlays, ← congrArg CommittedState.overlays hs, StateStore.committedState,
      StateStore.committedState, StateStore.publishedLayers, StateStore.publishedLayers,
      h.publication]
  · rw [h.points, ← congrArg CommittedState.points hs, StateStore.committedState,
      StateStore.committedState, h.publication]

end Raised

namespace StateReplicaCheckpoint

variable {c c' : StateReplicaCheckpoint}

/-- **What the publication of the marker does**: the row has the height once it succeeds, and is
the height or untouched if it fails. -/
theorem publishMarker_cases {point : CursorPoint} (hpo : c.sessions.latestCheckpoint = some point)
    (hin : InI64 point.block) :
    ∃ result c', publishMarker point.block point c = (result, c') ∧ Raised c.sessions c'.sessions ∧
      (result = .ok () → c'.sessions.root.rows.lookup markerKey = some (be64 point.block)) := by
  rcases Sessions.publishCommittedMetadata_cases Marker.latestSolidifiedBlockNum.key
      (be64 point.block) c.sessions with ⟨faults, hp⟩ | ⟨e, faults, hp⟩
  · have hro : (c.sessions.root.rows.insert Marker.latestSolidifiedBlockNum.key
        (be64 point.block)).lookup Marker.latestSolidifiedBlockNum.key =
          some (be64 point.block) :=
      Finmap.lookup_insert _
    have hr : Raised c.sessions { c.sessions with root := { c.sessions.root with
        rows := c.sessions.root.rows.insert Marker.latestSolidifiedBlockNum.key
          (be64 point.block), faults := faults } } :=
      ⟨rfl, rfl, rfl, .inr ⟨point, hpo, hin, hro⟩⟩
    rw [publishMarker, Prog.bind_of_ok (Prog.zoom_of_ok hp), Prog.bind_of_ok (Prog.get_run _)]
    generalize CursorSet.withLiveSolidity _ point = cursors
    cases cursors with
    | error e => exact ⟨_, _, rfl, hr, nofun⟩
    | ok cursors => exact ⟨_, _, rfl, hr, fun _ => hro⟩
  · rw [publishMarker, Prog.bind_of_error (Prog.zoom_of_error hp)]
    exact ⟨_, _, rfl, ⟨rfl, rfl, rfl, .inl rfl⟩, nofun⟩

theorem raised_publish {height : Int} (hin : InI64 height) {result : Except String Unit}
    (h : publish height c = (result, c')) :
    Raised c.sessions c'.sessions ∧ (result = .ok () → ∃ point,
      c.sessions.latestCheckpoint = some point ∧ (point.block : Int) = height ∧
        c'.sessions.root.rows.lookup markerKey = some (be64 height)) := by
  rw [publish, Prog.bind_of_ok (Prog.get_run c)] at h
  rcases hl : c.sessions.latestCheckpoint with _ | point <;> simp only [hl] at h
  · cases h
    exact ⟨.refl _, nofun⟩
  split at h
  · cases h
    exact ⟨.refl _, nofun⟩
  split at h
  · cases h
    exact ⟨.refl _, nofun⟩
  · rename_i hb
    obtain rfl := not_not.mp hb
    obtain ⟨_, _, hru, hr, hro⟩ := publishMarker_cases hl hin
    cases hru.symm.trans h
    exact ⟨hr, fun hok => ⟨point, rfl, rfl, hro hok⟩⟩

theorem raised_latestSolidified {result : Except String Int}
    (h : latestSolidified c = (result, c')) :
    Raised c.sessions c'.sessions ∧ ∀ height, result = .ok height →
      (c.sessions.latestCheckpoint = none → c' = c ∧ readMarker c.sessions.readView = .ok height) ∧
      ∀ point, c.sessions.latestCheckpoint = some point → height = point.block ∧
        InI64 height ∧ (c' = c ∧ readMarker c.sessions.readView = .ok height ∨
          c'.sessions.root.rows.lookup markerKey = some (be64 height)) := by
  rw [latestSolidified, Prog.bind_of_ok (Prog.get_run c)] at h
  rcases hre : readMarker c.sessions.readView with e | published <;> rw [hre] at h
  · cases h
    exact ⟨.refl _, nofun⟩
  rw [Prog.bind_of_ok (Prog.ofExcept_ok_run id published c)] at h
  rcases hl : c.sessions.latestCheckpoint with _ | point <;> simp only [hl] at h
  · cases h
    refine ⟨.refl _, ?_⟩
    rintro _ ⟨⟩
    exact ⟨fun _ => ⟨rfl, rfl⟩, nofun⟩
  split at h
  · cases h
    exact ⟨.refl _, nofun⟩
  rename_i hbo
  have hin : InI64 point.block := by
    unfold InI64 i64Min i64Max
    omega
  split at h
  · cases h
    exact ⟨.refl _, nofun⟩
  rename_i ha
  split at h
  · -- the marker is behind the last checkpoint, and moved to it
    obtain ⟨result', c₁, hru, hr, hro⟩ := publishMarker_cases hl hin
    cases result' with
    | error e =>
      rw [Prog.bind_of_error hru] at h
      cases h
      exact ⟨hr, nofun⟩
    | ok _ =>
      rw [Prog.bind_of_ok hru] at h
      cases h
      refine ⟨hr, ?_⟩
      rintro _ ⟨⟩
      refine ⟨nofun, ?_⟩
      rintro _ ⟨⟩
      exact ⟨rfl, hin, .inr (hro rfl)⟩
  · rename_i hb
    cases h
    refine ⟨.refl _, ?_⟩
    rintro _ ⟨⟩
    refine ⟨nofun, ?_⟩
    rintro _ ⟨⟩
    have heq : published = point.block := le_antisymm (not_lt.mp ha) (not_lt.mp hb)
    exact ⟨rfl, hin, .inl ⟨rfl, congrArg _ heq⟩⟩

end StateReplicaCheckpoint

/-! ## What a life keeps -/

section Kept

variable {durable d d' : CommittedState} {committed shown : List Int} {next : Int}

/-- The heights follow one another, and the first of them follows the last checkpoint of the
durable state. -/
def Consecutive (durable : CommittedState) (first : Int) (committed : List Int) : Prop :=
  committed = (List.range committed.length).map (fun k : Nat => first + k) ∧
    ∀ point, durable.latest = some point → first = point.block + 1

/-- The committed heights have no gap, and the last of them is that of the last checkpoint. -/
def Dense (durable d : CommittedState) (committed : List Int) : Prop :=
  (committed = [] → d.latest = durable.latest) ∧
    (committed ≠ [] → ∃ first point, Consecutive durable first committed ∧
      d.latest = some point ∧ (point.block : Int) + 1 = first + committed.length)

/-- The next height follows the last checkpoint, or the marker where there is no checkpoint. -/
def Follows (d : CommittedState) (next : Int) : Prop :=
  (∀ point, d.latest = some point → next = point.block + 1) ∧
    (d.latest = none → readMarker d.view = .ok (next - 1))

theorem newHeights_of_eq (h : d'.points = d.points) : newHeights d d' = [] := by
  simp [newHeights, h]

theorem Commits.newHeights (h : Commits (some next) d d') :
    newHeights d d' = [next] ∧ ∃ point, d'.latest = some point ∧ (point.block : Int) = next := by
  obtain ⟨point, hn, hp⟩ := h.points
  rw [Option.some_inj] at hn
  constructor
  · simp [Execution.newHeights, hp, hn]
  · exact ⟨point, by simp [CommittedState.latest, hp], hn.symm⟩

/-- **A commit at the next height leaves no gap.** -/
theorem Dense.commit (h : Dense durable d committed) (hc : Commits (some next) d d')
    (hn : Follows d next) : Dense durable d' (committed ++ newHeights d d') := by
  obtain ⟨hne, point, hl, hpo⟩ := hc.newHeights
  obtain ⟨hs, hla⟩ := h
  rw [hne]
  refine ⟨fun he => absurd he (by simp), fun _ => ?_⟩
  by_cases he : committed = []
  · -- the first commit of the life sets the first height
    have hsa := hs he
    subst he
    exact ⟨next, point, ⟨by simp, fun p hp => hn.1 p (hsa.trans hp)⟩, hl, by simp [hpo]⟩
  · obtain ⟨first, old, ⟨hr, hf⟩, ho, hfi⟩ := hla he
    have heq : next = first + committed.length := (hn.1 old ho).trans hfi
    refine ⟨first, point, ⟨?_, hf⟩, hl, ?_⟩
    · rw [List.length_append, List.length_singleton, List.range_succ, List.map_append, ← hr,
        List.map_singleton, heq]
    · rw [List.length_append, List.length_singleton, hpo, heq]
      push_cast
      omega

theorem Dense.of_latest (h : Dense durable d committed) (heq : d'.latest = d.latest) :
    Dense durable d' committed := by
  rw [Dense, heq]
  exact h

/-! ### The marker that is to be read -/

/-- No layer writes the marker, or the one to be read is that of the last checkpoint. -/
def Unshadowed (d : CommittedState) : Prop :=
  FMap.topWrite d.overlays markerKey = none ∨
    ∃ point, d.latest = some point ∧ readMarker d.view = .ok (point.block : Int)

/-- A durable state whose marker is not ahead of the last checkpoint, and behind it only where no
layer writes it. -/
structure ClearStart (d : CommittedState) : Prop where
  behind : ∃ marker, readMarker d.view = .ok marker ∧
    ∀ point, d.latest = some point → marker ≤ point.block
  unshadowed : Unshadowed d

/-- The markers that were to be read never went down, and the last of them, which is not ahead of
the last checkpoint, is to be read now. -/
structure Marked (d : CommittedState) (shown : List Int) : Prop where
  last : ∃ marker, shown.getLast? = some marker ∧ readMarker d.view = .ok marker
  ordered : shown.Pairwise (· ≤ ·)
  within : ∀ marker ∈ shown, ∀ point, d.latest = some point → marker ≤ point.block
  unshadowed : Unshadowed d

theorem readMarker_of_lookup {rows : Image} {height : Int} (hin : InI64 height)
    (h : rows.lookup markerKey = some (be64 height)) : readMarker rows = .ok height := by
  rw [readMarker, h]
  simp only [fromBe64_be64 hin]

theorem readMarker_congr {rows rows' : Image}
    (h : rows'.lookup markerKey = rows.lookup markerKey) : readMarker rows' = readMarker rows := by
  rw [readMarker, readMarker, h]

/-- A marker that no layer writes is that of the root. -/
theorem lookup_view_of_unwritten (h : FMap.topWrite d.overlays markerKey = none) :
    d.view.lookup markerKey = d.rows.lookup markerKey := by
  rw [CommittedState.view, FMap.lookup_overAll, h]

/-- A marker that a layer writes does not depend on the root. -/
theorem lookup_view_of_written (h : FMap.topWrite d.overlays markerKey ≠ none)
    (ho : d'.overlays = d.overlays) : d'.view.lookup markerKey = d.view.lookup markerKey := by
  obtain ⟨write, hw⟩ := Option.ne_none_iff_exists'.mp h
  rw [CommittedState.view, CommittedState.view, FMap.lookup_overAll, FMap.lookup_overAll, ho, hw]

theorem le_getLast? {marker : Int} (ho : shown.Pairwise (· ≤ ·))
    (hl : shown.getLast? = some marker) : ∀ height ∈ shown, height ≤ marker := by
  obtain ⟨front, rfl⟩ := List.getLast?_eq_some_iff.mp hl
  intro height hh
  rcases List.mem_append.mp hh with hf | hf
  · exact (List.pairwise_append.mp ho).2.2 height hf marker (List.mem_singleton_self _)
  · exact (List.mem_singleton.mp hf).le

/-- The record goes on with a marker that is none below those before it. -/
theorem Marked.extend {marker : Int} (h : Marked d shown) (hr : readMarker d'.view = .ok marker)
    (hle : ∀ height ∈ shown, height ≤ marker)
    (hw : ∀ point, d'.latest = some point → marker ≤ point.block) (hu : Unshadowed d') :
    Marked d' (shown ++ shownMarker d') := by
  have hs : shownMarker d' = [marker] := by rw [shownMarker, hr]; rfl
  rw [hs]
  refine ⟨⟨marker, List.getLast?_concat, hr⟩, ?_, ?_, hu⟩
  · refine List.pairwise_append.mpr ⟨h.ordered, List.pairwise_singleton _ _, ?_⟩
    intro height hh last hl
    rw [List.mem_singleton.mp hl]
    exact hle height hh
  · intro height hh point hp
    rcases List.mem_append.mp hh with ho | hl
    · exact (hle height ho).trans (hw point hp)
    · exact (List.mem_singleton.mp hl).le.trans (hw point hp)

/-- A step that changes nothing. -/
theorem Marked.still (h : Marked d shown) (hr : readMarker d'.view = readMarker d.view)
    (hl : d'.latest = d.latest) (ho : d'.overlays = d.overlays) :
    Marked d' (shown ++ shownMarker d') := by
  obtain ⟨marker, hlast, hread⟩ := h.last
  refine h.extend (hr.trans hread) (le_getLast? h.ordered hlast) ?_ ?_
  · rw [hl]
    exact h.within marker (List.mem_of_getLast? hlast)
  · rw [Unshadowed, hr, hl, ho]
    exact h.unshadowed

/-- The marker that is to be read once the row of the root has the height of the last checkpoint. -/
theorem Unshadowed.raised {point : CursorPoint} (h : Unshadowed d)
    (ho : d'.overlays = d.overlays) (hl : d.latest = some point) (hin : InI64 point.block)
    (hr : d'.rows.lookup markerKey = some (be64 point.block)) :
    readMarker d'.view = .ok (point.block : Int) := by
  by_cases hw : FMap.topWrite d.overlays markerKey = none
  · refine readMarker_of_lookup hin ?_
    rw [lookup_view_of_unwritten (by rwa [ho]), hr]
  · obtain ⟨point', hl', hread⟩ := h.resolve_left hw
    cases hl.symm.trans hl'
    rw [readMarker_congr (lookup_view_of_written hw ho), hread]

theorem Marked.skip {between : List Int} (h : Marked d (shown ++ between ++ shownMarker d)) :
    Marked d (shown ++ shownMarker d) := by
  obtain ⟨marker, -, hread⟩ := h.last
  have hsub : (shown ++ shownMarker d).Sublist (shown ++ between ++ shownMarker d) :=
    (List.sublist_append_left shown between).append_right _
  refine ⟨⟨marker, ?_, hread⟩, h.ordered.sublist hsub, fun height hh => h.within height
    (hsub.subset hh), h.unshadowed⟩
  rw [shownMarker, hread]
  exact List.getLast?_concat

/-- **The operations of the marker** keep it. -/
theorem Marked.raised {s s' : Sessions} (h : Marked s.committedState shown) (hr : Raised s s') :
    Marked s'.committedState (shown ++ shownMarker s'.committedState) := by
  rcases hr.row with hrow | ⟨point, hp, hin, hrow⟩
  · refine h.still (readMarker_congr ?_) hr.latest hr.overlays
    rw [CommittedState.view, CommittedState.view, FMap.lookup_overAll, FMap.lookup_overAll,
      hr.overlays]
    cases FMap.topWrite s.committedState.overlays markerKey with
    | none => exact hrow
    | some write => rfl
  · rw [Sessions.latestCheckpoint_eq_latest] at hp
    have hread := h.unshadowed.raised hr.overlays hp hin hrow
    refine h.extend hread (fun height hh => h.within height hh point hp) ?_ ?_
    · rw [hr.latest, hp]
      rintro _ ⟨⟩
      exact le_rfl
    · exact .inr ⟨point, hr.latest.trans hp, hread⟩

/-- **A clear commit** keeps it. -/
theorem Marked.commit (h : Marked d shown) (hin : InI64 next) (hc : Commits (some next) d d')
    (hn : Follows d next) (hclear : ClearStep d d') : Marked d' (shown ++ shownMarker d') := by
  obtain ⟨marker, hlast, hread⟩ := h.last
  obtain ⟨point, hnumber, hpoints⟩ := hc.points
  obtain ⟨values, hoverlays⟩ := hc.overlays
  obtain rfl := Option.some_inj.mp hnumber
  have hlatest : d'.latest = some point := by
    rw [CommittedState.latest, hpoints, List.getLast?_concat]
  have hle : ∀ height ∈ shown, height ≤ point.block := by
    intro height hh
    cases hd : d.latest with
    | none =>
      have hm := hread.symm.trans (hn.2 hd)
      rw [Except.ok.injEq] at hm
      have := le_getLast? h.ordered hlast height hh
      omega
    | some old =>
      have := h.within height hh old hd
      have := hn.1 old hd
      omega
  have hwithin {marker : Int} (hm : marker ≤ point.block) :
      ∀ point', d'.latest = some point' → marker ≤ point'.block := by
    rw [hlatest]
    rintro _ ⟨⟩
    exact hm
  rcases hclear with hsame | hnone | ⟨_, hp, hown⟩
  · rw [hoverlays] at hsame
    exact absurd hsame (by simp)
  · have hbelow : FMap.topWrite d.overlays markerKey = none := by
      rw [hoverlays, FMap.topWrite_concat, Option.or_eq_none_iff] at hnone
      exact hnone.2
    have hsame : readMarker d'.view = readMarker d.view := by
      refine readMarker_congr ?_
      rw [lookup_view_of_unwritten hnone, lookup_view_of_unwritten hbelow, hc.rows]
    exact h.extend (hsame.trans hread) (le_getLast? h.ordered hlast)
      (hwithin (hle marker (List.mem_of_getLast? hlast))) (.inl hnone)
  · cases hlatest.symm.trans hp
    rw [hoverlays, List.getLast?_concat, Option.bind_some] at hown
    have hread' : readMarker d'.view = .ok (point.block : Int) := by
      refine readMarker_of_lookup hin ?_
      rw [CommittedState.view, hoverlays, FMap.overAll_concat, FMap.lookup_over, hown]
      rfl
    exact h.extend hread' hle (hwithin le_rfl) (.inr ⟨point, hlatest, hread'⟩)

end Kept

/-- Where the loop stands, against the sessions and the record. -/
structure Poised {B : Type} (applier : Applier B) (d : CommittedState) (ledger : Ledger)
    (stage : Stage B) : Prop where
  next : ∀ next, stage.next = some next → InI64 next ∧ Follows d next
  fetching : ∀ next, stage = .fetching next → ∃ solid ∈ ledger.reported, next ≤ solid
  block : ∀ next block, stage = .applying next block →
    applier.number block = some next ∧ next ∈ ledger.applied

/-- **What holds at every point of a life.** -/
structure Lives.Inv {B : Type} (applier : Applier B) (durable : CommittedState)
    (r : ReplicaRunner B) (ledger : Ledger) : Prop where
  dense : Dense durable r.state ledger.committed
  saved : Saved r.checkpoint.sessions
  marked : ClearStart durable → ledger.clear → Marked r.state ledger.shown
  poised : Poised applier r.state ledger r.stage
  solid : ∀ height ∈ ledger.applied, ∃ solid ∈ ledger.reported, height ≤ solid
  handed : ∀ height ∈ ledger.committed, height ∈ ledger.applied

namespace Lives

variable {B : Type} {applier : Applier B} {limits : CheckpointLimits} {durable : CommittedState}
  {after : Sessions} {r r' : ReplicaRunner B} {ledger : Ledger}

/-- The sessions that the applier, or a restart, may leave to the runner. -/
structure Left (r : ReplicaRunner B) (after : Sessions) : Prop where
  saved : Saved after
  state : after.committedState = r.state ∨ ∃ next block, r.stage = .applying next block ∧
    Commits (some next) r.state after.committedState

theorem Inv.advance (h : Inv applier durable r ledger) {signal : Signal B}
    (hle : Left r after) (hr : Raised after r'.checkpoint.sessions)
    (hp : Poised applier r'.state (ledger.record r signal r') r'.stage)
    (hs : ∀ height ∈ (ledger.record r signal r').applied,
      ∃ solid ∈ (ledger.record r signal r').reported, height ≤ solid) :
    Inv applier durable r' (ledger.record r signal r') := by
  have hl : r'.state.latest = after.committedState.latest := hr.latest
  have hhe : newHeights r.state r'.state = newHeights r.state after.committedState := by
    have hpoints : r'.state.points = after.committedState.points := hr.points
    rw [newHeights, newHeights, hpoints]
  have hsaved := hr.saved hle.saved
  rcases hle.state with hsame | ⟨next, block, hst, hc⟩
  · rw [hsame] at hl
    rw [newHeights_of_eq (congrArg CommittedState.points hsame)] at hhe
    refine ⟨?_, hsaved, ?_, hp, hs, ?_⟩
    · refine Dense.of_latest ?_ hl
      rw [Ledger.record_committed, hhe, List.append_nil]
      exact h.dense
    · intro hstart hclear
      have hmarked := h.marked hstart hclear.1
      rw [← hsame] at hmarked
      exact hmarked.raised hr
    · intro height hh
      rw [Ledger.record_committed, hhe, List.append_nil] at hh
      exact List.mem_append_left _ (h.handed height hh)
  · obtain ⟨hin, hn⟩ := h.poised.next next (by rw [hst, Stage.next])
    refine ⟨?_, hsaved, ?_, hp, hs, ?_⟩
    · refine Dense.of_latest ?_ hl
      rw [Ledger.record_committed, hhe]
      exact h.dense.commit hc hn
    · intro hstart hclear
      have hstep : ClearStep r.state after.committedState := by
        have := hclear.2
        rwa [ClearStep, hl, show r'.state.overlays = after.committedState.overlays from
          hr.overlays] at this
      exact (((h.marked hstart hclear.1).commit hin hc hn hstep).raised hr).skip
    · intro height hh
      rw [Ledger.record_committed, hhe, hc.newHeights.1] at hh
      refine List.mem_append_left _ ?_
      rcases List.mem_append.mp hh with ho | hla
      · exact h.handed height ho
      · rw [List.mem_singleton.mp hla]
        exact (h.poised.block next block hst).2

theorem poised_top {d : CommittedState} {next : Int} (hin : InI64 next) (hn : Follows d next)
    (r : ReplicaRunner B) : Poised applier d ledger (r.top next).stage := by
  rw [ReplicaRunner.top]
  dsimp only
  split
  · exact ⟨nofun, nofun, nofun⟩
  · refine ⟨?_, nofun, nofun⟩
    rintro _ ⟨⟩
    exact ⟨hin, hn⟩

theorem poised_stopped {d : CommittedState} {result : Except String Unit} :
    Poised applier d ledger (.stopped result) :=
  ⟨nofun, nofun, nofun⟩

theorem start_cases (applier : Applier B) (ledger : Ledger) (cancelled : Bool)
    (r : ReplicaRunner B) :
    Raised r.checkpoint.sessions (r.start cancelled).checkpoint.sessions ∧
      (r.start cancelled).stage.block = none ∧
      Poised applier (r.start cancelled).state ledger (r.start cancelled).stage := by
  rcases hru : StateReplicaCheckpoint.latestSolidified r.checkpoint with ⟨e | height, c⟩
  · rw [ReplicaRunner.start, hru]
    exact ⟨(StateReplicaCheckpoint.raised_latestSolidified hru).1, rfl, poised_stopped⟩
  · obtain ⟨hr, hh⟩ := StateReplicaCheckpoint.raised_latestSolidified hru
    rcases ha : checkedAdd height 1 with _ | next <;>
      simp only [ReplicaRunner.start, hru, ha]
    · exact ⟨hr, rfl, poised_stopped⟩
    · obtain ⟨hin, rfl⟩ := toI64_eq_some_iff.mp ha
      refine ⟨hr, ?_, poised_top hin ?_ _⟩
      · dsimp only [ReplicaRunner.top]
        cases cancelled <;> rfl
      · obtain ⟨hnone, hsome⟩ := hh height rfl
        have hlatest : r.checkpoint.sessions.latestCheckpoint = c.sessions.committedState.latest :=
          hr.latestCheckpoint.symm.trans (Sessions.latestCheckpoint_eq_latest _)
        refine ⟨fun point hp => ?_, fun hn => ?_⟩
        · rw [← (hsome point (hlatest.trans hp)).1]
        · obtain ⟨rfl, hread⟩ := hnone (hlatest.trans hn)
          rw [Sessions.readView_eq_view] at hread
          rw [add_sub_cancel_right]
          exact hread

theorem finish_cases (applier : Applier B) (ledger : Ledger) {next : Int}
    (answer : Except String Int) (r : ReplicaRunner B) (hin : InI64 next)
    (hn : answer ≠ .ok next → Follows r.state next) :
    Raised r.checkpoint.sessions (r.finish next answer).checkpoint.sessions ∧
      (r.finish next answer).stage.block = none ∧
      Poised applier (r.finish next answer).state ledger (r.finish next answer).stage := by
  unfold ReplicaRunner.finish
  split
  · split
    · exact ⟨.refl _, rfl, poised_stopped⟩
    · rcases hru : StateReplicaCheckpoint.publish next r.checkpoint with ⟨e | _, c⟩
      · exact ⟨(StateReplicaCheckpoint.raised_publish hin hru).1, rfl, poised_stopped⟩
      · obtain ⟨hr, hro⟩ := StateReplicaCheckpoint.raised_publish hin hru
        rcases had : checkedAdd next 1 with _ | following <;> simp only
        · exact ⟨hr, rfl, poised_stopped⟩
        · obtain ⟨hi', rfl⟩ := toI64_eq_some_iff.mp had
          refine ⟨hr, ?_, poised_top hi' ?_ _⟩
          · dsimp only [ReplicaRunner.top]
            cases r.cancelled <;> rfl
          · obtain ⟨point, hp, hb, -⟩ := hro rfl
            rw [← hr.latestCheckpoint, Sessions.latestCheckpoint_eq_latest] at hp
            refine ⟨fun point' hp' => ?_, fun hnone => absurd (hnone.symm.trans hp) nofun⟩
            cases hp.symm.trans hp'
            rw [hb]
  · rename_i ha
    split
    · exact ⟨.refl _, rfl, poised_stopped⟩
    · refine ⟨.refl _, rfl, ?_, nofun, nofun⟩
      rintro _ ⟨⟩
      exact ⟨hin, hn ha⟩

theorem Inv.still (h : Inv applier durable r ledger) {signal : Signal B}
    (hs : r'.checkpoint = r.checkpoint)
    (hp : Poised applier r.state (ledger.record r signal r') r'.stage)
    (hso : ∀ height ∈ (ledger.record r signal r').applied,
      ∃ solid ∈ (ledger.record r signal r').reported, height ≤ solid) :
    Inv applier durable r' (ledger.record r signal r') := by
  have hstate : r'.state = r.state := congrArg (·.sessions.committedState) hs
  exact h.advance ⟨h.saved, .inl rfl⟩ (hs ▸ .refl _) (hstate ▸ hp) hso

/-- A step that hands nothing to the applier keeps what was handed to it below a solid height. -/
theorem Inv.solid_record (h : Inv applier durable r ledger) {signal : Signal B}
    (hn : r.stage.block = none → r'.stage.block = none) :
    ∀ height ∈ (ledger.record r signal r').applied,
      ∃ solid ∈ (ledger.record r signal r').reported, height ≤ solid := by
  intro height hh
  have ho : height ∈ ledger.applied := by
    dsimp only [Ledger.record] at hh
    rcases hb : r.stage.block with _ | block
    · simpa [hb, hn hb] using hh
    · simpa [hb] using hh
  obtain ⟨solid, hs, hle⟩ := h.solid height ho
  exact ⟨solid, List.mem_append_left _ hs, hle⟩

/-- A call that is dropped, or there is none. -/
theorem left_of_dropped (he : applier.Exact) (h : Inv applier durable r ledger)
    (ha : match r.stage.block with
      | some block => applier.dropped block r.checkpoint.sessions after
      | none => after = r.checkpoint.sessions) : Left r after := by
  rcases hs : r.stage with _ | result | next | next | ⟨next, block⟩ | next <;>
    rw [hs] at ha
  all_goals first
    | exact ha ▸ ⟨h.saved, .inl rfl⟩
    | skip
  rcases he.dropped ha with rfl | ⟨hc, hsaved⟩
  · exact ⟨h.saved, .inl rfl⟩
  · rw [(h.poised.block next block hs).1] at hc
    exact ⟨hsaved, .inr ⟨next, block, hs, hc⟩⟩

/-- What a restart finds after a death in a call, or outside of one. -/
theorem left_of_died {root : StateStore} (he : applier.Exact) (h : Inv applier durable r ledger)
    (ha : match r.stage.block with
      | some block => applier.died block r.checkpoint.sessions root
      | none => root = r.checkpoint.sessions.root)
    (hreboot : Sessions.reboot limits root = some after) : Left r after := by
  obtain ⟨hstate, hroot⟩ := Sessions.reboot_committedState hreboot
  have hsaved : Saved after := hroot.trans hstate.symm
  rcases hs : r.stage with _ | result | next | next | ⟨next, block⟩ | next <;>
    rw [hs] at ha
  all_goals first
    | exact ⟨hsaved, .inl (hstate.trans (ha ▸ h.saved))⟩
    | skip
  rcases he.died ha with hsame | hc
  · exact ⟨hsaved, .inl (hstate.trans hsame)⟩
  · rw [(h.poised.block next block hs).1, ← hstate] at hc
    exact ⟨hsaved, .inr ⟨next, block, hs, hc⟩⟩

/-- **A step keeps the invariant**, whichever signal it is. -/
theorem Inv.step (he : applier.Exact) (h : Inv applier durable r ledger) {signal : Signal B}
    (ha : applier.Admits r signal) (hst : r.advance limits applier.number signal = some r') :
    Inv applier durable r' (ledger.record r signal r') := by
  cases signal with
  | start cancelled =>
    obtain ⟨hr, hb, hpo⟩ :=
      start_cases applier (ledger.record r (.start cancelled) (r.start cancelled)) cancelled r
    have heq : r' = r.start cancelled := by
      simp only [ReplicaRunner.advance] at hst
      split at hst <;> first | exact (Option.some.inj hst).symm | cases hst
    subst heq
    exact h.advance ⟨h.saved, .inl rfl⟩ hr hpo (h.solid_record fun _ => hb)
  | cancel =>
    cases hst
    -- the stage stays, and the record only grows
    refine h.still rfl ⟨h.poised.next, ?_, ?_⟩ (h.solid_record id)
    · intro next hs
      obtain ⟨solid, hso, hle⟩ := h.poised.fetching next hs
      exact ⟨solid, List.mem_append_left _ hso, hle⟩
    · intro next block hs
      obtain ⟨hn, hm⟩ := h.poised.block next block hs
      exact ⟨hn, List.mem_append_left _ hm⟩
  | interrupted after =>
    simp only [ReplicaRunner.advance] at hst
    split at hst
    · cases hst
      exact h.advance (left_of_dropped he h ha) (.refl _) poised_stopped
        (h.solid_record fun _ => rfl)
    · cases hst
  | killed root =>
    -- the next process has what the root saved, which is what was committed
    obtain ⟨after, hreboot, rfl⟩ := Option.map_eq_some_iff.mp hst
    exact h.advance (left_of_died he h ha hreboot) (.refl _) ⟨nofun, nofun, nofun⟩
      (h.solid_record fun _ => rfl)
  | slept =>
    rcases hs : r.stage with _ | result | next | next | ⟨next, block⟩ | next <;>
      simp only [ReplicaRunner.advance, hs] at hst <;> cases hst
    obtain ⟨hin, hne⟩ := h.poised.next next (by rw [hs, Stage.next])
    refine h.still rfl (poised_top hin hne r) (h.solid_record fun _ => ?_)
    dsimp only [ReplicaRunner.top]
    cases r.cancelled <;> rfl
  | properties answer =>
    rcases hs : r.stage with _ | result | next | next | ⟨next, block⟩ | next <;>
      rcases answer with e | solid <;>
      simp only [ReplicaRunner.advance, hs] at hst <;> cases hst
    · have hp := h.poised.next next (by rw [hs, Stage.next])
      refine h.still rfl ⟨?_, nofun, nofun⟩ (h.solid_record fun _ => rfl)
      rintro _ ⟨⟩
      exact hp
    · have hp := h.poised.next next (by rw [hs, Stage.next])
      by_cases hc : solid < next
      · refine h.still rfl ?_ (h.solid_record fun _ => ?_) <;> simp only [hc, if_true]
        · refine ⟨?_, nofun, nofun⟩
          rintro _ ⟨⟩
          exact hp
        · rfl
      · refine h.still rfl ?_ (h.solid_record fun _ => ?_) <;> simp only [hc, if_false]
        · refine ⟨?_, ?_, nofun⟩
          · rintro _ ⟨⟩
            exact hp
          · -- the height is asked for because the node has just reported one at least as large
            rintro _ ⟨⟩
            exact ⟨solid, List.mem_append_right _ List.mem_cons_self, not_lt.mp hc⟩
        · rfl
  | fetched answer =>
    rcases hs : r.stage with _ | result | next | next | ⟨next, block⟩ | next <;>
      rcases answer with e | block <;>
      simp only [ReplicaRunner.advance, hs] at hst <;> cases hst
    · have hp := h.poised.next next (by rw [hs, Stage.next])
      refine h.still rfl ⟨?_, nofun, nofun⟩ (h.solid_record fun _ => rfl)
      rintro _ ⟨⟩
      exact hp
    · have hp := h.poised.next next (by rw [hs, Stage.next])
      by_cases hn : applier.number block = some next
      · have hap : (ledger.record r (.fetched (.ok block))
            { r with stage := .applying next block }).applied = ledger.applied ++ [next] := by
          simp [Ledger.record, hs, Stage.block, Stage.next]
        simp only [ne_eq, hn, not_true_eq_false, if_false]
        refine h.still rfl ⟨?_, nofun, ?_⟩ ?_
        · rintro _ ⟨⟩
          exact hp
        · rintro _ _ ⟨⟩
          exact ⟨hn, hap ▸ List.mem_append_right _ List.mem_cons_self⟩
        · intro height hh
          rw [hap] at hh
          rcases List.mem_append.mp hh with ho | hl
          · obtain ⟨solid, hso, hle⟩ := h.solid height ho
            exact ⟨solid, List.mem_append_left _ hso, hle⟩
          · obtain ⟨solid, hso, hle⟩ := h.poised.fetching next hs
            rw [List.mem_singleton.mp hl]
            exact ⟨solid, List.mem_append_left _ hso, hle⟩
      · simp only [ne_eq, hn, not_false_eq_true, if_true]
        refine h.still rfl ⟨?_, nofun, nofun⟩ (h.solid_record fun _ => rfl)
        rintro _ ⟨⟩
        exact hp
  | applied answer after =>
    rcases hs : r.stage with _ | result | next | next | ⟨next, block⟩ | next <;>
      simp only [ReplicaRunner.advance, hs] at hst <;> cases hst
    obtain ⟨hin, hne⟩ := h.poised.next next (by rw [hs, Stage.next])
    have hn := (h.poised.block next block hs).1
    simp only [Applier.Admits, hs, Stage.block] at ha
    have hen := he.ends ha
    rw [hn] at hen
    obtain ⟨hr, hb, hpo⟩ := finish_cases applier
      (ledger.record r (.applied answer after) ((r.leave after).finish next answer)) answer
      (r.leave after) hin (by
        intro han
        rcases hen with rfl | ⟨-, -, hok⟩
        · exact hne
        · -- a commit answers with the height
          cases answer with
          | error e => cases hok
          | ok height => exact absurd (congrArg Except.ok (Option.some.inj hok).symm) han)
    refine h.advance ?_ hr hpo (h.solid_record fun _ => hb)
    rcases hen with rfl | ⟨hco, hsaved, -⟩
    · exact ⟨h.saved, .inl rfl⟩
    · exact ⟨hsaved, .inr ⟨next, block, hs, hco⟩⟩

end Lives

/-! ## The claims of a life -/

/-- The committed heights at a point of a life follow one another, and each was handed to the
applier when the node had reported it as solid. -/
structure GapFree (durable : CommittedState) (ledger : Ledger) : Prop where
  consecutive : ledger.committed ≠ [] → ∃ first, Consecutive durable first ledger.committed
  once : ledger.committed.Nodup
  handed : ∀ height ∈ ledger.committed, height ∈ ledger.applied
  solid : ∀ height ∈ ledger.applied, ∃ solid ∈ ledger.reported, height ≤ solid

/-- The marker at a point of a life, as it is read, has never gone down and is not ahead of the last
checkpoint; and each of the two operations, where it succeeds at this point, leaves it there. -/
structure MarkerFollows {B : Type} (r : ReplicaRunner B) (ledger : Ledger) : Prop where
  read : ∃ marker, ledger.shown.getLast? = some marker ∧
    readMarker r.checkpoint.sessions.readView = .ok marker
  ordered : ledger.shown.Pairwise (· ≤ ·)
  within : ∀ marker ∈ ledger.shown, ∀ point,
    r.checkpoint.sessions.latestCheckpoint = some point → marker ≤ point.block
  published : ∀ height c, InI64 height →
    StateReplicaCheckpoint.publish height r.checkpoint = (.ok (), c) →
      ∃ point, c.sessions.latestCheckpoint = some point ∧ (point.block : Int) = height ∧
        readMarker c.sessions.readView = .ok height
  reconciled : ∀ height c, StateReplicaCheckpoint.latestSolidified r.checkpoint = (.ok height, c) →
    ∀ point, c.sessions.latestCheckpoint = some point →
      (point.block : Int) = height ∧ readMarker c.sessions.readView = .ok height

namespace Lives

variable {B : Type} {applier : Applier B} {limits : CheckpointLimits} {durable : CommittedState}
  {r : ReplicaRunner B} {ledger : Ledger}

/-- A death and the next process. -/
theorem kill {root : StateStore} {sessions : Sessions} (h : Lives applier limits durable r ledger)
    (ha : applier.Admits r (.killed root)) (hreboot : Sessions.reboot limits root = some sessions) :
    Lives applier limits durable ⟨⟨sessions, none⟩, false, .idle⟩
      (ledger.record r (.killed root) ⟨⟨sessions, none⟩, false, .idle⟩) :=
  h.step _ ha (by rw [ReplicaRunner.advance, hreboot]; rfl)

theorem inv (he : applier.Exact) (h : Lives applier limits durable r ledger) :
    Inv applier durable r ledger := by
  induction h with
  | begin hreboot hdurable =>
    obtain ⟨hstate, hroot⟩ := Sessions.reboot_committedState hreboot
    subst hdurable
    refine ⟨⟨fun _ => rfl, fun h => absurd rfl h⟩, hroot.trans hstate.symm, ?_,
      ⟨nofun, nofun, nofun⟩, nofun, nofun⟩
    rintro ⟨⟨marker, hread, hbehind⟩, hunshadowed⟩ -
    rw [shownMarker, hread]
    refine ⟨⟨marker, rfl, hread⟩, List.pairwise_singleton _ _, ?_, hunshadowed⟩
    intro height hh
    rw [List.mem_singleton.mp hh]
    exact hbehind
  | step signal _ ha hs ih => exact ih.step he ha hs

/-- **Every point of every life has no gap**, whatever the node answers and wherever the loop is
cancelled or dies; and the marker follows where the life begins clear and all steps are clear. -/
theorem gapFree (hexact : applier.Exact) (h : Lives applier limits durable r ledger) :
    GapFree durable ledger ∧
      (ClearStart durable → ledger.clear → MarkerFollows r ledger) := by
  have hinv := h.inv hexact
  refine ⟨⟨fun hsome => ?_, ?_, hinv.handed, hinv.solid⟩, fun hstart hclear => ?_⟩
  · obtain ⟨first, point, hconsecutive, -⟩ := hinv.dense.2 hsome
    exact ⟨first, hconsecutive⟩
  · by_cases hempty : ledger.committed = []
    · rw [hempty]
      exact List.nodup_nil
    · obtain ⟨first, point, ⟨hrange, -⟩, -⟩ := hinv.dense.2 hempty
      rw [hrange]
      refine List.nodup_range.map fun a b hab => ?_
      exact Int.ofNat_inj.mp (add_left_cancel hab)
  have hmarked := hinv.marked hstart hclear
  have hread {point : CursorPoint} {c : StateReplicaCheckpoint}
      (hraised : Raised r.checkpoint.sessions c.sessions)
      (hpoint : r.checkpoint.sessions.latestCheckpoint = some point) (hin : InI64 point.block)
      (hrow : c.sessions.root.rows.lookup markerKey = some (be64 point.block)) :
      readMarker c.sessions.readView = .ok (point.block : Int) := by
    rw [Sessions.latestCheckpoint_eq_latest] at hpoint
    rw [Sessions.readView_eq_view]
    exact hmarked.unshadowed.raised hraised.overlays hpoint hin hrow
  refine ⟨?_, hmarked.ordered, ?_, ?_, ?_⟩
  · rw [Sessions.readView_eq_view]
    exact hmarked.last
  · intro marker hmarker point hpoint
    rw [Sessions.latestCheckpoint_eq_latest] at hpoint
    exact hmarked.within marker hmarker point hpoint
  · intro height c hin hrun
    obtain ⟨hraised, hrow⟩ := StateReplicaCheckpoint.raised_publish hin hrun
    obtain ⟨point, hpoint, rfl, hmarker⟩ := hrow rfl
    exact ⟨point, hraised.latestCheckpoint.trans hpoint, rfl, hread hraised hpoint hin hmarker⟩
  · intro height c hrun point hpoint
    obtain ⟨hraised, hheight⟩ := StateReplicaCheckpoint.raised_latestSolidified hrun
    have hbefore := hraised.latestCheckpoint.symm.trans hpoint
    obtain ⟨rfl, hin, hmarker⟩ := (hheight height rfl).2 point hbefore
    refine ⟨rfl, ?_⟩
    rcases hmarker with ⟨rfl, hsame⟩ | hrow
    · exact hsame
    · exact hread hraised hbefore hin hrow

end Lives

/-! ## Sample lives -/

namespace SampleReplica

/-- The point of a block. -/
def point (block : Nat) : CursorPoint :=
  ⟨block, ⟨block.toUInt8 :: List.replicate 31 0, by simp⟩⟩

/-- A root with the checkpoint of the genesis. -/
def root : StateStore := ⟨∅, none, some ⟨[], [⟨point 0, none, ∅⟩]⟩, []⟩

/-- A block is committed over committed layers, and published. -/
def commit (values : Overlay) (block : Nat) (s : Sessions) : Sessions :=
  let committed : Sessions := { s with
    layers := s.layers ++ [⟨values, true, false, false, s.nextId⟩]
    checkpoints := s.checkpoints ++
      [⟨point block, s.latestCheckpoint.map (·.identity), FMap.overlay s.readView values⟩]
    nextId := s.nextId + 1 }
  { committed with
    root := { s.root with staged := none, current := some committed.checkpoint } }

theorem commit_committedState {values : Overlay} {block : Nat} {s : Sessions}
    (h : ∀ layer ∈ s.layers, layer.isSettled = true) :
    (commit values block s).committedState = ⟨s.root.rows, s.committedState.overlays ++ [values],
      s.committedState.points ++ [point block]⟩ ∧ Saved (commit values block s) := by
  have hfilter : (s.layers ++ [(⟨values, true, false, false, s.nextId⟩ : OverlayLayer)]).filter
      OverlayLayer.isSettled = s.layers ++ [⟨values, true, false, false, s.nextId⟩] := by
    rw [List.filter_append, List.filter_eq_self.mpr h]
    rfl
  constructor
  · simp [commit, Sessions.committedState, Sessions.checkpointPoints, hfilter,
      List.filter_eq_self.mpr h]
  · simp [Saved, commit, Sessions.committedState, Sessions.checkpointPoints, hfilter,
      StateStore.committedState, StateStore.publishedLayers, StateStore.publication,
      Sessions.checkpoint, Function.comp_def]

/-- Blocks are their numbers, and each writes its rows. A death in a call may come after the
commit. -/
def applier (rows : Nat → Overlay) : Applier Nat where
  number block := some block
  ends block s answer s' := (∀ layer ∈ s.layers, layer.isSettled = true) ∧
    answer = .ok (block : Int) ∧ s' = commit (rows block) block s
  dropped _ s s' := s' = s
  died block s root := root.committedState = s.committedState ∨
    (∀ layer ∈ s.layers, layer.isSettled = true) ∧ root = (commit (rows block) block s).root

theorem commits {values : Overlay} {block : Nat} {s : Sessions} {d : CommittedState}
    (h : ∀ layer ∈ s.layers, layer.isSettled = true)
    (hd : d = (commit values block s).committedState) :
    Commits (some (block : Int)) s.committedState d := by
  rw [hd, (commit_committedState h).1]
  exact ⟨rfl, ⟨values, rfl⟩, point block, rfl, rfl⟩

theorem exact (rows : Nat → Overlay) : (applier rows).Exact where
  ends := by
    rintro block s answer s' ⟨hsettled, rfl, rfl⟩
    exact .inr ⟨commits hsettled rfl, (commit_committedState hsettled).2, rfl⟩
  dropped := .inl
  died := by
    rintro block s root (hsame | ⟨hsettled, rfl⟩)
    · exact .inl hsame
    · exact .inr (commits hsettled (commit_committedState hsettled).2)

/-- The marker row of a block that is solid at once. -/
def ownRow (block : Nat) : Overlay := Finmap.singleton markerKey (.put (be64 block))

/-- The sessions of the first process, and of the one after the commit of block 1. -/
def booted : Sessions := relinked root ⟨[], [⟨point 0, none, ∅⟩]⟩

def rebooted : Sessions := relinked (commit ∅ 1 booted).root (commit ∅ 1 booted).checkpoint

theorem reboot_root : Sessions.reboot .default root = some booted := rfl

theorem reboot_commit : Sessions.reboot .default (commit ∅ 1 booted).root = some rebooted := by
  have hdecode : ((commit ∅ 1 booted).checkpoint.decode .default).toOption.isSome = true := by
    decide
  rcases hd : (commit ∅ 1 booted).checkpoint.decode .default with e | decoded <;> rw [hd] at hdecode
  · cases hdecode
  · rw [Sessions.reboot, CheckpointStack.recoverAndRelink_new rfl rfl hd]
    rfl

/-- The process dies after the commit of block 1 and before the publication; the next one publishes
it, and applies block 2, which writes the marker itself. -/
theorem gapFree_sample : ∃ r ledger,
    Lives (applier fun block => if block = 1 then ∅ else ownRow block) .default
      root.committedState r ledger ∧
    ledger.committed = [1, 2] ∧ ledger.shown.getLast? = some 2 ∧
      GapFree root.committedState ledger ∧ MarkerFollows r ledger := by
  set rows : Nat → Overlay := fun block => if block = 1 then ∅ else ownRow block
  have hbegun : Lives (applier rows) .default root.committedState _ _ := .begin reboot_root rfl
  have hstarted := hbegun.step (.start false) trivial rfl
  have hpolled := hstarted.step (.properties (.ok 2)) trivial rfl
  have hfetched := hpolled.step (.fetched (.ok 1)) trivial rfl
  have hdied := hfetched.kill (.inr ⟨by decide, rfl⟩) reboot_commit
  have hstarted := hdied.step (.start false) trivial rfl
  have hpolled := hstarted.step (.properties (.ok 2)) trivial rfl
  have hfetched := hpolled.step (.fetched (.ok 2)) trivial rfl
  have happlied := hfetched.step (.applied (.ok 2) _) ⟨by decide, rfl, rfl⟩ rfl
  obtain ⟨hfree, hfollows⟩ := happlied.gapFree (exact rows)
  have hstart : ClearStart root.committedState :=
    ⟨⟨0, by decide, fun _ _ => Int.natCast_nonneg _⟩, .inl rfl⟩
  refine ⟨_, _, happlied, by decide, by decide, hfree, hfollows hstart ?_⟩
  -- the first layer has no marker, and the second one its own
  exact ⟨⟨⟨⟨⟨⟨⟨⟨trivial, .inl rfl⟩, .inl rfl⟩, .inl rfl⟩, .inr (.inl (by decide))⟩, .inl rfl⟩,
    .inl rfl⟩, .inl rfl⟩, .inr (.inr ⟨point 2, rfl, by decide⟩)⟩

/-- Block 1 is solid at once, as with one active witness, and writes the marker; block 2 is not.
After the publication of block 2 the marker of block 1 is read, from its layer. -/
theorem marker_shadowed : (applier fun block => if block = 1 then ownRow 1 else ∅).Exact ∧
    ¬ ∀ r ledger, Lives (applier fun block => if block = 1 then ownRow 1 else ∅) .default
        root.committedState r ledger →
      GapFree root.committedState ledger ∧ MarkerFollows r ledger := by
  set rows : Nat → Overlay := fun block => if block = 1 then ownRow 1 else ∅
  refine ⟨exact rows, fun hclaim => ?_⟩
  have hbegun : Lives (applier rows) .default root.committedState _ _ := .begin reboot_root rfl
  have hstarted := hbegun.step (.start false) trivial rfl
  have hpolled := hstarted.step (.properties (.ok 2)) trivial rfl
  have hfetched := hpolled.step (.fetched (.ok 1)) trivial rfl
  have happlied := hfetched.step (.applied (.ok 1) _) ⟨by decide, rfl, rfl⟩ rfl
  have hpolled := happlied.step (.properties (.ok 2)) trivial rfl
  have hfetched := hpolled.step (.fetched (.ok 2)) trivial rfl
  have happlied := hfetched.step (.applied (.ok 2) _) ⟨by decide, rfl, rfl⟩ rfl
  obtain ⟨-, -, -, hread⟩ := (hclaim _ _ happlied).2.published 2 _ (by decide) rfl
  revert hread
  decide

end SampleReplica

end RustTron.Execution
