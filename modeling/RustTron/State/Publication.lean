import RustTron.State.CheckpointCodec

/-!
# Publication of checkpoints, byte by byte

A publication writes two batches to the metadata of the durable root: the encoded checkpoint as
staged, with its digest as the journal, and then the same bytes as current, without the other two
rows. A process may stop before, between and after them, and each batch is written as a whole or
not at all. Recovery finishes a publication that was staged, and reads the current checkpoint back
into a new manager.

The derived index of market rows in a layer is left out.

## Main definitions

* `CheckpointPublisher.publish`: the two batches, with everything that may stop it
* `recoverStore`, `recoverAndRelink`: recovery, and the manager it restores
* `Reached rows p`: the metadata of runs of publications, compactions and recoveries, and the
  checkpoint that was staged or published last

## Main results

* `Reached.holds`: the metadata always hold the checkpoint that was staged or published last
* `recovers_after_crash`: recovery after a crash of a publication
-/

namespace RustTron.State

/-- The rows of the checkpoint metadata. -/
abbrev MetadataRows : Type := FMap Bytes Bytes

/-- The bytes of an ASCII text. -/
def asciiBytes (text : String) : Bytes := text.toList.map fun c => UInt8.ofNat c.toNat

def journalKey : Bytes := asciiBytes "stack/journal"

def stagedKey : Bytes := asciiBytes "stack/staged"

def currentKey : Bytes := asciiBytes "stack/current"

inductive CheckpointCrashPhase where
  | beforeStage
  | afterStage
  | beforePublish
  | afterPublish
  deriving DecidableEq, Repr

/-- The batches of a publication. -/
inductive PublicationBatch where
  | stage
  | publish
  deriving DecidableEq, Repr

/-- Where a publication stops: `CheckpointCrashInjector`, and batches that are not written. -/
structure PublicationFaults where
  after : CheckpointCrashPhase → Option CheckpointError
  batch : PublicationBatch → Option CheckpointError

/-- Programs over the metadata. -/
abbrev MetadataProg (α : Type) : Type := Prog MetadataRows (ReadStop CheckpointError) α

/-- Stop, or go on. -/
def stopIf (fault : Option CheckpointError) : MetadataProg Unit :=
  match fault with
  | some e => throw (.error e)
  | none => pure ()

/-- The batch of the first phase. -/
def stageBatch (digest : Bytes → Hash32) (encoded : Bytes) (rows : MetadataRows) : MetadataRows :=
  (rows.insert stagedKey encoded).insert journalKey (digest encoded).bytes

/-- The batch of the second phase, and of a recovery. -/
def publishBatch (encoded : Bytes) (rows : MetadataRows) : MetadataRows :=
  ((rows.insert currentKey encoded).erase stagedKey).erase journalKey

/-- What a publisher is made of. -/
structure CheckpointPublisher where
  digest : Bytes → Hash32
  limits : CheckpointLimits

namespace CheckpointPublisher

variable (p : CheckpointPublisher)

def publish (faults : PublicationFaults) (checkpoint : ByteCheckpoint) : MetadataProg Nat := do
  if p.limits.maxStack < checkpoint.layers.length then
    throw (.error (.limit "maximum checkpoint stack exceeded"))
  else do
    let encoded ← Prog.ofExcept .error (checkpoint.encode p.digest p.limits)
    stopIf (faults.after .beforeStage)
    stopIf (faults.batch .stage)
    modify (stageBatch p.digest encoded)
    stopIf (faults.after .afterStage)
    stopIf (faults.after .beforePublish)
    stopIf (faults.batch .publish)
    modify (publishBatch encoded)
    stopIf (faults.after .afterPublish)
    pure checkpoint.layers.length

/-- The publication gets past its first batch. -/
def staged (faults : PublicationFaults) (checkpoint : ByteCheckpoint) : Bool :=
  (checkpoint.encode p.digest p.limits).isOk && (faults.after .beforeStage).isNone &&
    (faults.batch .stage).isNone

def recoverStore : MetadataProg Bool := do
  let rows ← get
  match rows.lookup journalKey with
  | none => pure false
  | some expected => do
    let staged ← Prog.okOr (rows.lookup stagedKey) (.error (.corrupt "journal without staged stack"))
    if expected ≠ (p.digest staged).bytes then throw (.error (.corrupt "staged checksum mismatch"))
    else do
      let _ ← Prog.ofExcept id (ByteCheckpoint.decode p.digest staged p.limits)
      modify (publishBatch staged)
      pure true

end CheckpointPublisher

/-- `OverlayLayer`. -/
structure ManagedLayer where
  id : UInt64
  committed : Bool
  values : FMap StoreName (FMap Bytes (Write Bytes))
  abandoned : Bool
  disableOnExit : Bool
  deriving DecidableEq

/-- `CommittedCheckpoint`, with the image of its view. -/
structure ManagedCheckpoint where
  block : UInt64
  identity : CheckpointIdentity
  parent : Option CheckpointIdentity
  image : FMap StoreName (FMap Bytes Bytes)
  deriving DecidableEq

/-- What recovery touches of a `SessionManager`. -/
structure CheckpointManager where
  metadata : MetadataRows
  layers : List ManagedLayer := []
  checkpoints : List ManagedCheckpoint := []
  active : Nat := 0
  nextId : UInt64 := 1
  deriving DecidableEq

/-- The largest id, or zero. -/
def maxId (ids : List UInt64) : UInt64 := ids.foldl max 0

/-- A manager whose layers and history are those of a checkpoint. -/
def CheckpointManager.relinked (m : CheckpointManager) (checkpoint : ByteCheckpoint) :
    CheckpointManager where
  metadata := m.metadata
  active := m.active
  nextId := max (maxId (checkpoint.layers.map ByteLayer.id) + 1) 1
  layers := checkpoint.layers.map fun layer => ⟨layer.id, true, layer.values, false, false⟩
  checkpoints := checkpoint.history.map fun entry =>
    ⟨entry.block, entry.identity, entry.parent, entry.image⟩

namespace CheckpointPublisher

variable (p : CheckpointPublisher)

/-- A program over the metadata of a manager. -/
def onMetadata {α : Type} (x : MetadataProg α) :
    Prog CheckpointManager (ReadStop CheckpointError) α :=
  Prog.zoom CheckpointManager.metadata (fun m rows => { m with metadata := rows }) id x

/-- `replace_checkpoint_state_from`, with the current checkpoint. -/
def replaceCheckpointState : Prog CheckpointManager (ReadStop CheckpointError) Nat := do
  let m ← get
  if m.active ≠ 0 then throw (.error (.session (.activeSessions m.active)))
  else do
    let encoded ← Prog.okOr (m.metadata.lookup currentKey)
      (.error (.corrupt "missing current checkpoint"))
    let checkpoint ← Prog.ofExcept id (ByteCheckpoint.decode p.digest encoded p.limits)
    if checkpoint.layers.any fun layer => !layer.committed then
      throw (.error (.session .invalidSession))
    else do
      set (m.relinked checkpoint)
      pure checkpoint.layers.length

def recoverAndRelink : Prog CheckpointManager (ReadStop CheckpointError) (Option Nat) := do
  let present ← onMetadata (do
    let _ ← p.recoverStore
    let rows ← get
    pure (rows.lookup currentKey).isSome)
  if present then do
    let count ← p.replaceCheckpointState
    pure (some count)
  else pure none

end CheckpointPublisher

/-! ## The metadata of runs -/

theorem keys_distinct : stagedKey ≠ journalKey ∧ currentKey ≠ journalKey ∧ currentKey ≠ stagedKey := by
  decide

theorem lookup_stageBatch (digest : Bytes → Hash32) (encoded : Bytes) (rows : MetadataRows) :
    (stageBatch digest encoded rows).lookup journalKey = some (digest encoded).bytes ∧
      (stageBatch digest encoded rows).lookup stagedKey = some encoded := by
  obtain ⟨hs, -, -⟩ := keys_distinct
  unfold stageBatch
  rw [Finmap.lookup_insert, Finmap.lookup_insert_of_ne _ hs, Finmap.lookup_insert]
  exact ⟨rfl, rfl⟩

theorem lookup_publishBatch (encoded : Bytes) (rows : MetadataRows) :
    (publishBatch encoded rows).lookup journalKey = none ∧
      (publishBatch encoded rows).lookup stagedKey = none ∧
      (publishBatch encoded rows).lookup currentKey = some encoded := by
  obtain ⟨hs, hj, hc⟩ := keys_distinct
  unfold publishBatch
  rw [Finmap.lookup_erase, Finmap.lookup_erase_ne hs, Finmap.lookup_erase,
    Finmap.lookup_erase_ne hj, Finmap.lookup_erase_ne hc, Finmap.lookup_insert]
  exact ⟨rfl, rfl, rfl⟩

namespace CheckpointPublisher

variable (p : CheckpointPublisher)

/-- No publication is under way, and the checkpoint is the current one. -/
structure Settled (rows : MetadataRows) (state : Option ByteCheckpoint) : Prop where
  journal : rows.lookup journalKey = none
  staged : rows.lookup stagedKey = none
  current : match state with
    | none => rows.lookup currentKey = none
    | some checkpoint => ∃ encoded, rows.lookup currentKey = some encoded ∧
      ByteCheckpoint.decode p.digest encoded p.limits = .ok checkpoint

/-- A checkpoint is staged, and has not been published. -/
structure Staged (rows : MetadataRows) (encoded : Bytes) (checkpoint : ByteCheckpoint) : Prop where
  journal : rows.lookup journalKey = some (p.digest encoded).bytes
  staged : rows.lookup stagedKey = some encoded
  decodes : ByteCheckpoint.decode p.digest encoded p.limits = .ok checkpoint

/-- The metadata hold a checkpoint, whether its publication is finished or not. -/
inductive Holds (rows : MetadataRows) : Option ByteCheckpoint → Prop
  | settled {state : Option ByteCheckpoint} (h : p.Settled rows state) : Holds rows state
  | staged {encoded : Bytes} {checkpoint : ByteCheckpoint} (h : p.Staged rows encoded checkpoint) :
    Holds rows (some checkpoint)

/-- The metadata of runs of publications, compactions and recoveries, with the checkpoint that was
staged or published last. -/
inductive Reached : MetadataRows → Option ByteCheckpoint → Prop
  | new : Reached ∅ none
  | published {rows : MetadataRows} {previous : Option ByteCheckpoint} (h : Reached rows previous)
    (faults : PublicationFaults) {checkpoint : ByteCheckpoint} (hwell : checkpoint.WellFormed) :
    Reached (p.publish faults checkpoint rows).2
      (if p.staged faults checkpoint then some checkpoint else previous)
  | compacted {rows : MetadataRows} {previous : Option ByteCheckpoint} (h : Reached rows previous)
    {checkpoint : ByteCheckpoint} (hwell : checkpoint.WellFormed) {encoded : Bytes}
    (hencode : checkpoint.encode p.digest p.limits = .ok encoded) :
    Reached (publishBatch encoded rows) (some checkpoint)
  | recovered {m : CheckpointManager} {previous : Option ByteCheckpoint}
    (h : Reached m.metadata previous) : Reached (p.recoverAndRelink m).2.metadata previous

variable {p} {rows : MetadataRows}

/-- A publication stops before its first batch, between the two, or after the second. -/
theorem publish_cases (faults : PublicationFaults) (checkpoint : ByteCheckpoint)
    (rows : MetadataRows) :
    (p.staged faults checkpoint = false ∧ (p.publish faults checkpoint rows).2 = rows) ∨
    (p.staged faults checkpoint = true ∧ ∃ encoded,
      checkpoint.encode p.digest p.limits = .ok encoded ∧
      ((p.publish faults checkpoint rows).2 = stageBatch p.digest encoded rows ∨
        (p.publish faults checkpoint rows).2 =
          publishBatch encoded (stageBatch p.digest encoded rows))) := by
  unfold publish staged
  by_cases hs : p.limits.maxStack < checkpoint.layers.length
  · have he : checkpoint.encode p.digest p.limits =
        .error (.limit "maximum checkpoint stack exceeded") := by
      rw [ByteCheckpoint.encode, if_pos (.inl hs)]
      rfl
    rw [if_pos hs, he]
    exact .inl ⟨rfl, rfl⟩
  rw [if_neg hs]
  cases checkpoint.encode p.digest p.limits with
  | error e => exact .inl ⟨rfl, rfl⟩
  | ok encoded =>
    rw [Prog.bind_of_ok (Prog.ofExcept_ok_run _ _ _)]
    cases faults.after .beforeStage with
    | some e => exact .inl ⟨rfl, rfl⟩
    | none =>
      cases faults.batch .stage with
      | some e => exact .inl ⟨rfl, rfl⟩
      | none =>
        refine .inr ⟨rfl, encoded, rfl, ?_⟩
        cases faults.after .afterStage with
        | some e => exact .inl rfl
        | none =>
          cases faults.after .beforePublish with
          | some e => exact .inl rfl
          | none =>
            cases faults.batch .publish with
            | some e => exact .inl rfl
            | none =>
              cases faults.after .afterPublish with
              | some e => exact .inr rfl
              | none => exact .inr rfl

theorem settled_publishBatch {encoded : Bytes} {checkpoint : ByteCheckpoint} (rows : MetadataRows)
    (h : ByteCheckpoint.decode p.digest encoded p.limits = .ok checkpoint) :
    p.Settled (publishBatch encoded rows) (some checkpoint) := by
  obtain ⟨hj, hs, hc⟩ := lookup_publishBatch encoded rows
  exact ⟨hj, hs, encoded, hc, h⟩

/-- **A publication**, wherever it stops, leaves the metadata of the checkpoint that it staged, or
of the one before. -/
theorem Holds.publish {previous : Option ByteCheckpoint} (h : p.Holds rows previous)
    (faults : PublicationFaults) {checkpoint : ByteCheckpoint} (hw : checkpoint.WellFormed) :
    p.Holds (p.publish faults checkpoint rows).2
      (if p.staged faults checkpoint then some checkpoint else previous) := by
  rcases publish_cases faults checkpoint rows with
    ⟨hs, hr⟩ | ⟨hs, encoded, he, hr⟩
  · rw [hs, hr]
    exact h
  · have hd := ByteCheckpoint.decode_encode hw he
    rw [hs, if_pos rfl]
    rcases hr with hr | hr <;> rw [hr]
    · obtain ⟨hj, hro⟩ := lookup_stageBatch p.digest encoded rows
      exact .staged ⟨hj, hro, hd⟩
    · exact .settled (settled_publishBatch _ hd)

/-! ## Recovery -/

theorem Holds.recoverStore {state : Option ByteCheckpoint} (h : p.Holds rows state) :
    ∃ b rows', p.recoverStore rows = (.ok b, rows') ∧ p.Settled rows' state := by
  cases h with
  | settled h =>
    refine ⟨false, rows, ?_, h⟩
    rw [CheckpointPublisher.recoverStore, Prog.bind_of_ok (Prog.get_run _), h.journal]
    rfl
  | staged h =>
    refine ⟨true, publishBatch _ rows, ?_, settled_publishBatch rows h.decodes⟩
    rw [CheckpointPublisher.recoverStore, Prog.bind_of_ok (Prog.get_run _), h.journal, h.staged]
    dsimp only
    rw [Prog.okOr, Prog.bind_of_ok (Prog.pure_run _ _), if_neg (not_not.mpr rfl), h.decodes]
    rfl

/-- The manager that recovery leaves. -/
def restored (m : CheckpointManager) (rows : MetadataRows) (state : Option ByteCheckpoint) :
    CheckpointManager :=
  match state with
  | none => { m with metadata := rows }
  | some checkpoint => { m with metadata := rows }.relinked checkpoint

theorem metadata_restored (m : CheckpointManager) (rows : MetadataRows)
    (state : Option ByteCheckpoint) : (restored m rows state).metadata = rows := by
  cases state <;> rfl

theorem recoverAndRelink_run {m : CheckpointManager} {b : Bool}
    (hr : p.recoverStore m.metadata = (.ok b, rows)) :
    p.recoverAndRelink m =
      (if (rows.lookup currentKey).isSome then do
        let count ← p.replaceCheckpointState
        pure (some count)
      else pure none : Prog CheckpointManager (ReadStop CheckpointError) (Option Nat))
        { m with metadata := rows } := by
  have hp : onMetadata (do
      let _ ← p.recoverStore
      let rows ← get
      pure (rows.lookup currentKey).isSome) m =
        (.ok (rows.lookup currentKey).isSome, { m with metadata := rows }) := by
    rw [onMetadata, Prog.zoom_of_ok]
    rw [Prog.bind_of_ok hr, Prog.bind_of_ok (Prog.get_run _)]
    rfl
  rw [CheckpointPublisher.recoverAndRelink, Prog.bind_of_ok hp]

theorem Settled.recoverAndRelink {m : CheckpointManager} {state : Option ByteCheckpoint}
    (h : p.Settled rows state) (ha : m.active = 0) {b : Bool}
    (hru : p.recoverStore m.metadata = (.ok b, rows)) :
    p.recoverAndRelink m =
      (.ok (state.map fun checkpoint => checkpoint.layers.length), restored m rows state) := by
  rw [recoverAndRelink_run hru]
  cases state with
  | none =>
    have hc : rows.lookup currentKey = none := h.current
    rw [hc]
    rfl
  | some checkpoint =>
    obtain ⟨encoded, hc, hd⟩ := h.current
    have hw := (ByteCheckpoint.safe_decode p.digest p.limits encoded).2.2 checkpoint hd
    have hco : ¬ (checkpoint.layers.any fun layer => !layer.committed) = true := by
      rw [List.any_eq_true]
      rintro ⟨layer, hl, hn⟩
      rw [hw.committed layer hl] at hn
      cases hn
    have hr : p.replaceCheckpointState { m with metadata := rows } =
        (.ok checkpoint.layers.length, { m with metadata := rows }.relinked checkpoint) := by
      rw [replaceCheckpointState, Prog.bind_of_ok (Prog.get_run _),
        if_neg (not_not.mpr ha)]
      dsimp only
      rw [hc, Prog.okOr, Prog.bind_of_ok (Prog.pure_run _ _), hd,
        Prog.bind_of_ok (Prog.ofExcept_ok_run _ _ _), if_neg hco]
      rfl
    rw [hc, Option.isSome_some, if_pos rfl, Prog.bind_of_ok hr]
    rfl

theorem metadata_replaceCheckpointState (m : CheckpointManager) :
    (p.replaceCheckpointState m).2.metadata = m.metadata := by
  have hk : Prog.Keeps (fun m' : CheckpointManager => m'.metadata = m.metadata)
      p.replaceCheckpointState := by
    refine Prog.Keeps.of_state fun m₁ hm₁ => ?_
    rw [replaceCheckpointState, Prog.bind_of_ok (Prog.get_run _)]
    split
    · exact hm₁
    · cases m₁.metadata.lookup currentKey with
      | none => exact hm₁
      | some encoded =>
        rw [Prog.okOr, Prog.bind_of_ok (Prog.pure_run _ _)]
        cases ByteCheckpoint.decode p.digest encoded p.limits with
        | error e => exact hm₁
        | ok checkpoint =>
          rw [Prog.bind_of_ok (Prog.ofExcept_ok_run _ _ _)]
          split
          · exact hm₁
          · exact hm₁
  exact hk.state rfl

/-- Recovery leaves what it recovers of the metadata, whatever becomes of the manager. -/
theorem metadata_recoverAndRelink {m : CheckpointManager} {b : Bool}
    (hr : p.recoverStore m.metadata = (.ok b, rows)) :
    (p.recoverAndRelink m).2.metadata = rows := by
  rw [recoverAndRelink_run hr]
  split
  · have hk : (p.replaceCheckpointState { m with metadata := rows }).2.metadata = rows :=
      metadata_replaceCheckpointState _
    rw [Prog.bind_run]
    generalize p.replaceCheckpointState { m with metadata := rows } = run at hk ⊢
    rcases run with ⟨_ | count, m'⟩ <;> exact hk
  · rfl

/-- **The metadata of every run** hold the checkpoint that was staged or published last. -/
theorem Reached.holds {state : Option ByteCheckpoint} (h : p.Reached rows state) :
    p.Holds rows state := by
  induction h with
  | new => exact .settled ⟨rfl, rfl, rfl⟩
  | published _ faults hw ih => exact ih.publish faults hw
  | compacted _ hw he _ =>
    exact .settled (settled_publishBatch _ (ByteCheckpoint.decode_encode hw he))
  | recovered _ ih =>
    obtain ⟨b, rows, hr, hs⟩ := ih.recoverStore
    rw [metadata_recoverAndRelink hr]
    exact .settled hs

theorem restored_restored (m : CheckpointManager) (rows : MetadataRows)
    (state : Option ByteCheckpoint) :
    restored (restored m rows state) rows state = restored m rows state := by
  cases state <;> rfl

theorem active_restored (m : CheckpointManager) (rows : MetadataRows)
    (state : Option ByteCheckpoint) : (restored m rows state).active = m.active := by
  cases state <;> rfl

/-- Recovery of a new manager succeeds, leaves nothing staged, and may be repeated. -/
theorem Holds.recoverAndRelink {state : Option ByteCheckpoint} (h : p.Holds rows state) :
    ∃ rows', rows'.lookup stagedKey = none ∧ rows'.lookup journalKey = none ∧
      p.recoverAndRelink { metadata := rows } =
        (.ok (state.map fun checkpoint => checkpoint.layers.length),
          restored { metadata := rows } rows' state) ∧
      p.recoverAndRelink (restored { metadata := rows } rows' state) =
        (.ok (state.map fun checkpoint => checkpoint.layers.length),
          restored { metadata := rows } rows' state) := by
  obtain ⟨b, rows', hr, hs⟩ := h.recoverStore
  have ha : p.recoverStore rows' = (.ok false, rows') := by
    rw [CheckpointPublisher.recoverStore, Prog.bind_of_ok (Prog.get_run _), hs.journal]
    rfl
  refine ⟨rows', hs.staged, hs.journal, hs.recoverAndRelink rfl hr, ?_⟩
  rw [hs.recoverAndRelink (active_restored _ _ _) (by rwa [metadata_restored]),
    restored_restored]

variable (p) in
/-- **Recovery after a crash**: wherever a publication stops, a new manager recovers the checkpoint
it staged, or the one before if nothing was staged. Nothing staged is left behind, and recovering
again changes nothing. -/
theorem recovers_after_crash {rows : MetadataRows} {previous : Option ByteCheckpoint}
    (h : p.Reached rows previous) {checkpoint : ByteCheckpoint} (hwell : checkpoint.WellFormed)
    (faults : PublicationFaults) :
    ∃ rows', rows'.lookup stagedKey = none ∧ rows'.lookup journalKey = none ∧
      p.recoverAndRelink { metadata := (p.publish faults checkpoint rows).2 } =
        (.ok ((if p.staged faults checkpoint then some checkpoint else previous).map
            fun c => c.layers.length),
          restored { metadata := (p.publish faults checkpoint rows).2 } rows'
            (if p.staged faults checkpoint then some checkpoint else previous)) ∧
      p.recoverAndRelink (restored { metadata := (p.publish faults checkpoint rows).2 } rows'
          (if p.staged faults checkpoint then some checkpoint else previous)) =
        (.ok ((if p.staged faults checkpoint then some checkpoint else previous).map
            fun c => c.layers.length),
          restored { metadata := (p.publish faults checkpoint rows).2 } rows'
            (if p.staged faults checkpoint then some checkpoint else previous)) :=
  (h.holds.publish faults hwell).recoverAndRelink

section Sample

/-- A publisher with a digest of zeros. -/
def samplePublisher : CheckpointPublisher := ⟨fun _ => .zero, ByteCheckpoint.sampleLimits⟩

/-- The process stops between the two batches. -/
def stopAfterStage : PublicationFaults where
  after := fun phase => if phase = .afterStage then some (.storage "crash") else none
  batch := fun _ => none

theorem staged_sample :
    samplePublisher.staged stopAfterStage ByteCheckpoint.sample = true := by decide

theorem recovers_after_crash_sample :
    ∃ rows', samplePublisher.recoverAndRelink
      { metadata := (samplePublisher.publish stopAfterStage ByteCheckpoint.sample ∅).2 } =
        (.ok (some 1), restored
          { metadata := (samplePublisher.publish stopAfterStage ByteCheckpoint.sample ∅).2 } rows'
            (some ByteCheckpoint.sample)) := by
  obtain ⟨rows', -, -, hrun, -⟩ := samplePublisher.recovers_after_crash .new
    ByteCheckpoint.wellFormed_sample stopAfterStage
  rw [staged_sample] at hrun
  exact ⟨rows', hrun⟩

end Sample

end CheckpointPublisher

end RustTron.State
