import RustTron.Library.Reader
import RustTron.Library.Rows
import RustTron.Library.Results
import RustTron.Primitives.Bytes
import RustTron.Primitives.Usize
import RustTron.State.Checkpoint

/-!
# The byte form of a checkpoint

A checkpoint is written as an envelope around two counted lists: the committed layers with their
writes, and the history with the image of every entry. The size is computed before anything is
written. Reading checks every count against the limits and against what is left of the input
before it reserves room.

The rows of a store are in the order of their keys, and the stores in the order of their names.

## Main definitions

* `StoreName`: the name of a store, a text that is not empty
* `ByteCheckpoint.encodedSize`, `ByteCheckpoint.encode`: the size, and the bytes
* `ByteCheckpoint.decode`: the reader
-/

namespace RustTron.State

/-! ## Checkpoints with stores by name -/

/-- `StoreName`: a text that is not empty and whose length is a `u32`. -/
structure StoreName where
  bytes : Bytes
  text : validUtf8 bytes = true
  nonempty : bytes ≠ []
  short : bytes.length < 2 ^ 32
  deriving DecidableEq

/-- `StoreName::new`, of the bytes of a `String::from_utf8`. -/
def StoreName.ofBytes? (bytes : Bytes) : Option StoreName :=
  if h : validUtf8 bytes = true ∧ bytes ≠ [] ∧ bytes.length < 2 ^ 32 then
    some ⟨bytes, h.1, h.2.1, h.2.2⟩
  else none

theorem StoreName.ext {a b : StoreName} (h : a.bytes = b.bytes) : a = b := by
  cases a
  cases b
  simpa using h

@[simp] theorem StoreName.ofBytes?_bytes (name : StoreName) : ofBytes? name.bytes = some name :=
  dif_pos ⟨name.text, name.nonempty, name.short⟩

/-- The order of the names of stores. -/
def storeLe (a b : StoreName) : Prop := keyLe a.bytes b.bytes

instance : DecidableRel storeLe := fun a b => inferInstanceAs (Decidable (keyLe a.bytes b.bytes))

instance : IsTrans StoreName storeLe := ⟨fun a _ _ => trans_of keyLe (a := a.bytes)⟩

instance : Std.Total storeLe := ⟨fun a b => total_of keyLe a.bytes b.bytes⟩

instance : Std.Antisymm storeLe :=
  ⟨fun _ _ h h' => StoreName.ext (antisymm_of keyLe h h')⟩

/-- `CheckpointLayer`. -/
structure ByteLayer where
  id : UInt64
  committed : Bool
  values : FMap StoreName (FMap Bytes (Write Bytes))
  deriving DecidableEq

/-- `CheckpointHistory`, with the block and the identity of its point. -/
structure ByteHistory where
  block : UInt64
  identity : CheckpointIdentity
  parent : Option CheckpointIdentity
  image : FMap StoreName (FMap Bytes Bytes)
  deriving DecidableEq

/-- `CheckpointState`. -/
structure ByteCheckpoint where
  layers : List ByteLayer := []
  history : List ByteHistory := []
  deriving DecidableEq

/-! ## Writing -/

/-- `MAGIC`. -/
def checkpointMagic : Bytes := [0x54, 0x53, 0x54, 0x4b, 0x43, 0x50, 0x30, 0x32]

def envelopeBytes : Nat := 8 + 32

def minLayerBytes : Nat := 8 + 1 + 4

def minEntryBytes : Nat := 4 + 4 + 1

def minHistoryBytes : Nat := 32 + 8 + 1 + 4

/-- `checked_add`. -/
def checkpointAdd (current added : Nat) : Except CheckpointError Nat :=
  if current + added ≤ usizeMax then .ok (current + added)
  else .error (.limit "checkpoint bytes exceeded")

/-- `u32::try_from`, with the text of the error. -/
def checkpointU32 (message : String) (n : Nat) : Except CheckpointError Nat :=
  if n < 2 ^ 32 then .ok n else .error (.limit message)

def checkedSizedBytes (current length : Nat) : Except CheckpointError Nat := do
  let _ ← checkpointU32 "checkpoint byte string exceeded" length
  let current ← checkpointAdd current 4
  checkpointAdd current length

def putBytes (value : Bytes) : Except CheckpointError Bytes := do
  let length ← checkpointU32 "checkpoint byte string exceeded" value.length
  pure (beBytes 4 length ++ value)

/-- One part after the other is written. -/
def writeAll {α : Type} (write : α → Except CheckpointError Bytes) :
    List α → Except CheckpointError Bytes
  | [] => pure []
  | item :: items => do
    let bytes ← write item
    let more ← writeAll write items
    pure (bytes ++ more)

/-- A write of a layer. -/
structure LayerEntry where
  store : StoreName
  key : Bytes
  value : Write Bytes

/-- The writes of a layer, store by store. -/
def ByteLayer.entries (layer : ByteLayer) : List LayerEntry :=
  (FMap.sortedRows storeLe layer.values).flatMap fun e =>
    (FMap.sortedRows keyLe e.2).map fun row => ⟨e.1, row.1, row.2⟩

/-- The size of a write, and the number of writes. -/
def entrySize (acc : Nat × Nat) (e : LayerEntry) : Except CheckpointError (Nat × Nat) := do
  let entries ← checkpointAdd acc.2 1
  let size ← checkedSizedBytes acc.1 e.store.bytes.length
  let size ← checkedSizedBytes size e.key.length
  let size ← checkpointAdd size 1
  match e.value with
  | .put value => do
    let size ← checkedSizedBytes size value.length
    pure (size, entries)
  | .delete => pure (size, entries)

/-- The size of a layer. -/
def layerSize (size : Nat) (layer : ByteLayer) : Except CheckpointError Nat := do
  let size ← checkpointAdd size minLayerBytes
  let (size, entries) ← layer.entries.foldlM entrySize (size, 0)
  let _ ← checkpointU32 "checkpoint collection count exceeded" entries
  pure size

/-- The size of a row of an image. -/
def rowSize (size : Nat) (row : Bytes × Bytes) : Except CheckpointError Nat := do
  let size ← checkedSizedBytes size row.1.length
  checkedSizedBytes size row.2.length

/-- The size of a store of an image. -/
def imageSize (size : Nat) (e : StoreName × FMap Bytes Bytes) : Except CheckpointError Nat := do
  let size ← checkedSizedBytes size e.1.bytes.length
  let size ← checkpointAdd size 4
  let _ ← checkpointU32 "checkpoint collection count exceeded" (FMap.sortedRows keyLe e.2).length
  (FMap.sortedRows keyLe e.2).foldlM rowSize size

/-- The size of a history entry. -/
def historySize (size : Nat) (entry : ByteHistory) : Except CheckpointError Nat := do
  let size ← checkpointAdd size minHistoryBytes
  let size ← (if entry.parent.isSome then checkpointAdd size 32 else pure size)
  let _ ← checkpointU32 "checkpoint collection count exceeded"
    (FMap.sortedRows storeLe entry.image).length
  (FMap.sortedRows storeLe entry.image).foldlM imageSize size

def writeEntry (e : LayerEntry) : Except CheckpointError Bytes := do
  let store ← putBytes e.store.bytes
  let key ← putBytes e.key
  match e.value with
  | .put value => do
    let value ← putBytes value
    pure (store ++ (key ++ ([1] ++ value)))
  | .delete => pure (store ++ (key ++ [0]))

def writeLayer (layer : ByteLayer) : Except CheckpointError Bytes := do
  let count ← checkpointU32 "checkpoint collection count exceeded" layer.entries.length
  let entries ← writeAll writeEntry layer.entries
  pure (beBytes 8 layer.id.toNat ++ ([if layer.committed then 1 else 0] ++
    (beBytes 4 count ++ entries)))

def writeRow (row : Bytes × Bytes) : Except CheckpointError Bytes := do
  let key ← putBytes row.1
  let value ← putBytes row.2
  pure (key ++ value)

def writeImage (e : StoreName × FMap Bytes Bytes) : Except CheckpointError Bytes := do
  let store ← putBytes e.1.bytes
  let count ← checkpointU32 "checkpoint collection count exceeded"
    (FMap.sortedRows keyLe e.2).length
  let rows ← writeAll writeRow (FMap.sortedRows keyLe e.2)
  pure (store ++ (beBytes 4 count ++ rows))

def parentBytes : Option CheckpointIdentity → Bytes
  | some parent => [1] ++ parent.bytes
  | none => [0]

def writeHistory (entry : ByteHistory) : Except CheckpointError Bytes := do
  let count ← checkpointU32 "checkpoint collection count exceeded"
    (FMap.sortedRows storeLe entry.image).length
  let image ← writeAll writeImage (FMap.sortedRows storeLe entry.image)
  pure (entry.identity.bytes ++ (beBytes 8 entry.block.toNat ++ (parentBytes entry.parent ++
    (beBytes 4 count ++ image))))

namespace ByteCheckpoint

/-- The size of the encoded checkpoint, as it is computed before anything is written. -/
def encodedSize (checkpoint : ByteCheckpoint) : Except CheckpointError Nat := do
  let size ← checkpoint.layers.foldlM layerSize 4
  let size ← checkpointAdd size 4
  let size ← checkpoint.history.foldlM historySize size
  checkpointAdd envelopeBytes size

/-- `encode`, with the digest as a parameter. -/
def encode (digest : Bytes → Hash32) (checkpoint : ByteCheckpoint) (limits : CheckpointLimits) :
    Except CheckpointError Bytes := do
  if limits.maxStack < checkpoint.layers.length ∨ limits.maxStack < checkpoint.history.length then
    throw (.limit "maximum checkpoint stack exceeded")
  else
    let size ← checkpoint.encodedSize
    if limits.maxBytes < size then throw (.limit "checkpoint bytes exceeded")
    else
      let layerCount ← checkpointU32 "checkpoint collection count exceeded" checkpoint.layers.length
      let historyCount ← checkpointU32 "checkpoint collection count exceeded"
        checkpoint.history.length
      let layers ← writeAll writeLayer checkpoint.layers
      let history ← writeAll writeHistory checkpoint.history
      let body := beBytes 4 layerCount ++ (layers ++ (beBytes 4 historyCount ++ history))
      pure (checkpointMagic ++ (body ++ (digest body).bytes))

end ByteCheckpoint

/-! ## Reading -/

/-- The readers of a checkpoint. -/
abbrev CheckpointReader (α : Type) : Type := Reader CheckpointError α

/-- The error of `take`. -/
def truncated : CheckpointError := .corrupt "truncated checkpoint"

/-- The bytes of a `CheckpointIdentity`. -/
def readIdentity : CheckpointReader CheckpointIdentity := do
  let bytes ← Reader.take truncated 32
  match Hash32.ofBytes? bytes with
  | some identity => pure identity
  | none => throw .panic

def readStore : CheckpointReader StoreName := do
  let bytes ← Reader.sizedVec truncated
  match StoreName.ofBytes? bytes with
  | some name => pure name
  | none => Reader.fail (.corrupt "invalid store name")

def readValue (tag : UInt8) : CheckpointReader (Write Bytes) :=
  if tag = 0 then pure .delete
  else if tag = 1 then do
    let value ← Reader.sizedVec truncated
    pure (.put value)
  else Reader.fail (.corrupt "invalid value tag")

def readEntry (values : FMap StoreName (FMap Bytes (Write Bytes))) :
    CheckpointReader (FMap StoreName (FMap Bytes (Write Bytes))) := do
  let store ← readStore
  let key ← Reader.sizedVec truncated
  let tag ← Reader.byte truncated
  let value ← readValue tag
  let rows := (values.lookup store).getD ∅
  if key ∈ rows then Reader.fail (.corrupt "duplicate checkpoint entry")
  else pure (values.insert store (rows.insert key value))

def readLayer (layers : List ByteLayer) : CheckpointReader (List ByteLayer) := do
  let id ← Reader.number truncated 8
  let committed ← Reader.byte truncated
  let entries ← Reader.counted truncated (.limit "checkpoint entry count exceeds remaining bytes")
    usizeMax minEntryBytes
  if committed = 0 then Reader.fail (.corrupt "uncommitted checkpoint layer")
  else if UInt64.ofNat id ∈ layers.map ByteLayer.id then
    Reader.fail (.corrupt "duplicate checkpoint layer")
  else do
    let values ← Reader.loop readEntry entries ∅
    pure (layers ++ [⟨UInt64.ofNat id, true, values⟩])

def readRow (rows : FMap Bytes Bytes) : CheckpointReader (FMap Bytes Bytes) := do
  let key ← Reader.sizedVec truncated
  let value ← Reader.sizedVec truncated
  if key ∈ rows then Reader.fail (.corrupt "duplicate checkpoint snapshot entry")
  else pure (rows.insert key value)

def readImage (image : FMap StoreName (FMap Bytes Bytes)) :
    CheckpointReader (FMap StoreName (FMap Bytes Bytes)) := do
  let store ← readStore
  let count ← Reader.counted truncated
    (.limit "checkpoint snapshot row count exceeds remaining bytes") usizeMax 8
  let rows ← Reader.loop readRow count ∅
  if store ∈ image then Reader.fail (.corrupt "duplicate checkpoint snapshot store")
  else pure (image.insert store rows)

def readParent (tag : UInt8) : CheckpointReader (Option CheckpointIdentity) :=
  if tag = 0 then pure none
  else if tag = 1 then do
    let parent ← readIdentity
    pure (some parent)
  else Reader.fail (.corrupt "invalid checkpoint parent tag")

def readHistory (history : List ByteHistory) : CheckpointReader (List ByteHistory) := do
  let identity ← readIdentity
  let block ← Reader.number truncated 8
  let tag ← Reader.byte truncated
  let parent ← readParent tag
  let stores ← Reader.counted truncated
    (.limit "checkpoint snapshot store count exceeds remaining bytes") usizeMax 8
  let image ← Reader.loop readImage stores ∅
  if identity ∈ history.map ByteHistory.identity then
    Reader.fail (.corrupt "duplicate checkpoint identity")
  else if history.getLast?.any fun previous =>
      parent ≠ some previous.identity ∨ UInt64.ofNat block ≤ previous.block then
    Reader.fail (.corrupt "invalid checkpoint ancestry")
  else if history = [] ∧ parent.isSome then Reader.fail (.corrupt "invalid checkpoint ancestry")
  else pure (history ++ [⟨UInt64.ofNat block, identity, parent, image⟩])

/-- The two counted lists of a checkpoint. -/
def readLists (limits : CheckpointLimits) : CheckpointReader ByteCheckpoint := do
  let layerCount ← Reader.countedRoom truncated (.limit "maximum checkpoint stack exceeded")
    limits.maxStack minLayerBytes 1
  let layers ← Reader.loop readLayer layerCount []
  -- the set of identities and the list of entries
  let historyCount ← Reader.countedRoom truncated (.limit "maximum checkpoint history exceeded")
    limits.maxStack minHistoryBytes 2
  let history ← Reader.loop readHistory historyCount []
  pure ⟨layers, history⟩

def readBody (limits : CheckpointLimits) : CheckpointReader ByteCheckpoint := do
  let checkpoint ← readLists limits
  let left ← Reader.rest
  if left ≠ [] then Reader.fail (.corrupt "trailing checkpoint bytes") else pure checkpoint

namespace ByteCheckpoint

/-- The envelope, and what it holds. -/
def read (digest : Bytes → Hash32) (limits : CheckpointLimits) : CheckpointReader ByteCheckpoint := do
  let encoded ← Reader.rest
  if limits.maxBytes < encoded.length ∨ encoded.length < envelopeBytes + 8 then
    Reader.fail (.corrupt "invalid checkpoint envelope")
  else do
    let magic ← Reader.splitAt checkpointMagic.length
    if magic ≠ checkpointMagic then Reader.fail (.corrupt "invalid checkpoint envelope")
    else do
      -- the subtraction panics below zero
      let size ← (if encoded.length < envelopeBytes then throw .panic
        else pure (encoded.length - envelopeBytes))
      let body ← Reader.splitAt size
      let checksum ← Reader.rest
      if checksum ≠ (digest body).bytes then Reader.fail (.corrupt "checkpoint checksum mismatch")
      else do
        modify fun s => { s with input := body }
        readBody limits

/-- `decode`, with the digest as a parameter. -/
def decode (digest : Bytes → Hash32) (encoded : Bytes) (limits : CheckpointLimits) :
    Except (ReadStop CheckpointError) ByteCheckpoint := (read digest limits ⟨encoded, []⟩).1

end ByteCheckpoint

end RustTron.State
