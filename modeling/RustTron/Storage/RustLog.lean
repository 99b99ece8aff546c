import RustTron.Primitives.Bytes
import RustTron.Library.Rows
import RustTron.Library.Prog

/-!
# RustLog

The storage backend keeps its rows in memory, appends each batch of writes as a checksummed frame to
a write-ahead log, and now and then replaces a snapshot of all rows and empties the log. It opens by
loading the snapshot and replaying the log over it.

The directory is its snapshot and its log; the temporary file of a new snapshot is not part of it
until it is renamed. The log is written at its end only, so its position is left out, and so is the
market index, a function of the rows. Each step on the files takes its outcome from a list.

## Main definitions

* `RustLogOptions`, `StorageError`, `BatchOperation`
* `encodeBatch`, `decodeBatch`, `encodeFrame`, `recoverWal`: the log and its recovery
* `encodeSnapshot`, `decodeSnapshot`, `loadSnapshot`: the snapshot
* `RustLog`, `RustLog.write`, `RustLog.compact`, `RustLog.openGeneration`
-/

namespace RustTron.Storage

/-- `WAL_MAGIC`: `RLOGWAL1`. -/
def walMagic : Bytes := [0x52, 0x4c, 0x4f, 0x47, 0x57, 0x41, 0x4c, 0x31]

/-- `SNAPSHOT_MAGIC`: `RLOGSNP1`. -/
def snapshotMagic : Bytes := [0x52, 0x4c, 0x4f, 0x47, 0x53, 0x4e, 0x50, 0x31]

def frameHeaderLen : Nat := 8

def snapshotHeaderLen : Nat := 20

/-- `RustLogOptions`; a `usize` has 64 bits. -/
structure RustLogOptions where
  syncOnWrite : Bool
  compactAfterBytes : UInt64
  maxSnapshotBytes : UInt64
  maxSnapshotEntries : UInt64
  maxFrameBytes : UInt64
  maxKeyBytes : UInt64
  maxValueBytes : UInt64
  maxBatchOperations : UInt64

def RustLogOptions.default : RustLogOptions where
  syncOnWrite := false
  compactAfterBytes := 16 * 1024 * 1024
  maxFrameBytes := 64 * 1024 * 1024
  maxSnapshotBytes := 1024 * 1024 * 1024
  maxSnapshotEntries := 1000000
  maxKeyBytes := 16 * 1024 * 1024
  maxValueBytes := 64 * 1024 * 1024
  maxBatchOperations := 1000000

inductive Corruption where
  | invalidWalHeader
  | invalidSnapshotHeader
  | walChecksum (offset : Nat)
  | snapshotChecksum
  | frameTooLarge (actual maximum : Nat)
  | keyTooLarge (actual maximum : Nat)
  | valueTooLarge (actual maximum : Nat)
  | tooManyOperations (actual maximum : Nat)
  | tooManySnapshotEntries (actual maximum : Nat)
  | invalidOperation (tag : UInt8)
  | invalidEncoding
  | trailingSnapshotBytes
  deriving DecidableEq, Repr

/-- The kinds of `io::Error` that are told apart. -/
inductive IoError where
  | permissionDenied
  | storageFull
  | wouldBlock
  | other
  deriving DecidableEq, Repr

/-- `StorageError`, as far as the log and the snapshot raise it; the paths are absent there. -/
inductive StorageError where
  | io (error : IoError)
  | diskFull
  | permission
  | concurrentOpen
  | corruption (corruption : Corruption)
  | invalidOptions (message : String)
  | closed
  | poisoned
  deriving DecidableEq, Repr

/-- `From<io::Error> for StorageError`. -/
def StorageError.ofIo : IoError → StorageError
  | .permissionDenied => permission
  | .storageFull => diskFull
  | .wouldBlock => concurrentOpen
  | .other => io .other

inductive BatchOperation where
  | put (key value : Bytes)
  | delete (key : Bytes)
  deriving DecidableEq, Repr

abbrev WriteBatch := List BatchOperation

/-- The rows of a store. -/
abbrev Entries := FMap Bytes Bytes

/-- One operation of `apply_batch`. -/
def applyOperation (entries : Entries) : BatchOperation → Entries
  | .put key value => entries.insert key value
  | .delete key => entries.erase key

def applyBatch (entries : Entries) (batch : WriteBatch) : Entries := batch.foldl applyOperation entries

/-! ## Bytes -/

/-- The low `width` bytes of a number, least significant first: `to_le_bytes`. -/
def toLeBytes : Nat → Nat → Bytes
  | 0, _ => []
  | width + 1, n => UInt8.ofNat n :: toLeBytes width (n / 256)

def fromLeBytes (bytes : Bytes) : Nat := bytes.foldr (fun b n => b.toNat + 256 * n) 0

/-- Eight rounds of the division by the polynomial. -/
def crcByte : Nat → UInt32 → UInt32
  | 0, crc => crc
  | rounds + 1, crc => crcByte rounds ((crc >>> 1) ^^^ (0xedb88320 &&& (0 - (crc &&& 1))))

def crc32 (bytes : Bytes) : UInt32 :=
  ~~~ bytes.foldl (fun crc b => crcByte 8 (crc ^^^ b.toUInt32)) (~~~ 0)

def checkLimit (actual : Nat) (maximum : UInt64) (error : Nat → Nat → Corruption) :
    Except StorageError Unit :=
  if maximum.toNat < actual then .error (.corruption (error actual maximum.toNat)) else .ok ()

def pushU32 (output : Bytes) (value : Nat) : Except StorageError Bytes :=
  if value < 2 ^ 32 then .ok (output ++ toLeBytes 4 value)
  else .error (.corruption .invalidEncoding)

/-- The error for a key or a value that is too long. -/
def tooLarge (key : Bool) (actual : Nat) (maximum : UInt64) : StorageError :=
  .corruption (if key then .keyTooLarge actual maximum.toNat
    else .valueTooLarge actual maximum.toNat)

def encodeBytes (output bytes : Bytes) (maximum : UInt64) (key : Bool) :
    Except StorageError Bytes := do
  if maximum.toNat < bytes.length then throw (tooLarge key bytes.length maximum)
  let output ← pushU32 output bytes.length
  pure (output ++ bytes)

/-- `SliceCursor`: a read from the bytes that are left. -/
abbrev SliceCursor (α : Type) : Type := Bytes → Except StorageError (α × Bytes)

namespace SliceCursor

def byte : SliceCursor UInt8
  | [] => .error (.corruption .invalidEncoding)
  | b :: rest => .ok (b, rest)

def u32 : SliceCursor Nat := fun rest =>
  if rest.length < 4 then .error (.corruption .invalidEncoding)
  else .ok (fromLeBytes (rest.take 4), rest.drop 4)

def bytes (maximum : UInt64) (key : Bool) : SliceCursor Bytes := fun rest => do
  let (length, rest) ← u32 rest
  if maximum.toNat < length then throw (tooLarge key length maximum)
  else if rest.length < length then throw (.corruption .invalidEncoding)
  else pure (rest.take length, rest.drop length)

end SliceCursor

/-! ## The log -/

/-- One round of the loop of `encode_batch`. -/
def encodeOperation (options : RustLogOptions) (payload : Bytes) (operation : BatchOperation) :
    Except StorageError Bytes := do
  let payload ← (match operation with
    | .put key value => do
      let payload ← encodeBytes (payload ++ [0]) key options.maxKeyBytes true
      encodeBytes payload value options.maxValueBytes false
    | .delete key => encodeBytes (payload ++ [1]) key options.maxKeyBytes true)
  let _ ← checkLimit payload.length options.maxFrameBytes .frameTooLarge
  pure payload

def encodeBatch (batch : WriteBatch) (options : RustLogOptions) : Except StorageError Bytes := do
  let _ ← checkLimit batch.length options.maxBatchOperations .tooManyOperations
  let payload ← pushU32 [] batch.length
  batch.foldlM (encodeOperation options) payload

/-- One round of the loop of `decode_batch`. -/
def decodeOperation (options : RustLogOptions) : SliceCursor BatchOperation := fun rest => do
  let (tag, rest) ← SliceCursor.byte rest
  let (key, rest) ← SliceCursor.bytes options.maxKeyBytes true rest
  if tag = 0 then do
    let (value, rest) ← SliceCursor.bytes options.maxValueBytes false rest
    pure (.put key value, rest)
  else if tag = 1 then pure (.delete key, rest)
  else throw (.corruption (.invalidOperation tag))

/-- The loop of `decode_batch`. -/
def decodeOperations (options : RustLogOptions) : Nat → SliceCursor WriteBatch
  | 0, rest => .ok ([], rest)
  | count + 1, rest => do
    let (operation, rest) ← decodeOperation options rest
    let (operations, rest) ← decodeOperations options count rest
    pure (operation :: operations, rest)

def decodeBatch (payload : Bytes) (options : RustLogOptions) : Except StorageError WriteBatch := do
  let (count, rest) ← SliceCursor.u32 payload
  let _ ← checkLimit count options.maxBatchOperations .tooManyOperations
  let (operations, rest) ← decodeOperations options count rest
  if rest = [] then pure operations else throw (.corruption .invalidEncoding)

def encodeFrame (payload : Bytes) : Except StorageError Bytes :=
  if payload.length < 2 ^ 32 then
    .ok (toLeBytes 4 payload.length ++ toLeBytes 4 (crc32 payload).toNat ++ payload)
  else .error (.corruption .invalidEncoding)

/-- `ReadState`, with what was read and what is left of the file. -/
inductive ReadState where
  | complete (buffer rest : Bytes)
  | eof
  | incomplete

/-- `read_complete`, into a buffer of `count` bytes. -/
def readComplete (count : Nat) (rest : Bytes) : ReadState :=
  if count ≤ rest.length then .complete (rest.take count) (rest.drop count)
  else if rest = [] then .eof
  else .incomplete

/-- The loop of `recover_wal`: the rows, and the length the log is cut to. Every round reads at least
a frame header, and `fuel` is the length of the log. -/
def recoverFrames (options : RustLogOptions) :
    Nat → Nat → Bytes → Entries → Except StorageError (Entries × Nat)
  | 0, frameStart, _, entries => .ok (entries, frameStart)
  | fuel + 1, frameStart, rest, entries =>
    match readComplete frameHeaderLen rest with
    | .eof => .ok (entries, frameStart)
    | .incomplete => .ok (entries, frameStart)
    | .complete header rest =>
      let frameLength := fromLeBytes (header.take 4)
      if options.maxFrameBytes.toNat < frameLength then
        .error (.corruption (.frameTooLarge frameLength options.maxFrameBytes.toNat))
      else
        match readComplete frameLength rest with
        | .eof => .ok (entries, frameStart)
        | .incomplete => .ok (entries, frameStart)
        | .complete payload rest =>
          if (crc32 payload).toNat ≠ fromLeBytes (header.drop 4) then
            .error (.corruption (.walChecksum frameStart))
          else do
            let batch ← decodeBatch payload options
            recoverFrames options fuel (frameStart + frameHeaderLen + frameLength) rest
              (applyBatch entries batch)

/-- `recover_wal`: the rows, and the log it leaves. -/
def recoverWal (wal : Bytes) (entries : Entries) (options : RustLogOptions) :
    Except StorageError (Entries × Bytes) :=
  if wal.length < walMagic.length then .ok (entries, walMagic)
  else if wal.take walMagic.length ≠ walMagic then .error (.corruption .invalidWalHeader)
  else do
    let (entries, length) ← recoverFrames options wal.length walMagic.length
      (wal.drop walMagic.length) entries
    pure (entries, wal.take length)

/-! ## The snapshot -/

/-- One round of the loop of `encode_snapshot`. -/
def encodeRow (options : RustLogOptions) (payload : Bytes) (row : Bytes × Bytes) :
    Except StorageError Bytes := do
  let payload ← encodeBytes payload row.1 options.maxKeyBytes true
  let payload ← encodeBytes payload row.2 options.maxValueBytes false
  let _ ← checkLimit payload.length options.maxSnapshotBytes .frameTooLarge
  pure payload

def encodeSnapshot (entries : Entries) (options : RustLogOptions) : Except StorageError Bytes := do
  let rows := FMap.sortedRows keyLe entries
  let _ ← checkLimit rows.length options.maxSnapshotEntries .tooManySnapshotEntries
  let payload ← pushU32 [] rows.length
  rows.foldlM (encodeRow options) payload

/-- The loop of `decode_snapshot`. -/
def decodeRows (options : RustLogOptions) : Nat → Entries → SliceCursor Entries
  | 0, entries, rest => .ok (entries, rest)
  | count + 1, entries, rest => do
    let (key, rest) ← SliceCursor.bytes options.maxKeyBytes true rest
    let (value, rest) ← SliceCursor.bytes options.maxValueBytes false rest
    if (entries.lookup key).isSome then throw (.corruption .invalidEncoding)
    else decodeRows options count (entries.insert key value) rest

def decodeSnapshot (payload : Bytes) (options : RustLogOptions) : Except StorageError Entries := do
  let (count, rest) ← SliceCursor.u32 payload
  let _ ← checkLimit count options.maxSnapshotEntries .tooManySnapshotEntries
  let (entries, rest) ← decodeRows options count ∅ rest
  if rest = [] then pure entries else throw (.corruption .invalidEncoding)

/-- `load_snapshot`, of the snapshot file if there is one. -/
def loadSnapshot (file : Option Bytes) (options : RustLogOptions) : Except StorageError Entries :=
  match file with
  | none => .ok ∅
  | some bytes =>
    if bytes.length < snapshotHeaderLen then .error (.corruption .invalidSnapshotHeader)
    else if bytes.take 8 ≠ snapshotMagic then .error (.corruption .invalidSnapshotHeader)
    else
      let payloadLength := fromLeBytes ((bytes.drop 8).take 8)
      if options.maxSnapshotBytes.toNat < payloadLength then
        .error (.corruption (.frameTooLarge payloadLength options.maxSnapshotBytes.toNat))
      else if bytes.length ≠ snapshotHeaderLen + payloadLength then
        .error (.corruption .trailingSnapshotBytes)
      else
        let payload := bytes.drop snapshotHeaderLen
        if (crc32 payload).toNat ≠ fromLeBytes ((bytes.drop 16).take 4) then
          .error (.corruption .snapshotChecksum)
        else decodeSnapshot payload options

/-- What `install_snapshot` writes to its temporary file. -/
def snapshotFile (payload : Bytes) : Bytes :=
  snapshotMagic ++ toLeBytes 8 payload.length ++ toLeBytes 4 (crc32 payload).toNat ++ payload

/-! ## The store -/

/-- The files of a generation. -/
structure Directory where
  snapshot : Option Bytes
  wal : Bytes

/-- What becomes of one step on the files. A write that fails may have written some bytes. -/
inductive IoOutcome where
  | done
  | failed (error : IoError) (written : Nat)

/-- `RustLog`, with the outcomes of the next steps on its files; later ones are done. -/
structure RustLog where
  directory : Directory
  options : RustLogOptions
  entries : Entries
  closed : Bool
  poisoned : Bool
  maintenanceError : Option StorageError
  outcomes : List IoOutcome

/-- Operations of a store. -/
abbrev StorageM := Prog RustLog StorageError

/-- `load_snapshot` and `recover_wal` on a directory. -/
def reopen (directory : Directory) (options : RustLogOptions) :
    Except StorageError (Entries × Bytes) := do
  let entries ← loadSnapshot directory.snapshot options
  recoverWal directory.wal entries options

def validateOptions (options : RustLogOptions) : Except StorageError Unit :=
  if options.maxFrameBytes = 0 then .error (.invalidOptions "max_frame_bytes must be nonzero")
  else if options.maxSnapshotBytes = 0 then
    .error (.invalidOptions "max_snapshot_bytes must be nonzero")
  else if options.maxSnapshotEntries = 0 then
    .error (.invalidOptions "max_snapshot_entries must be nonzero")
  else if options.maxKeyBytes = 0 then .error (.invalidOptions "max_key_bytes must be nonzero")
  else if options.maxBatchOperations = 0 then
    .error (.invalidOptions "max_batch_operations must be nonzero")
  else .ok ()

namespace RustLog

def openGeneration (directory : Directory) (options : RustLogOptions) :
    Except StorageError RustLog := do
  let _ ← validateOptions options
  let (entries, wal) ← reopen directory options
  pure {
    directory := { directory with wal := wal }
    options := options
    entries := entries
    closed := false
    poisoned := false
    maintenanceError := none
    outcomes := [] }

/-- A step on the files. -/
def step (effect : Directory → Directory) : StorageM Unit := fun log =>
  match log.outcomes with
  | [] => (.ok (), { log with directory := effect log.directory })
  | .done :: rest =>
    (.ok (), { log with directory := effect log.directory, outcomes := rest })
  | .failed error _ :: rest => (.error (.ofIo error), { log with outcomes := rest })

/-- `seek`, `flush`, a sync, or a step on the temporary file. -/
def still : StorageM Unit := step id

/-- The log with these bytes at its end. -/
def appended (bytes : Bytes) (directory : Directory) : Directory :=
  { directory with wal := directory.wal ++ bytes }

/-- `wal.write_all`. -/
def writeAll (bytes : Bytes) : StorageM Unit := fun log =>
  match log.outcomes with
  | [] => (.ok (), { log with directory := appended bytes log.directory })
  | .done :: rest =>
    (.ok (), { log with directory := appended bytes log.directory, outcomes := rest })
  | .failed error written :: rest =>
    (.error (.ofIo error),
      { log with directory := appended (bytes.take written) log.directory, outcomes := rest })

/-- `wal.set_len`, to a shorter length. -/
def setLen (length : Nat) : StorageM Unit :=
  step fun directory => { directory with wal := directory.wal.take length }

/-- `wal.metadata`, and its length. -/
def walLength : StorageM Nat := do
  still
  let log ← get
  pure log.directory.wal.length

def ensureUsable : StorageM Unit := do
  let log ← get
  if log.closed then throw .closed
  else if log.poisoned then throw .poisoned

/-- `install_snapshot`. The temporary file is created, written in four parts and synced before it is
renamed. -/
def installSnapshot : StorageM Unit := do
  let log ← get
  let payload ← Prog.ofExcept id (encodeSnapshot log.entries log.options)
  still
  still
  still
  still
  still
  still
  step fun directory => { directory with snapshot := some (snapshotFile payload) }
  still

def compact : StorageM Unit := do
  ensureUsable
  installSnapshot
  setLen 0
  still
  writeAll walMagic
  still
  still

/-- The steps of `write_with_faults` whose failure is rolled back. -/
def append (frame : Bytes) : StorageM Unit := do
  writeAll frame
  still
  let log ← get
  if log.options.syncOnWrite then still

def rollbackWal (offset : Nat) : StorageM Unit := do
  setLen offset
  still
  still

/-- The end of `write_with_faults`: a failure of the maintenance is kept aside. -/
def maintain : StorageM Unit := do
  match ← (Prog.attempt walLength : StorageM (Except StorageError Nat)) with
  | .error error => modify fun log => { log with maintenanceError := some error }
  | .ok length =>
    let log ← get
    if 0 < log.options.compactAfterBytes.toNat ∧ log.options.compactAfterBytes.toNat ≤ length then
      match ← (Prog.attempt compact : StorageM (Except StorageError Unit)) with
      | .error error => modify fun log => { log with maintenanceError := some error }
      | .ok () => pure ()

def write (batch : WriteBatch) : StorageM Unit := do
  ensureUsable
  if batch = [] then pure ()
  else do
    let log ← get
    let payload ← Prog.ofExcept id (encodeBatch batch log.options)
    let frame ← Prog.ofExcept id (encodeFrame payload)
    still
    match ← (Prog.attempt (append frame) : StorageM (Except StorageError Unit)) with
    | .error error =>
      match ← (Prog.attempt (rollbackWal log.directory.wal.length) :
        StorageM (Except StorageError Unit)) with
      | .error _ => do
        modify fun log => { log with poisoned := true }
        throw .poisoned
      | .ok () => throw error
    | .ok () => do
      modify fun log => { log with entries := applyBatch log.entries batch }
      maintain

end RustLog

end RustTron.Storage
