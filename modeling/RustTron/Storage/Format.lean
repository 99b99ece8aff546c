import RustTron.Storage.RustLog
import Mathlib

/-!
# The storage format

The manifest of a store is a text of fields, one to a line in the order of their names, with a
checksum in the last line. A value is escaped byte by byte.

## Main definitions

* `StableError`, `FormatError`: the failures of the storage, without the path they name
* `escape`, `unescape`, `sealBody`, `unsealBody`: the texts of a file with a checksum
* `Manifest`, `Manifest.encode`, `Manifest.decode`, `Manifest.validate`
-/

namespace RustTron.Storage

inductive StableError where
  | javaFormat
  | ambiguousNonempty
  | manifestMissing
  | manifestCorrupt
  | formatUnknown
  | formatNewer
  | wrongNetwork
  | wrongGenesis
  | backendUnsupported
  | featuresUnsupported
  | partialMigration
  | locked
  | permission
  | diskFull
  | concurrentOpen
  | integrity
  | snapshotUnauthenticated
  | snapshotIncompatible
  | notEmpty
  | unsupportedMigration
  | io
  | sourceTooLarge
  deriving DecidableEq, Repr

structure FormatError where
  category : StableError
  detail : String
  deriving DecidableEq, Repr

/-! ## Texts -/

/-- The bytes of a text. -/
def textBytes (text : List Char) : Bytes := text.flatMap String.utf8EncodeChar

/-- `std::str::from_utf8`, inside a character: how many bytes are missing, the value so far, and the
least value that needs as many bytes. -/
def utf8Chars : Option (Nat × Nat × Nat) → Bytes → Option (List Char)
  | none, [] => some []
  | some _, [] => none
  | none, b :: rest =>
    if b < 0x80 then (Char.ofNat b.toNat :: ·) <$> utf8Chars none rest
    else if 0xc2 ≤ b ∧ b < 0xe0 then utf8Chars (some (1, b.toNat - 0xc0, 0x80)) rest
    else if 0xe0 ≤ b ∧ b < 0xf0 then utf8Chars (some (2, b.toNat - 0xe0, 0x800)) rest
    else if 0xf0 ≤ b ∧ b < 0xf5 then utf8Chars (some (3, b.toNat - 0xf0, 0x10000)) rest
    else none
  | some (missing, value, least), b :: rest =>
    if 0x80 ≤ b ∧ b < 0xc0 then
      let value := value * 64 + (b.toNat - 0x80)
      if 1 < missing then utf8Chars (some (missing - 1, value, least)) rest
      else if least ≤ value ∧ value.isValidChar then
        (Char.ofNat value :: ·) <$> utf8Chars none rest
      else none
    else none

def fromUtf8 (bytes : Bytes) : Option (List Char) := utf8Chars none bytes

/-- Two digits `{:02X}`. -/
def upperHex (b : UInt8) : List Char := [digit (b.toNat / 16), digit (b.toNat % 16)]
where
  /-- A hexadecimal digit. -/
  digit (n : Nat) : Char := Char.ofNat (if n < 10 then 48 + n else 55 + n)

/-- Eight digits `{:08x}`. -/
def lowerHex8 (n : UInt32) : List Char :=
  let digits := Nat.toDigits 16 n.toNat
  List.replicate (8 - digits.length) '0' ++ digits

/-- The value of a digit in a radix. -/
def digitValue (radix : Nat) (c : Char) : Option Nat :=
  let value :=
    if '0' ≤ c ∧ c ≤ '9' then some (c.toNat - 48)
    else if 'a' ≤ c ∧ c ≤ 'z' then some (c.toNat - 87)
    else if 'A' ≤ c ∧ c ≤ 'Z' then some (c.toNat - 55)
    else none
  value.filter (· < radix)

/-- `from_str_radix` for an unsigned type up to `max`: a sign may stand before the digits. -/
def parseRadix (radix max : Nat) (text : List Char) : Option Nat := do
  let digits := match text with
    | '+' :: rest => rest
    | _ => text
  if digits = [] then none
  let values ← digits.mapM (digitValue radix)
  let value := values.foldl (fun acc d => acc * radix + d) 0
  if value ≤ max then some value else none

/-- `str::parse::<u32>`. -/
def parseU32 (text : List Char) : Option Nat := parseRadix 10 (2 ^ 32 - 1) text

/-- `str::parse::<u64>`. -/
def parseU64 (text : List Char) : Option Nat := parseRadix 10 (2 ^ 64 - 1) text

/-- `escape`: the bytes that have a meaning in the files become `%XX`, the others characters. -/
def escape (value : String) : List Char :=
  (textBytes value.toList).flatMap fun b =>
    if b = 0x25 ∨ b = 0x0a ∨ b = 0x0d ∨ b = 0x3d ∨ b = 0x2c then '%' :: upperHex b
    else [Char.ofNat b.toNat]

/-- The bytes of an escaped text. -/
def unescapeBytes : Bytes → Option Bytes
  | [] => some []
  | b :: rest =>
    if b = 0x25 then
      match rest with
      | high :: low :: rest => do
        let digits ← fromUtf8 [high, low]
        let value ← parseRadix 16 255 digits
        (UInt8.ofNat value :: ·) <$> unescapeBytes rest
      | _ => none
    else (b :: ·) <$> unescapeBytes rest

def unescape (value : List Char) : Option String := do
  let bytes ← unescapeBytes (textBytes value)
  String.ofList <$> fromUtf8 bytes

def splitOnce (c : Char) : List Char → Option (List Char × List Char)
  | [] => none
  | d :: rest => if d = c then some ([], rest) else (splitOnce c rest).map fun p => (d :: p.1, p.2)

/-- `str::rfind` with `split_at`: the text up to the last place of the pattern, and from there. -/
def splitLast (pattern : List Char) : List Char → Option (List Char × List Char)
  | [] => none
  | c :: rest =>
    match splitLast pattern rest with
    | some (before, after) => some (c :: before, after)
    | none => if pattern.isPrefixOf (c :: rest) then some ([], c :: rest) else none

/-- `str::lines`: a carriage return before a line feed is part of it. -/
def lines (text : List Char) : List (List Char) :=
  let parts := text.splitOn '\n'
  parts.dropLast.map (fun line => if line.getLast? = some '\r' then line.dropLast else line) ++
    (parts.getLast?.filter (· ≠ [])).toList

/-- The line of the checksum. -/
def checksumLine (body : List Char) : List Char :=
  "checksum=".toList ++ lowerHex8 (crc32 (textBytes body)) ++ ['\n']

/-- A text with the line of its checksum. -/
def sealBody (body : List Char) : Bytes := textBytes (body ++ checksumLine body)

/-- The text before the line of its checksum, with the errors for a text that is not one. -/
def unsealBody (category : StableError) (notUtf8 missing invalid mismatch : String)
    (bytes : Bytes) : Except FormatError (List Char) := do
  let text ← (fromUtf8 bytes).elim (.error ⟨category, notUtf8⟩) .ok
  let (body, last) ← (splitLast "checksum=".toList text).elim (.error ⟨category, missing⟩) .ok
  let digits := (last.drop "checksum=".length)
  let claimed ← (if digits.getLast? = some '\n' then parseRadix 16 (2 ^ 32 - 1) digits.dropLast
    else none).elim (.error ⟨category, invalid⟩) .ok
  if (crc32 (textBytes body)).toNat ≠ claimed then .error ⟨.integrity, mismatch⟩
  else .ok body

/-- The fields of a text, each `key=value`, into a map; `check` looks at each field as it comes. -/
def readFields {α : Type} (malformed duplicate : FormatError)
    (check : List Char → List Char → Except FormatError α) :
    List (List Char) → List (String × α) → Except FormatError (List (String × α))
  | [], fields => .ok fields
  | line :: rest, fields => do
    let (key, value) ← (splitOnce '=' line).elim (.error malformed) .ok
    let value ← check key value
    if (fields.lookup (String.ofList key)).isSome then .error duplicate
    else readFields malformed duplicate check rest (fields ++ [(String.ofList key, value)])

/-! ## The manifest -/

inductive ManifestState where
  | clean
  | dirty
  deriving DecidableEq

structure Manifest where
  manifestVersion : Nat
  schemaVersion : Nat
  network : String
  genesis : String
  backend : String
  backendFormat : String
  features : List String
  generation : Nat
  state : ManifestState
  parentGeneration : Option Nat
  stateRoot : String
  deriving DecidableEq

def manifestMagic : String := "TRON-RUST-STORAGE-MANIFEST"

def manifestVersion : Nat := 1

def manifestFields : List String :=
  ["backend", "backend_format", "features", "generation", "genesis", "manifest_version", "network",
    "parent_generation", "schema_version", "state", "state_root"]

namespace Manifest

/-- The fields of a manifest in the order of their names. -/
def fields (m : Manifest) : List (String × String) :=
  [("backend", m.backend),
    ("backend_format", m.backendFormat),
    ("features", ",".intercalate m.features),
    ("generation", toString m.generation),
    ("genesis", m.genesis),
    ("manifest_version", toString m.manifestVersion),
    ("network", m.network),
    ("parent_generation", m.parentGeneration.elim "none" toString),
    ("schema_version", toString m.schemaVersion),
    ("state", match m.state with
      | .clean => "clean"
      | .dirty => "dirty"),
    ("state_root", m.stateRoot)]

def encode (m : Manifest) : Bytes :=
  sealBody (manifestMagic.toList ++ ['\n'] ++
    m.fields.flatMap fun field => field.1.toList ++ ['='] ++ escape field.2 ++ ['\n'])

/-- The errors of `Manifest::decode` for a corrupt manifest. -/
def corrupt (detail : String) : FormatError := ⟨.manifestCorrupt, detail⟩

def required (fields : List (String × String)) (key : String) : Except FormatError String :=
  (fields.lookup key).elim (.error (corrupt s!"missing {key}")) .ok

def number (parse : List Char → Option Nat) (fields : List (String × String)) (key : String) :
    Except FormatError Nat := do
  let value ← required fields key
  (parse value.toList).elim (.error (corrupt s!"invalid {key}")) .ok

def decode (bytes : Bytes) : Except FormatError Manifest := do
  let body ← unsealBody .manifestCorrupt "manifest is not UTF-8" "checksum missing"
    "invalid checksum field" "manifest checksum mismatch" bytes
  let rest ← match lines body with
    | first :: rest =>
      if first = manifestMagic.toList then .ok rest
      else .error ⟨.formatUnknown, "unknown manifest magic"⟩
    | [] => .error ⟨.formatUnknown, "unknown manifest magic"⟩
  let fields ← readFields (corrupt "malformed field") (corrupt "duplicate field")
    (fun key value =>
      if String.ofList key ∉ manifestFields then
        .error (corrupt s!"unknown field {String.ofList key}")
      else (unescape value).elim (.error (corrupt "invalid escaping")) .ok) rest []
  if fields.length ≠ manifestFields.length then
    .error (corrupt "manifest field set is incomplete")
  let version ← number parseU32 fields "manifest_version"
  if Storage.manifestVersion < version then
    .error ⟨.formatNewer, "manifest requires newer executable"⟩
  if version ≠ Storage.manifestVersion then
    .error ⟨.formatUnknown, "unsupported manifest version"⟩
  let state : ManifestState ← match ← required fields "state" with
    | "clean" => .ok .clean
    | "dirty" => .ok .dirty
    | _ => .error (corrupt "invalid state")
  let parent : Option Nat ← match ← required fields "parent_generation" with
    | "none" => .ok none
    | value => match parseU64 value.toList with
      | none => .error (corrupt "invalid parent generation")
      | some parent => .ok (some parent)
  let features := (((← required fields "features").toList.splitOn ',').filter (· ≠ [])).map
    String.ofList
  if ¬features.IsChain (· < ·) then .error (corrupt "features must be sorted and unique")
  let schemaVersion ← number parseU32 fields "schema_version"
  let network ← required fields "network"
  let genesis ← required fields "genesis"
  let backend ← required fields "backend"
  let backendFormat ← required fields "backend_format"
  let generation ← number parseU64 fields "generation"
  let stateRoot ← required fields "state_root"
  .ok ⟨version, schemaVersion, network, genesis, backend, backendFormat, features, generation, state,
    parent, stateRoot⟩

end Manifest

end RustTron.Storage
