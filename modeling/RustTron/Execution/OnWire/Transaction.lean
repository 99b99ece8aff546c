import RustTron.Library.Wire
import RustTron.Primitives.Bytes

/-!
# Transactions on the wire

`RawWireTransaction` keeps the bytes in which a transaction came, next to the decoded message: the
id of a transaction is the digest of its raw data as it stood on the wire. Two operations rewrite
the bytes. One splices the known top-level fields together as they are, the other encodes the
message anew.

The messages inside a transaction, its raw data and its results, are parameters.

## Main definitions

* `Protos`: the messages inside a transaction
* `Transaction.decode`, `Transaction.encode`: the message
* `RawWireTransaction.decode`, `sanitizeTopLevelUnknownFields`, `stripRedundantResults`
* `Rewrite`, `RawWireTransaction.run`: a sequence of operations

## Main results

* `decode_eq_ok_iff`: the byte strings that are decoded, by their fields
* `Carries.run`: what any sequence of operations leaves
* `identity_stable_iff`: the raw data is decoded from the rewritten bytes as it was if and only if no
  step encodes a message anew whose raw data was encoded another way
-/

namespace RustTron.Execution.OnWire

/-- The message types inside a transaction: `transaction::Raw` with the number of its contracts, and
`transaction::Result`. -/
structure Protos (R S : Type) where
  raw : Wire.Codec R
  contracts : R → Nat
  result : Wire.Codec S

/-- The message types follow the rules of the wire format. -/
structure Protos.Lawful {R S : Type} (P : Protos R S) : Prop where
  raw : P.raw.Lawful
  result : P.result.Lawful

structure Transaction (R S : Type) where
  rawData : Option R
  signature : List Bytes
  ret : List S
  deriving DecidableEq

inductive TransactionWireError where
  | malformedProtobuf | missingRawData | multipleRawData
  deriving DecidableEq, Repr

structure RawWireTransaction (R S : Type) where
  transaction : Transaction R S
  fullBytes : Bytes
  rawDataBytes : Bytes
  signatureVerificationCached : Bool
  deriving DecidableEq

inductive CryptoEngine where
  | secp256k1
  | sm2
  deriving DecidableEq, Repr

variable {R S : Type} (P : Protos R S)

namespace Transaction

/-- One field merged into a transaction. -/
def mergeField (tx : Transaction R S) (f : Wire.Field) : Option (Transaction R S) :=
  match f.number with
  | 1 =>
    if f.wire = 2 then
      (P.raw.merge (tx.rawData.getD P.raw.default) f.payload).map fun r => { tx with rawData := some r }
    else none
  | 2 => if f.wire = 2 then some { tx with signature := tx.signature ++ [f.payload] } else none
  | 5 =>
    if f.wire = 2 then
      (P.result.decode f.payload).map fun result => { tx with ret := tx.ret ++ [result] }
    else none
  | _ => some tx

def decode (bytes : Bytes) : Option (Transaction R S) :=
  Wire.mergeFields (mergeField P) ⟨none, [], []⟩ bytes

/-- The fields of an encoded transaction. -/
def fields (tx : Transaction R S) : List Wire.Field :=
  (tx.rawData.toList.map fun r => Wire.Field.bytes 1 (P.raw.encode r)) ++
    (tx.signature.map (Wire.Field.bytes 2) ++
      tx.ret.map fun result => Wire.Field.bytes 5 (P.result.encode result))

/-- `Transaction::encode_to_vec`. -/
def encode (tx : Transaction R S) : Bytes := ((tx.fields P).map Wire.Field.encoded).flatten

/-- The number of contracts of a transaction. -/
def contractCount (tx : Transaction R S) : Nat := (tx.rawData.map P.contracts).getD 0

end Transaction

/-! ## The scanner -/

/-- The number of a field as a `u32`. -/
def number32 (f : Wire.Field) : Nat := f.number % 2 ^ 32

/-- One field of `scan_fields`. -/
def readScanned (bytes : Bytes) : Option (Wire.Field × Bytes) :=
  (Wire.readField bytes).filter fun read => number32 read.1 ≠ 0

def scanFields {σ : Type} (step : Wire.Field → Prog σ TransactionWireError Unit) (bytes : Bytes) :
    Prog σ TransactionWireError Unit :=
  Wire.visit readScanned .malformedProtobuf step bytes

namespace RawWireTransaction

/-- What `decode` does at a field: it keeps the payload of the only raw data. -/
def keepRawData (f : Wire.Field) : Prog (Option Bytes) TransactionWireError Unit := do
  if number32 f = 1 ∧ f.wire = 2 then
    if (← get).isSome then throw .multipleRawData
    set (some f.payload)

def decode (bytes : Bytes) : Except TransactionWireError (RawWireTransaction R S) :=
  match Transaction.decode P bytes with
  | none => .error .malformedProtobuf
  | some transaction =>
    match scanFields keepRawData bytes none with
    | (.error e, _) => .error e
    | (.ok (), none) => .error .missingRawData
    | (.ok (), some raw) => .ok ⟨transaction, bytes, raw, false⟩

/-- The top-level fields of a transaction. -/
def known (f : Wire.Field) : Bool := number32 f = 1 || number32 f = 2 || number32 f = 5

def hasTopLevelUnknownFields (tx : RawWireTransaction R S) : Bool :=
  (scanFields (fun f => modify (· || !known f)) tx.fullBytes false).2

def sanitizeTopLevelUnknownFields : Prog (RawWireTransaction R S) TransactionWireError Bool := do
  let tx ← get
  if !tx.hasTopLevelUnknownFields then return false
  match scanFields (fun f => modify fun clean => if known f then clean ++ f.encoded else clean)
      tx.fullBytes [] with
  | (.error e, _) => throw e
  | (.ok (), clean) =>
    match Transaction.decode P clean with
    | none => throw .malformedProtobuf
    | some transaction =>
      set { tx with transaction := transaction, fullBytes := clean }
      pure true

def stripRedundantResults : Prog (RawWireTransaction R S) TransactionWireError Bool := do
  let tx ← get
  let contractCount := tx.transaction.contractCount P
  if contractCount = 0 || tx.transaction.ret.length ≤ contractCount then return false
  let transaction := { tx.transaction with ret := tx.transaction.ret.take contractCount }
  set { tx with transaction := transaction, fullBytes := transaction.encode P }
  pure true

def transactionId (digest : CryptoEngine → Bytes → Hash32) (tx : RawWireTransaction R S)
    (engine : CryptoEngine) : Hash32 :=
  digest engine tx.rawDataBytes

end RawWireTransaction

/-- An operation on a transaction after it was decoded. -/
inductive Rewrite where
  | stripRedundantResults
  | sanitizeTopLevelUnknownFields
  | clearSignatureVerificationCache
  | setSignatureVerificationCached (verified : Bool)
  deriving DecidableEq, Repr

namespace RawWireTransaction

/-- The transaction after an operation, whether it succeeds or fails. -/
def rewrite (tx : RawWireTransaction R S) : Rewrite → RawWireTransaction R S
  | .stripRedundantResults => (stripRedundantResults P tx).2
  | .sanitizeTopLevelUnknownFields => (sanitizeTopLevelUnknownFields P tx).2
  | .clearSignatureVerificationCache => { tx with signatureVerificationCached := false }
  | .setSignatureVerificationCached verified => { tx with signatureVerificationCached := verified }

/-- The transaction after a sequence of operations. -/
def run (tx : RawWireTransaction R S) (ops : List Rewrite) : RawWireTransaction R S :=
  ops.foldl (rewrite P) tx

end RawWireTransaction

variable {P}

/-! ## The fields of a transaction -/

section Fields

variable {bytes raw : Bytes} {tx : Transaction R S} {fs : List Wire.Field}

theorem number32_eq {f : Wire.Field} (hf : f.InMessage) : number32 f = f.number := by
  have := hf.1
  rw [number32, Wire.Field.number, Nat.mod_eq_of_lt]
  omega

theorem number_ne_zero {f : Wire.Field} (hf : f.InMessage) : f.number ≠ 0 := by
  have := hf.2
  rw [Wire.Field.number]
  omega

theorem readScanned_eq_some {f : Wire.Field} {rest : Bytes} :
    readScanned bytes = some (f, rest) ↔
      Wire.readField bytes = some (f, rest) ∧ number32 f ≠ 0 := by
  rw [readScanned, Option.filter_eq_some_iff, decide_eq_true_eq]

theorem readScanned_delimited : Wire.Delimited readScanned Wire.Field.encoded := by
  intro bytes f rest h
  obtain ⟨hr, hn⟩ := readScanned_eq_some.mp h
  obtain ⟨hb, hne, hw⟩ := Wire.readField_delimited _ _ _ hr
  exact ⟨hb, hne, fun rest' => readScanned_eq_some.mpr ⟨hw rest', hn⟩⟩

/-- The scanner reads the fields that are read without it, and none of them has the number 0. -/
theorem many_readScanned : Wire.many readScanned bytes = some fs ↔
    Wire.many Wire.readField bytes = some fs ∧ ∀ f ∈ fs, number32 f ≠ 0 := by
  rw [Wire.many_eq_some_iff readScanned_delimited, Wire.many_eq_some_iff Wire.readField_delimited,
    and_assoc, ← forall₂_and]
  refine and_congr_right fun _ => forall₂_congr fun f _ => ⟨fun h => ?_, fun h => ?_⟩
  · have hs := fun rest => readScanned_eq_some.mp (h.2 rest)
    exact ⟨⟨h.1, fun rest => (hs rest).1⟩, (hs []).2⟩
  · exact ⟨h.1.1, fun rest => readScanned_eq_some.mpr ⟨h.1.2 rest, h.2⟩⟩

/-- The payloads of the raw data among these fields. -/
def rawPayloads (fs : List Wire.Field) : List Bytes :=
  (fs.filter fun f => f.number = 1 && f.wire = 2).map Wire.Field.payload

/-- The byte string is a transaction with this message and exactly this raw data. -/
def Holds (P : Protos R S) (bytes : Bytes) (tx : Transaction R S) (raw : Bytes) : Prop :=
  ∃ fs, Wire.many Wire.readField bytes = some fs ∧ (∀ f ∈ fs, f.InMessage) ∧
    fs.foldlM (Transaction.mergeField P) ⟨none, [], []⟩ = some tx ∧ rawPayloads fs = [raw]

/-- What the visits of `decode` leave: the only raw data of the fields, or what was there. -/
theorem forM_keepRawData (hfs : ∀ f ∈ fs, f.InMessage) {s s' : Option Bytes} :
    fs.forM RawWireTransaction.keepRawData s = (.ok (), s') ↔
      rawPayloads fs = [] ∧ s' = s ∨ s = none ∧ ∃ raw, rawPayloads fs = [raw] ∧ s' = some raw := by
  induction fs generalizing s with
  | nil => simp [rawPayloads, Prog.pure_run, eq_comm]
  | cons f fs ih =>
    obtain ⟨hf, hfs⟩ := List.forall_mem_cons.mp hfs
    change (RawWireTransaction.keepRawData f >>= fun _ => fs.forM RawWireTransaction.keepRawData) s =
      _ ↔ _
    rw [RawWireTransaction.keepRawData, number32_eq hf]
    by_cases hr : f.number = 1 ∧ f.wire = 2
    · have hp : rawPayloads (f :: fs) = f.payload :: rawPayloads fs := by
        simp [rawPayloads, hr]
      rw [if_pos hr, hp]
      cases s with
      | some earlier =>
        simp [Prog.bind_run, Prog.get_run, Prog.throw_run]
      | none =>
        have hs : (do
            if (← get).isSome then throw .multipleRawData
            set (some f.payload) : Prog (Option Bytes) TransactionWireError Unit) none =
              (.ok (), some f.payload) := rfl
        rw [Prog.bind_of_ok hs, ih hfs]
        simp [and_comm]
    · have hp : rawPayloads (f :: fs) = rawPayloads fs := by
        simp only [rawPayloads, List.filter_cons]
        rw [if_neg (by simpa using hr)]
      rw [if_neg hr, hp]
      exact ih hfs

/-- **The byte strings that are decoded.** -/
theorem decode_eq_ok_iff {bytes : Bytes} {tx : RawWireTransaction R S} :
    RawWireTransaction.decode P bytes = .ok tx ↔
      tx = ⟨tx.transaction, bytes, tx.rawDataBytes, false⟩ ∧
        Holds P bytes tx.transaction tx.rawDataBytes := by
  constructor
  · intro h
    rw [RawWireTransaction.decode] at h
    rcases hd : Transaction.decode P bytes with _ | message <;> rw [hd] at h
    · cases h
    rcases hs : scanFields RawWireTransaction.keepRawData bytes none with ⟨e | _, _ | raw⟩ <;>
      simp only [hs] at h <;> cases h
    obtain ⟨fs, hfs, hfm⟩ := Wire.visit_eq_ok_iff.mp hs
    obtain ⟨gs, hgs, hfo⟩ := Option.bind_eq_some_iff.mp hd
    obtain ⟨rfl, hm⟩ := Wire.messageFields_agree (many_readScanned.mp hfs).1 hgs
    refine ⟨rfl, gs, (many_readScanned.mp hfs).1, hm, hfo, ?_⟩
    rcases (forM_keepRawData hm).mp hfm with ⟨-, h⟩ | ⟨-, raw', hr, h⟩ <;> cases h
    exact hr
  · rintro ⟨htx, fs, hfs, hm, hfo, hr⟩
    have hd : Transaction.decode P bytes = some tx.transaction := by
      rw [Transaction.decode, Wire.mergeFields, Wire.messageFields_eq hfs hm]
      exact hfo
    have hsc : Wire.many readScanned bytes = some fs :=
      many_readScanned.mpr ⟨hfs, fun f hf =>
        number32_eq (hm f hf) ▸ number_ne_zero (hm f hf)⟩
    have hs : scanFields RawWireTransaction.keepRawData bytes none =
        (.ok (), some tx.rawDataBytes) :=
      Wire.visit_eq_ok_iff.mpr ⟨fs, hsc,
        (forM_keepRawData hm).mpr (.inr ⟨rfl, _, hr, rfl⟩)⟩
    rw [RawWireTransaction.decode, hd]
    simp only [hs]
    rw [htx]

end Fields

/-! ## What the operations leave -/

section Operations

variable {bytes raw : Bytes} {tx : RawWireTransaction R S} {m : Transaction R S}
  {fs : List Wire.Field}

open Transaction (mergeField)

theorem forM_modify {α σ ε : Type} (g : α → σ → σ) (as : List α) (s : σ) :
    (as.forM fun a => (modify (g a) : Prog σ ε Unit)) s = (.ok (), as.foldl (fun s a => g a s) s) := by
  induction as generalizing s with
  | nil => rfl
  | cons a as ih => exact ih (g a s)

theorem known_eq {f : Wire.Field} (hf : f.InMessage) :
    RawWireTransaction.known f = (f.number = 1 || f.number = 2 || f.number = 5) := by
  rw [RawWireTransaction.known, number32_eq hf]

theorem mergeField_unknown {f : Wire.Field} (hf : f.InMessage)
    (hk : RawWireTransaction.known f = false) (m : Transaction R S) :
    mergeField P m f = some m := by
  rw [known_eq hf] at hk
  simp only [Bool.or_eq_false_iff, decide_eq_false_iff_not] at hk
  rw [mergeField]
  split
  · exact absurd ‹_› hk.1.1
  · exact absurd ‹_› hk.1.2
  · exact absurd ‹_› hk.2
  · rfl

theorem foldlM_filter_known (hfs : ∀ f ∈ fs, f.InMessage) (m : Transaction R S) :
    (fs.filter RawWireTransaction.known).foldlM (mergeField P) m = fs.foldlM (mergeField P) m := by
  induction fs generalizing m with
  | nil => rfl
  | cons f fs ih =>
    obtain ⟨hf, hfs⟩ := List.forall_mem_cons.mp hfs
    rw [List.filter_cons, List.foldlM_cons]
    cases hk : RawWireTransaction.known f with
    | true =>
      rw [if_pos rfl, List.foldlM_cons]
      exact bind_congr fun m' => ih hfs m'
    | false =>
      rw [if_neg Bool.false_ne_true, mergeField_unknown hf hk, ih hfs]
      rfl

theorem rawPayloads_filter_known (hfs : ∀ f ∈ fs, f.InMessage) :
    rawPayloads (fs.filter RawWireTransaction.known) = rawPayloads fs := by
  rw [rawPayloads, rawPayloads, List.filter_filter]
  refine congrArg _ (List.filter_congr fun f hf => ?_)
  rw [known_eq (hfs f hf)]
  by_cases h : f.number = 1 <;> simp [h]

theorem foldl_clean (fs : List Wire.Field) (clean : Bytes) :
    fs.foldl (fun clean f => if RawWireTransaction.known f then clean ++ f.encoded else clean) clean =
      clean ++ ((fs.filter RawWireTransaction.known).map Wire.Field.encoded).flatten := by
  induction fs generalizing clean with
  | nil => simp
  | cons f fs ih =>
    rw [List.foldl_cons, ih, List.filter_cons]
    cases RawWireTransaction.known f <;> simp

/-- The message and the raw data on the wire are these. -/
structure Carries (P : Protos R S) (m : Transaction R S) (raw : Bytes)
    (tx : RawWireTransaction R S) : Prop where
  transaction : tx.transaction = m
  holds : Holds P tx.fullBytes m raw

/-- **Splicing the known fields** leaves the message and the raw data on the wire. -/
theorem Carries.sanitize (h : Carries P m raw tx) :
    Carries P m raw (RawWireTransaction.sanitizeTopLevelUnknownFields P tx).2 ∧
      (RawWireTransaction.sanitizeTopLevelUnknownFields P tx).2.rawDataBytes = tx.rawDataBytes := by
  obtain ⟨htx, fs, hfs, hm, hfo, hr⟩ := h
  have hs : Wire.many readScanned tx.fullBytes = some fs :=
    many_readScanned.mpr ⟨hfs, fun f hf =>
      number32_eq (hm f hf) ▸ number_ne_zero (hm f hf)⟩
  obtain ⟨-, hw⟩ := (Wire.many_eq_some_iff Wire.readField_delimited).mp hfs
  have hk : ∀ f ∈ fs.filter RawWireTransaction.known,
      Wire.Whole Wire.readField Wire.Field.encoded f ∧ f.InMessage := fun f hf =>
    ⟨hw f (List.mem_of_mem_filter hf), hm f (List.mem_of_mem_filter hf)⟩
  have hc : Holds P ((fs.filter RawWireTransaction.known).map Wire.Field.encoded).flatten m raw :=
    ⟨_, Wire.many_of_whole fun f hf => (hk f hf).1, fun f hf => (hk f hf).2,
      (foldlM_filter_known hm _).trans hfo, (rawPayloads_filter_known hm).trans hr⟩
  have hsc : scanFields (fun f => modify fun clean =>
      if RawWireTransaction.known f then clean ++ f.encoded else clean) tx.fullBytes [] =
        (.ok (), ((fs.filter RawWireTransaction.known).map Wire.Field.encoded).flatten) := by
    rw [scanFields, Wire.visit_run hs, forM_modify, foldl_clean, List.nil_append]
  have hd : Transaction.decode P
      ((fs.filter RawWireTransaction.known).map Wire.Field.encoded).flatten = some m := by
    rw [Transaction.decode, Wire.mergeFields_flatten hk, foldlM_filter_known hm]
    exact hfo
  rw [RawWireTransaction.sanitizeTopLevelUnknownFields, Prog.bind_of_ok (Prog.get_run tx)]
  cases tx.hasTopLevelUnknownFields with
  | false => exact ⟨⟨htx, fs, hfs, hm, hfo, hr⟩, rfl⟩
  | true =>
    simp only [Bool.not_true, Bool.false_eq_true, if_false, hsc, hd]
    exact ⟨⟨rfl, hc⟩, rfl⟩

theorem length_signature_lt (hfs : ∀ f ∈ fs, Wire.Whole Wire.readField Wire.Field.encoded f)
    {m m' : Transaction R S} (hm : ∀ s ∈ m.signature, s.length < 2 ^ 64)
    (h : fs.foldlM (mergeField P) m = some m') : ∀ s ∈ m'.signature, s.length < 2 ^ 64 := by
  induction fs generalizing m with
  | nil =>
    cases h
    exact hm
  | cons f fs ih =>
    obtain ⟨hf, hfs⟩ := List.forall_mem_cons.mp hfs
    rw [List.foldlM_cons] at h
    obtain ⟨m₁, hst, hr⟩ := Option.bind_eq_some_iff.mp h
    refine ih hfs ?_ hr
    rw [mergeField] at hst
    split at hst
    · split_ifs at hst
      obtain ⟨r, -, rfl⟩ := Option.map_eq_some_iff.mp hst
      exact hm
    · split_ifs at hst with hw
      cases hst
      intro s hs
      rcases List.mem_append.mp hs with hs | hs
      · exact hm s hs
      · rw [List.mem_singleton.mp hs]
        exact Wire.length_payload_lt (hf.2 []) hw
    · split_ifs at hst
      obtain ⟨result, -, rfl⟩ := Option.map_eq_some_iff.mp hst
      exact hm
    · cases hst
      exact hm

theorem isSome_rawData {m m' : Transaction R S}
    (hr : m.rawData.isSome ∨ rawPayloads fs ≠ [])
    (h : fs.foldlM (mergeField P) m = some m') : m'.rawData.isSome := by
  induction fs generalizing m with
  | nil =>
    cases h
    exact hr.resolve_right (fun h => h rfl)
  | cons f fs ih =>
    rw [List.foldlM_cons] at h
    obtain ⟨m₁, hs, hre⟩ := Option.bind_eq_some_iff.mp h
    refine ih ?_ hre
    rw [mergeField] at hs
    have ho (hn : f.number ≠ 1) : rawPayloads (f :: fs) = rawPayloads fs := by
      simp [rawPayloads, hn]
    split at hs
    · split_ifs at hs
      obtain ⟨r, -, rfl⟩ := Option.map_eq_some_iff.mp hs
      exact .inl rfl
    · rename_i hn
      split_ifs at hs
      cases hs
      rwa [ho (by rw [hn]; decide)] at hr
    · rename_i hn
      split_ifs at hs
      obtain ⟨result, -, rfl⟩ := Option.map_eq_some_iff.mp hs
      rwa [ho (by rw [hn]; decide)] at hr
    · rename_i hn _ _
      cases hs
      rwa [ho hn] at hr

@[simp] theorem mergeField_bytes_one (m : Transaction R S) (payload : Bytes) :
    mergeField P m (Wire.Field.bytes 1 payload) =
      (P.raw.merge (m.rawData.getD P.raw.default) payload).map fun r => { m with rawData := some r } := by
  simp [mergeField]

@[simp] theorem mergeField_bytes_two (m : Transaction R S) (payload : Bytes) :
    mergeField P m (Wire.Field.bytes 2 payload) =
      some { m with signature := m.signature ++ [payload] } := by
  simp [mergeField]

@[simp] theorem mergeField_bytes_five (m : Transaction R S) (payload : Bytes) :
    mergeField P m (Wire.Field.bytes 5 payload) =
      (P.result.decode payload).map fun result => { m with ret := m.ret ++ [result] } := by
  simp [mergeField]

theorem foldlM_signature (signature : List Bytes) (m : Transaction R S) :
    (signature.map (Wire.Field.bytes 2)).foldlM (mergeField P) m =
      some { m with signature := m.signature ++ signature } := by
  induction signature generalizing m with
  | nil => simp
  | cons s signature ih =>
    rw [List.map_cons, List.foldlM_cons, mergeField_bytes_two]
    exact (ih _).trans (by simp)

theorem foldlM_ret (hP : P.Lawful) (ret : List S) (m : Transaction R S) :
    (ret.map fun result => Wire.Field.bytes 5 (P.result.encode result)).foldlM (mergeField P) m =
      some { m with ret := m.ret ++ ret } := by
  induction ret generalizing m with
  | nil => simp
  | cons result ret ih =>
    rw [List.map_cons, List.foldlM_cons, mergeField_bytes_five, hP.result.decode_encode]
    exact (ih _).trans (by simp)

theorem foldlM_fields (hP : P.Lawful) (m : Transaction R S) :
    (m.fields P).foldlM (mergeField P) ⟨none, [], []⟩ = some m := by
  obtain ⟨rawData, signature, ret⟩ := m
  rw [Transaction.fields, List.foldlM_append]
  have hr : (rawData.toList.map fun r => Wire.Field.bytes 1 (P.raw.encode r)).foldlM (mergeField P)
      (⟨none, [], []⟩ : Transaction R S) = some ⟨rawData, [], []⟩ := by
    cases rawData with
    | none => rfl
    | some r =>
      have hd : P.raw.merge P.raw.default (P.raw.encode r) = some r := hP.raw.decode_encode r
      simp [hd]
  rw [hr, Option.bind_eq_bind, Option.bind_some, List.foldlM_append, foldlM_signature]
  exact (foldlM_ret hP _ _).trans (by simp)

theorem whole_fields (hP : P.Lawful) {m : Transaction R S}
    (hm : ∀ s ∈ m.signature, s.length < 2 ^ 64) :
    ∀ f ∈ m.fields P, Wire.Whole Wire.readField Wire.Field.encoded f ∧ f.InMessage := by
  intro f hf
  simp only [Transaction.fields, List.mem_append, List.mem_map] at hf
  rcases hf with ⟨r, -, rfl⟩ | ⟨s, hs, rfl⟩ | ⟨result, -, rfl⟩
  · exact ⟨Wire.Field.bytes_whole (by decide) (hP.raw.length_encode r),
      Wire.Field.bytes_inMessage (by decide) (by decide) _⟩
  · exact ⟨Wire.Field.bytes_whole (by decide) (hm s hs),
      Wire.Field.bytes_inMessage (by decide) (by decide) _⟩
  · exact ⟨Wire.Field.bytes_whole (by decide) (hP.result.length_encode result),
      Wire.Field.bytes_inMessage (by decide) (by decide) _⟩

theorem rawPayloads_fields (m : Transaction R S) :
    rawPayloads (m.fields P) = m.rawData.toList.map P.raw.encode := by
  simp only [rawPayloads, Transaction.fields, List.filter_append, List.filter_map, List.map_append,
    List.map_map]
  simp [Function.comp_def]

/-- **An encoded transaction** is on the wire as it is, with its raw data encoded. -/
theorem holds_encode (hP : P.Lawful) {m : Transaction R S} {r : R}
    (hm : ∀ s ∈ m.signature, s.length < 2 ^ 64) (hr : m.rawData = some r) :
    Holds P (m.encode P) m (P.raw.encode r) := by
  have hw := whole_fields hP hm
  refine ⟨m.fields P, Wire.many_of_whole fun f hf => (hw f hf).1, fun f hf => (hw f hf).2,
    foldlM_fields hP m, ?_⟩
  rw [rawPayloads_fields, hr]
  rfl

/-- The results are more than the contracts, so that some of them are stripped. -/
def Redundant (P : Protos R S) (m : Transaction R S) : Prop :=
  m.contractCount P ≠ 0 ∧ m.contractCount P < m.ret.length

instance : Decidable (Redundant P m) := inferInstanceAs (Decidable (_ ∧ _))

/-- **Stripping redundant results** leaves a transaction whose raw data is encoded anew, and whose
results are no longer redundant. -/
theorem Carries.strip (hP : P.Lawful) (h : Carries P m raw tx) {r : R} (hr : m.rawData = some r) :
    (RawWireTransaction.stripRedundantResults P tx).2.rawDataBytes = tx.rawDataBytes ∧
      if Redundant P m then
        ∃ m', Carries P m' (P.raw.encode r) (RawWireTransaction.stripRedundantResults P tx).2 ∧
          m'.rawData = some r ∧ ¬ Redundant P m'
      else Carries P m raw (RawWireTransaction.stripRedundantResults P tx).2 := by
  obtain ⟨htx, fs, hfs, hm, hf, hra⟩ := h
  rw [RawWireTransaction.stripRedundantResults, Prog.bind_of_ok (Prog.get_run tx)]
  dsimp only
  rw [htx]
  by_cases hre : Redundant P m
  · obtain ⟨hz, hlt⟩ := hre
    have hs : ¬ (m.contractCount P = 0 || m.ret.length ≤ m.contractCount P) = true := by
      simp only [Bool.or_eq_true, decide_eq_true_eq, not_or, not_le]
      exact ⟨hz, hlt⟩
    rw [if_neg hs, if_pos ⟨hz, hlt⟩]
    refine ⟨rfl, { m with ret := m.ret.take (m.contractCount P) }, ⟨rfl, ?_⟩, hr, ?_⟩
    · obtain ⟨-, hw⟩ := (Wire.many_eq_some_iff Wire.readField_delimited).mp hfs
      have hsi : ∀ s ∈ m.signature, s.length < 2 ^ 64 :=
        length_signature_lt hw (fun _ h => absurd h List.not_mem_nil) hf
      exact holds_encode hP (m := { m with ret := m.ret.take (m.contractCount P) }) hsi hr
    · rintro ⟨-, h⟩
      have hl : (m.ret.take (m.contractCount P)).length ≤ m.contractCount P :=
        List.length_take_le _ _
      exact absurd h (not_lt.mpr hl)
  · have hs : (m.contractCount P = 0 || m.ret.length ≤ m.contractCount P) = true := by
      rw [Redundant, not_and_or, not_not, not_lt] at hre
      simpa only [Bool.or_eq_true, decide_eq_true_eq] using hre
    rw [if_pos hs, if_neg hre]
    exact ⟨rfl, htx, fs, hfs, hm, hf, hra⟩

end Operations

/-! ## Sequences of operations -/

section Runs

variable {bytes raw : Bytes} {tx : RawWireTransaction R S} {m : Transaction R S} {r : R}

/-- **What any sequence of operations leaves**: the raw data as it was on the wire, or encoded anew
where redundant results have been stripped. The induction is on the operations, and the first that
strips leaves nothing to strip. -/
theorem Carries.run (hP : P.Lawful) (h : Carries P m raw tx) (hr : m.rawData = some r)
    (ops : List Rewrite) :
    (tx.run P ops).rawDataBytes = tx.rawDataBytes ∧
      ∃ m', Carries P m' (if .stripRedundantResults ∈ ops ∧ Redundant P m then P.raw.encode r else raw)
        (tx.run P ops) := by
  induction ops generalizing tx m raw with
  | nil => exact ⟨rfl, m, by simpa [RawWireTransaction.run] using h⟩
  | cons op ops ih =>
    have hru : tx.run P (op :: ops) = (tx.rewrite P op).run P ops := rfl
    rw [hru]
    have hk (hb : (tx.rewrite P op).rawDataBytes = tx.rawDataBytes)
        (hop : op ≠ .stripRedundantResults) (hk : Carries P m raw (tx.rewrite P op)) :
        ((tx.rewrite P op).run P ops).rawDataBytes = tx.rawDataBytes ∧
          ∃ m', Carries P m' (if .stripRedundantResults ∈ op :: ops ∧ Redundant P m then
            P.raw.encode r else raw) ((tx.rewrite P op).run P ops) := by
      obtain ⟨hres, m', hm'⟩ := ih hk hr
      refine ⟨hres.trans hb, m', ?_⟩
      simpa only [List.mem_cons, hop.symm, false_or] using hm'
    cases op with
    | clearSignatureVerificationCache => exact hk rfl nofun ⟨h.transaction, h.holds⟩
    | setSignatureVerificationCached verified => exact hk rfl nofun ⟨h.transaction, h.holds⟩
    | sanitizeTopLevelUnknownFields => exact hk h.sanitize.2 nofun h.sanitize.1
    | stripRedundantResults =>
      obtain ⟨hb, hs⟩ := h.strip hP hr
      by_cases hre : Redundant P m
      · rw [if_pos hre] at hs
        obtain ⟨m₁, hm₁, hr₁, hn⟩ := hs
        obtain ⟨hres, m', hm'⟩ := ih hm₁ hr₁
        refine ⟨hres.trans hb, m', ?_⟩
        rw [if_neg (fun h => hn h.2)] at hm'
        rwa [if_pos ⟨List.mem_cons_self, hre⟩]
      · rw [if_neg hre] at hs
        obtain ⟨hres, m', hm'⟩ := ih hs hr
        refine ⟨hres.trans hb, m', ?_⟩
        rw [if_neg (fun h => hre h.2)] at hm' ⊢
        exact hm'

/-- Decoding the bytes of the transaction again gives the same raw data, and the same id whatever
the digests. -/
def Stable (P : Protos R S) (tx : RawWireTransaction R S) : Prop :=
  ∃ again, RawWireTransaction.decode P tx.fullBytes = .ok again ∧
    again.rawDataBytes = tx.rawDataBytes ∧
    ∀ digest engine, again.transactionId digest engine = tx.transactionId digest engine

theorem Carries.stable_iff (h : Carries P m raw tx) : Stable P tx ↔ raw = tx.rawDataBytes := by
  have hd : RawWireTransaction.decode P tx.fullBytes = .ok ⟨m, tx.fullBytes, raw, false⟩ :=
    decode_eq_ok_iff.mpr ⟨rfl, h.holds⟩
  constructor
  · rintro ⟨again, ha, hr, -⟩
    cases hd.symm.trans ha
    exact hr
  · rintro rfl
    exact ⟨_, hd, rfl, fun _ _ => rfl⟩

/-- **The identity of a transaction is stable, exactly**: after any operations on a decoded
transaction its raw data is decoded from its bytes as it was, if and only if none of them strips
results, or the raw data came encoded the way the encoder writes it. -/
theorem identity_stable_iff (hP : P.Lawful) (h : RawWireTransaction.decode P bytes = .ok tx)
    (ops : List Rewrite) :
    Stable P (tx.run P ops) ↔
      .stripRedundantResults ∉ ops ∨ ¬ Redundant P tx.transaction ∨
        tx.transaction.rawData.map P.raw.encode = some tx.rawDataBytes := by
  obtain ⟨htx, hholds⟩ := decode_eq_ok_iff.mp h
  have hwire : Carries P tx.transaction tx.rawDataBytes tx := by
    refine ⟨rfl, ?_⟩
    rw [show tx.fullBytes = bytes by rw [htx]]
    exact hholds
  obtain ⟨r, hr⟩ : ∃ r, tx.transaction.rawData = some r := by
    obtain ⟨fs, -, -, hfold, hraw⟩ := hholds
    exact Option.isSome_iff_exists.mp (isSome_rawData (.inr (by rw [hraw]; nofun)) hfold)
  obtain ⟨hbytes, m', hm'⟩ := hwire.run hP hr ops
  rw [hm'.stable_iff, hbytes, hr, Option.map_some, Option.some_inj]
  by_cases hstrip : .stripRedundantResults ∈ ops ∧ Redundant P tx.transaction
  · rw [if_pos hstrip]
    simp [hstrip]
  · rw [if_neg hstrip]
    simp only [true_iff]
    by_contra hnone
    rw [not_or, not_or, not_not, not_not] at hnone
    exact hstrip ⟨hnone.1, hnone.2.1⟩

end Runs

namespace Sample

/-- One field of a raw message that may hold one empty contract, and an unknown field. -/
def mergeRawField (contract : Bool) (f : Wire.Field) : Option Bool :=
  match f.number with
  | 11 => if f.wire = 2 ∧ f.payload = [] ∧ contract = false then some true else none
  | 7 => some contract
  | _ => none

/-- Raw messages with at most one contract, which is empty, and results that are all default. -/
def protos : Protos Bool Unit where
  raw := ⟨false, Wire.mergeFields mergeRawField, fun contract => if contract then [0x5a, 0] else []⟩
  contracts := Bool.toNat
  result := ⟨(), fun _ bytes => if bytes = [] then some () else none, fun _ => []⟩

theorem protos_lawful : protos.Lawful where
  raw := ⟨by decide, by decide⟩
  result := ⟨fun _ => rfl, fun _ => Nat.two_pow_pos 64⟩

/-- A transaction with two results, whose raw data holds an unknown field after its contract. -/
def unknownField : RawWireTransaction Bool Unit where
  transaction := ⟨some true, [], [(), ()]⟩
  fullBytes := [0x0a, 4, 0x5a, 0, 0x38, 1, 0x2a, 0, 0x2a, 0]
  rawDataBytes := [0x5a, 0, 0x38, 1]
  signatureVerificationCached := false

theorem unknownField_decoded :
    RawWireTransaction.decode protos unknownField.fullBytes = .ok unknownField := by rfl

/-- The transaction without its second result. -/
def stripped : RawWireTransaction Bool Unit where
  transaction := ⟨some true, [], [()]⟩
  fullBytes := [0x0a, 2, 0x5a, 0, 0x2a, 0]
  rawDataBytes := [0x5a, 0]
  signatureVerificationCached := false

theorem stripped_decoded :
    RawWireTransaction.decode protos
      (unknownField.run protos [.stripRedundantResults]).fullBytes = .ok stripped := by rfl

end Sample

/-- A transaction that is not stripped keeps its identity. -/
theorem unknownField_stable : Stable Sample.protos (Sample.unknownField.run Sample.protos
    [.sanitizeTopLevelUnknownFields, .clearSignatureVerificationCache]) :=
  (identity_stable_iff Sample.protos_lawful Sample.unknownField_decoded _).mpr (.inl (by decide))

/-- A transaction whose raw data holds an unknown field loses it when its results are stripped. -/
theorem unknownField_not_stable :
    RawWireTransaction.decode Sample.protos Sample.unknownField.fullBytes =
        .ok Sample.unknownField ∧
      ¬ Stable Sample.protos (Sample.unknownField.run Sample.protos [.stripRedundantResults]) := by
  refine ⟨Sample.unknownField_decoded, ?_⟩
  rintro ⟨again, hagain, hraw, -⟩
  cases Sample.stripped_decoded.symm.trans hagain
  exact absurd hraw (by decide)

end RustTron.Execution.OnWire
