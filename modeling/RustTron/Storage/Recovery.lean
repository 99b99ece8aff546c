import RustTron.Storage.RustLog
import RustTron.Library.Journal
import RustTron.Library.Results

/-!
# Recovery of the log

What the log writes it reads back, and a log that ends anywhere is recovered as far as its frames
are whole. The recovery cuts the log there, and replaying the log over rows that have its batches
already changes nothing.

## Main definitions

* `operationBytes`, `BatchOperation.Fits`: the bytes of an operation, and that they are accepted
* `batchFrame`, `Whole`: the frame of a batch, and a row of whole frames
* `BatchOperation.journal`: an operation as a write of a journal

## Main results

* `decodeBatch_of_encodeBatch`: a batch is read back as it was written
* `applyBatch_applyBatch`: a batch applied twice is applied once
* `recoverFrames_torn`, `recoverFrames_whole`: a part of a frame, and a row of whole frames
* `whole_of_recoverFrames`: what is recovered is a row of whole frames
* `recoverWal_of_truncated`: recovery of a log that is cut anywhere
-/

namespace RustTron.Storage

/-! ## Numbers and byte strings -/

@[simp] theorem length_toLeBytes (width n : Nat) : (toLeBytes width n).length = width := by
  induction width generalizing n with
  | zero => rfl
  | succ width ih => simp [toLeBytes, ih]

theorem fromLeBytes_toLeBytes {width n : Nat} (h : n < 256 ^ width) :
    fromLeBytes (toLeBytes width n) = n := by
  induction width generalizing n with
  | zero =>
    rw [Nat.pow_zero] at h
    exact (Nat.lt_one_iff.mp h).symm
  | succ width ih =>
    have hd : n / 256 < 256 ^ width := by
      rw [Nat.pow_succ] at h
      exact Nat.div_lt_of_lt_mul (by omega)
    have hs : fromLeBytes (toLeBytes (width + 1) n) =
        (UInt8.ofNat n).toNat + 256 * fromLeBytes (toLeBytes width (n / 256)) := rfl
    rw [hs, ih hd, UInt8.toNat_ofNat']
    omega

theorem checkLimit_eq_ok {actual : Nat} {maximum : UInt64} {error : Nat → Nat → Corruption} {u : Unit} :
    checkLimit actual maximum error = .ok u ↔ actual ≤ maximum.toNat := by
  unfold checkLimit
  split <;> simp <;> omega

theorem pushU32_eq_ok {output output' : Bytes} {value : Nat} :
    pushU32 output value = .ok output' ↔ value < 2 ^ 32 ∧ output ++ toLeBytes 4 value = output' := by
  unfold pushU32
  split
  · next h => exact ⟨fun hr => ⟨h, Except.ok.inj hr⟩, fun hr => congrArg Except.ok hr.2⟩
  · next h => exact ⟨fun hr => (nomatch hr), fun hr => absurd hr.1 h⟩

/-- The bytes of a byte string with its length. -/
def sized (bytes : Bytes) : Bytes := toLeBytes 4 bytes.length ++ bytes

/-- A byte string is accepted. -/
def Accepts (maximum : UInt64) (bytes : Bytes) : Prop :=
  bytes.length ≤ maximum.toNat ∧ bytes.length < 2 ^ 32

theorem encodeBytes_eq_ok {output output' bytes : Bytes} {maximum : UInt64} {key : Bool} :
    encodeBytes output bytes maximum key = .ok output' ↔
      Accepts maximum bytes ∧ output ++ sized bytes = output' := by
  unfold encodeBytes Accepts sized
  by_cases hl : maximum.toNat < bytes.length
  · rw [if_pos hl]
    exact ⟨fun heq => absurd heq (by simp [bind_eq_ok_iff, throw_ne_ok]),
      fun heq => absurd heq.1.1 (not_le.mpr hl)⟩
  · rw [if_neg hl]
    simp only [bind_eq_ok_iff, pure_eq_ok_iff, pushU32_eq_ok]
    constructor
    · rintro ⟨_, ⟨hu32, rfl⟩, rfl⟩
      exact ⟨⟨not_lt.mp hl, hu32⟩, (List.append_assoc _ _ _).symm⟩
    · rintro ⟨⟨-, hu32⟩, rfl⟩
      exact ⟨_, ⟨hu32, rfl⟩, List.append_assoc _ _ _⟩

namespace SliceCursor

theorem u32_append {n : Nat} (h : n < 2 ^ 32) (rest : Bytes) :
    u32 (toLeBytes 4 n ++ rest) = .ok (n, rest) := by
  have hl : ¬ (toLeBytes 4 n ++ rest).length < 4 := by simp
  have hr : fromLeBytes (toLeBytes 4 n) = n := fromLeBytes_toLeBytes (by omega)
  have ht : (toLeBytes 4 n ++ rest).take 4 = toLeBytes 4 n := List.take_left' (length_toLeBytes 4 n)
  have hd : (toLeBytes 4 n ++ rest).drop 4 = rest := List.drop_left' (length_toLeBytes 4 n)
  rw [u32, if_neg hl, ht, hd, hr]

theorem bytes_append {maximum : UInt64} (key : Bool) {value : Bytes} (h : Accepts maximum value)
    (rest : Bytes) : bytes maximum key (sized value ++ rest) = .ok (value, rest) := by
  have hf : ¬ maximum.toNat < value.length := not_lt.mpr h.1
  have hl : ¬ (value ++ rest).length < value.length := by simp
  have hu32 := u32_append h.2 (value ++ rest)
  rw [← List.append_assoc] at hu32
  unfold bytes sized
  rw [hu32]
  simp only [bind, Except.bind, hf, hl, if_false, List.take_left, List.drop_left]
  rfl

end SliceCursor

/-! ## Batches -/

variable {options : RustLogOptions} {batch : WriteBatch}

/-- The bytes of an operation. -/
def operationBytes : BatchOperation → Bytes
  | .put key value => 0 :: (sized key ++ sized value)
  | .delete key => 1 :: sized key

/-- The key and the value of an operation are accepted. -/
def BatchOperation.Fits (options : RustLogOptions) : BatchOperation → Prop
  | .put key value => Accepts options.maxKeyBytes key ∧ Accepts options.maxValueBytes value
  | .delete key => Accepts options.maxKeyBytes key

theorem encodeOperation_eq_ok {payload payload' : Bytes} {operation : BatchOperation}
    (h : encodeOperation options payload operation = .ok payload') :
    operation.Fits options ∧ payload' = payload ++ operationBytes operation ∧
      payload'.length ≤ options.maxFrameBytes.toNat := by
  simp only [encodeOperation, bind_eq_ok_iff, pure_eq_ok_iff, checkLimit_eq_ok] at h
  obtain ⟨output, hop, -, hl, rfl⟩ := h
  cases operation with
  | put key value =>
    simp only [bind_eq_ok_iff, encodeBytes_eq_ok] at hop
    obtain ⟨-, ⟨hk, rfl⟩, hv, rfl⟩ := hop
    exact ⟨⟨hk, hv⟩, by simp [operationBytes], hl⟩
  | delete key =>
    rw [encodeBytes_eq_ok] at hop
    obtain ⟨hk, rfl⟩ := hop
    exact ⟨hk, by simp [operationBytes], hl⟩

theorem decodeOperation_append {operation : BatchOperation} (h : operation.Fits options)
    (rest : Bytes) :
    decodeOperation options (operationBytes operation ++ rest) = .ok (operation, rest) := by
  cases operation with
  | put key value =>
    have hk := SliceCursor.bytes_append true h.1 (sized value ++ rest)
    have hv := SliceCursor.bytes_append false h.2 rest
    simp only [decodeOperation, operationBytes, List.cons_append, List.append_assoc,
      SliceCursor.byte, bind, Except.bind, hk, hv, if_true]
    rfl
  | delete key =>
    have hk := SliceCursor.bytes_append true h rest
    simp only [decodeOperation, operationBytes, List.cons_append, SliceCursor.byte, bind,
      Except.bind, hk]
    rfl

theorem encodeOperations_eq_ok {payload payload' : Bytes}
    (h : batch.foldlM (encodeOperation options) payload = .ok payload') :
    (∀ operation ∈ batch, operation.Fits options) ∧
      payload' = payload ++ batch.flatMap operationBytes ∧
      (batch ≠ [] → payload'.length ≤ options.maxFrameBytes.toNat) := by
  induction batch generalizing payload with
  | nil =>
    rw [List.foldlM_nil, pure_eq_ok_iff] at h
    subst h
    simp
  | cons operation batch ih =>
    rw [List.foldlM_cons, bind_eq_ok_iff] at h
    obtain ⟨next, hn, hr⟩ := h
    obtain ⟨hf, rfl, hl⟩ := encodeOperation_eq_ok hn
    obtain ⟨ha, rfl, hla⟩ := ih hr
    refine ⟨List.forall_mem_cons.mpr ⟨hf, ha⟩, by simp, fun _ => ?_⟩
    cases batch with
    | nil => simpa using hl
    | cons => exact hla (List.cons_ne_nil _ _)

theorem decodeOperations_append (h : ∀ operation ∈ batch, operation.Fits options) (rest : Bytes) :
    decodeOperations options batch.length (batch.flatMap operationBytes ++ rest) =
      .ok (batch, rest) := by
  induction batch with
  | nil => rfl
  | cons operation batch ih =>
    obtain ⟨hf, ha⟩ := List.forall_mem_cons.mp h
    rw [List.flatMap_cons, List.append_assoc, List.length_cons, decodeOperations,
      decodeOperation_append hf]
    simp only [bind, Except.bind, ih ha]
    rfl

theorem encodeBatch_eq_ok {payload : Bytes} (h : encodeBatch batch options = .ok payload) :
    batch.length ≤ options.maxBatchOperations.toNat ∧ batch.length < 2 ^ 32 ∧
      (∀ operation ∈ batch, operation.Fits options) ∧
      payload = toLeBytes 4 batch.length ++ batch.flatMap operationBytes ∧
      (batch ≠ [] → payload.length ≤ options.maxFrameBytes.toNat) := by
  simp only [encodeBatch, bind_eq_ok_iff, checkLimit_eq_ok, pushU32_eq_ok, List.nil_append] at h
  obtain ⟨-, hc, -, ⟨hu32, rfl⟩, ho⟩ := h
  exact ⟨hc, hu32, encodeOperations_eq_ok ho⟩

/-- **A batch is read back** as it was written. -/
theorem decodeBatch_of_encodeBatch {payload : Bytes} (h : encodeBatch batch options = .ok payload) :
    decodeBatch payload options = .ok batch := by
  obtain ⟨hc, hu32, hf, rfl, -⟩ := encodeBatch_eq_ok h
  have ho := decodeOperations_append hf []
  rw [List.append_nil] at ho
  have hl : checkLimit batch.length options.maxBatchOperations .tooManyOperations = .ok () :=
    checkLimit_eq_ok.mpr hc
  unfold decodeBatch
  rw [SliceCursor.u32_append hu32]
  simp only [bind, Except.bind, hl, ho, if_true]
  rfl

/-- An operation as a write of a journal. -/
def BatchOperation.journal : BatchOperation → Bytes × Write Bytes
  | .put key value => (key, .put value)
  | .delete key => (key, .delete)

theorem applyBatch_eq_replay (entries : Entries) (batch : WriteBatch) :
    applyBatch entries batch = Journal.replay entries (batch.map BatchOperation.journal) := by
  unfold applyBatch Journal.replay
  rw [List.foldl_map]
  congr 1
  funext entries operation
  cases operation <;> rfl

theorem applyBatch_append (entries : Entries) (first second : WriteBatch) :
    applyBatch entries (first ++ second) = applyBatch (applyBatch entries first) second :=
  List.foldl_append

/-- **A batch applied twice** is applied once. -/
theorem applyBatch_applyBatch (entries : Entries) (batch : WriteBatch) :
    applyBatch (applyBatch entries batch) batch = applyBatch entries batch := by
  rw [applyBatch_eq_replay, applyBatch_eq_replay, Journal.replay_replay]

/-! ## Frames -/

theorem readComplete_append {count : Nat} {buffer : Bytes} (h : buffer.length = count)
    (rest : Bytes) : readComplete count (buffer ++ rest) = .complete buffer rest := by
  have hle : count ≤ (buffer ++ rest).length := by
    rw [List.length_append]
    omega
  rw [readComplete, if_pos hle, List.take_left' h, List.drop_left' h]

theorem readComplete_of_lt {count : Nat} {rest : Bytes} (h : rest.length < count) :
    readComplete count rest = .eof ∨ readComplete count rest = .incomplete := by
  rw [readComplete, if_neg (not_le.mpr h)]
  split
  · exact .inl rfl
  · exact .inr rfl

theorem readComplete_eq_complete {count : Nat} {rest buffer left : Bytes}
    (h : readComplete count rest = .complete buffer left) :
    rest = buffer ++ left ∧ buffer.length = count := by
  unfold readComplete at h
  split at h
  · next hle =>
    cases h
    exact ⟨(List.take_append_drop count rest).symm, List.length_take_of_le hle⟩
  · split at h <;> cases h

/-- The payload is the one the frame header announces, and holds this batch. -/
structure Announced (options : RustLogOptions) (header payload : Bytes) (batch : WriteBatch) :
    Prop where
  header_length : header.length = frameHeaderLen
  length : fromLeBytes (header.take 4) = payload.length
  length_le : payload.length ≤ options.maxFrameBytes.toNat
  checksum : (crc32 payload).toNat = fromLeBytes (header.drop 4)
  decoded : decodeBatch payload options = .ok batch

/-- A row of whole frames with these operations. -/
inductive Whole (options : RustLogOptions) : Bytes → WriteBatch → Prop
  | nil : Whole options [] []
  | frame {header payload rest : Bytes} {batch operations : WriteBatch}
      (head : Announced options header payload batch) (tail : Whole options rest operations) :
      Whole options (header ++ (payload ++ rest)) (batch ++ operations)

theorem Whole.append {bytes more : Bytes} {operations moreOperations : WriteBatch}
    (h : Whole options bytes operations) (hm : Whole options more moreOperations) :
    Whole options (bytes ++ more) (operations ++ moreOperations) := by
  induction h with
  | nil => exact hm
  | frame head _ ih =>
    rw [List.append_assoc, List.append_assoc, List.append_assoc]
    exact .frame head ih

theorem recoverFrames_announced {header payload : Bytes}
    (h : Announced options header payload batch) (fuel start : Nat) (rest : Bytes)
    (entries : Entries) :
    recoverFrames options (fuel + 1) start (header ++ (payload ++ rest)) entries =
      recoverFrames options fuel (start + (header ++ payload).length) rest
        (applyBatch entries batch) := by
  rw [recoverFrames, readComplete_append h.header_length]
  simp only [h.length, not_lt.mpr h.length_le, if_false, readComplete_append rfl, h.checksum,
    ne_eq, not_true_eq_false, h.decoded, bind, Except.bind]
  rw [List.length_append, h.header_length, Nat.add_assoc]

theorem recoverFrames_nil (fuel start : Nat) (entries : Entries) :
    recoverFrames options fuel start [] entries = .ok (entries, start) := by
  cases fuel <;> rfl

/-- **A part of a frame** is not read. -/
theorem recoverFrames_torn {header payload : Bytes} (h : Announced options header payload batch)
    {m : Nat} (hm : m < (header ++ payload).length) (fuel start : Nat) (entries : Entries) :
    recoverFrames options fuel start ((header ++ payload).take m) entries = .ok (entries, start) := by
  cases fuel with
  | zero => rfl
  | succ fuel =>
    rw [List.length_append, h.header_length] at hm
    by_cases hh : m < frameHeaderLen
    · have hs : ((header ++ payload).take m).length < frameHeaderLen := by
        rw [List.length_take]
        omega
      rw [recoverFrames]
      rcases readComplete_of_lt hs with hr | hr <;> rw [hr]
    · have hle : header.length ≤ m := by
        rw [h.header_length]
        omega
      have hc : (payload.take (m - header.length)).length < payload.length := by
        rw [List.length_take, h.header_length]
        omega
      rw [List.take_append, List.take_of_length_le hle, recoverFrames,
        readComplete_append h.header_length]
      simp only [h.length, not_lt.mpr h.length_le, if_false]
      rcases readComplete_of_lt hc with hr | hr <;> rw [hr]

theorem recoverFrames_fuel {fuel fuel' : Nat} {rest : Bytes} (h : rest.length ≤ fuel)
    (h' : rest.length ≤ fuel') (start : Nat) (entries : Entries) :
    recoverFrames options fuel start rest entries =
      recoverFrames options fuel' start rest entries := by
  induction fuel generalizing fuel' rest start entries with
  | zero =>
    obtain rfl := List.length_eq_zero_iff.mp (Nat.le_zero.mp h)
    rw [recoverFrames_nil, recoverFrames_nil]
  | succ fuel ih =>
    cases fuel' with
    | zero =>
      obtain rfl := List.length_eq_zero_iff.mp (Nat.le_zero.mp h')
      rw [recoverFrames_nil, recoverFrames_nil]
    | succ fuel' =>
      rw [recoverFrames, recoverFrames]
      cases hh : readComplete frameHeaderLen rest with
      | eof => rfl
      | incomplete => rfl
      | complete header left =>
        obtain ⟨rfl, hl⟩ := readComplete_eq_complete hh
        rw [List.length_append, hl, frameHeaderLen] at h h'
        dsimp only
        split
        · rfl
        cases hp : readComplete (fromLeBytes (header.take 4)) left with
        | eof => rfl
        | incomplete => rfl
        | complete payload left =>
          obtain ⟨rfl, -⟩ := readComplete_eq_complete hp
          rw [List.length_append] at h h'
          dsimp only
          split
          · rfl
          · cases decodeBatch payload options with
            | error e => rfl
            | ok batch => exact ih (by omega) (by omega) _ _

/-- **A row of whole frames** is replayed. -/
theorem recoverFrames_whole {bytes more : Bytes} {operations : WriteBatch}
    (h : Whole options bytes operations) {fuel : Nat} (hf : (bytes ++ more).length ≤ fuel)
    (start : Nat) (entries : Entries) :
    recoverFrames options fuel start (bytes ++ more) entries =
      recoverFrames options more.length (start + bytes.length) more
        (applyBatch entries operations) := by
  induction h generalizing fuel start entries with
  | nil => exact recoverFrames_fuel hf (Nat.le_refl _) start entries
  | @frame header payload rest batch operations head _ ih =>
    rw [List.append_assoc, List.append_assoc, List.length_append, List.length_append,
      head.header_length, frameHeaderLen] at hf
    obtain ⟨fuel, rfl⟩ : ∃ k, fuel = k + 1 := ⟨fuel - 1, by omega⟩
    rw [List.append_assoc, List.append_assoc, recoverFrames_announced head,
      ih (by omega), applyBatch_append]
    simp only [List.length_append, Nat.add_assoc]

/-- **What is recovered** is a row of whole frames. -/
theorem whole_of_recoverFrames {fuel start length : Nat} {rest : Bytes} {entries entries' : Entries}
    (h : recoverFrames options fuel start rest entries = .ok (entries', length)) :
    ∃ bytes torn operations, rest = bytes ++ torn ∧ Whole options bytes operations ∧
      entries' = applyBatch entries operations ∧ length = start + bytes.length := by
  induction fuel generalizing start rest entries with
  | zero =>
    cases h
    exact ⟨[], rest, [], rfl, .nil, rfl, rfl⟩
  | succ fuel ih =>
    have hn (hs : (.ok (entries, start) : Except StorageError (Entries × Nat)) =
        .ok (entries', length)) : ∃ bytes torn operations, rest = bytes ++ torn ∧
        Whole options bytes operations ∧ entries' = applyBatch entries operations ∧
        length = start + bytes.length := by
      cases hs
      exact ⟨[], rest, [], rfl, .nil, rfl, rfl⟩
    rw [recoverFrames] at h
    cases hh : readComplete frameHeaderLen rest with
    | eof => exact hn (by simpa only [hh] using h)
    | incomplete => exact hn (by simpa only [hh] using h)
    | complete header left =>
      obtain ⟨rfl, hhl⟩ := readComplete_eq_complete hh
      simp only [hh] at h
      split at h
      · cases h
      next hm =>
      cases hp : readComplete (fromLeBytes (header.take 4)) left with
      | eof => exact hn (by simpa only [hp] using h)
      | incomplete => exact hn (by simpa only [hp] using h)
      | complete payload left =>
        obtain ⟨rfl, hl⟩ := readComplete_eq_complete hp
        simp only [hp] at h
        split at h
        · cases h
        next hc =>
        rw [bind_eq_ok_iff] at h
        obtain ⟨batch, hb, hr⟩ := h
        obtain ⟨bytes, torn, operations, rfl, hw, rfl, rfl⟩ := ih hr
        refine ⟨header ++ (payload ++ bytes), torn, batch ++ operations, by simp, ?_, ?_, ?_⟩
        · exact .frame ⟨hhl, hl.symm, by omega, not_not.mp hc, hb⟩ hw
        · rw [applyBatch_append]
        · simp only [List.length_append]
          omega

/-! ## The log of a list of batches -/

/-- The frame that is appended for a batch. -/
def batchFrame (options : RustLogOptions) (batch : WriteBatch) : Except StorageError Bytes := do
  let payload ← encodeBatch batch options
  encodeFrame payload

theorem announced_of_batchFrame {frame : Bytes} (hne : batch ≠ [])
    (h : batchFrame options batch = .ok frame) :
    ∃ header payload, frame = header ++ payload ∧ Announced options header payload batch := by
  rw [batchFrame, bind_eq_ok_iff] at h
  obtain ⟨payload, hp, hf⟩ := h
  obtain ⟨-, -, -, -, hl⟩ := encodeBatch_eq_ok hp
  unfold encodeFrame at hf
  split at hf
  · next hu32 =>
    cases hf
    have hc : (crc32 payload).toNat < 256 ^ 4 := (crc32 payload).toNat_lt
    refine ⟨toLeBytes 4 payload.length ++ toLeBytes 4 (crc32 payload).toNat, payload, rfl, ?_⟩
    refine ⟨by simp [frameHeaderLen], ?_, hl hne, ?_, decodeBatch_of_encodeBatch hp⟩
    · rw [List.take_left' (length_toLeBytes 4 _)]
      exact fromLeBytes_toLeBytes (by omega)
    · rw [List.drop_left' (length_toLeBytes 4 _), fromLeBytes_toLeBytes hc]
  · cases hf

theorem whole_of_batchFrame {frame : Bytes} (hne : batch ≠ [])
    (h : batchFrame options batch = .ok frame) : Whole options frame batch := by
  obtain ⟨header, payload, rfl, ha⟩ := announced_of_batchFrame hne h
  have hw := Whole.frame ha .nil
  rwa [List.append_nil, List.append_nil] at hw

/-- Bytes that the recovery stops at. -/
def Torn (options : RustLogOptions) (torn : Bytes) : Prop :=
  ∀ fuel start entries, recoverFrames options fuel start torn entries = .ok (entries, start)

theorem torn_nil : Torn options [] := recoverFrames_nil

theorem torn_of_batchFrame {frame : Bytes} (hne : batch ≠ [])
    (h : batchFrame options batch = .ok frame) {m : Nat} (hm : m < frame.length) :
    Torn options (frame.take m) := by
  obtain ⟨header, payload, rfl, ha⟩ := announced_of_batchFrame hne h
  exact recoverFrames_torn ha hm

theorem recoverWal_whole {bytes torn : Bytes} {operations : WriteBatch}
    (h : Whole options bytes operations) (ht : Torn options torn) (entries : Entries) :
    recoverWal (walMagic ++ (bytes ++ torn)) entries options =
      .ok (applyBatch entries operations, walMagic ++ bytes) := by
  have hl : ¬ (walMagic ++ (bytes ++ torn)).length < walMagic.length := by
    rw [List.length_append]
    omega
  have hfu : (bytes ++ torn).length ≤ (walMagic ++ (bytes ++ torn)).length := by
    simp only [List.length_append]
    omega
  have hf := recoverFrames_whole h hfu walMagic.length entries
  rw [ht] at hf
  have hc : (walMagic ++ (bytes ++ torn)).take (walMagic.length + bytes.length) =
      walMagic ++ bytes := by
    rw [← List.append_assoc, ← List.length_append, List.take_left]
  simp only [recoverWal, hl, if_false, List.take_left, List.drop_left, ne_eq,
    not_true_eq_false, hf, bind, Except.bind, hc]
  rfl

theorem whole_of_batches {batches : List WriteBatch} {frames : List Bytes}
    (hne : ∀ batch ∈ batches, batch ≠ [])
    (hf : List.Forall₂ (fun batch frame => batchFrame options batch = .ok frame) batches frames) :
    Whole options frames.flatten batches.flatten := by
  induction hf with
  | nil => exact .nil
  | cons hfr _ ih =>
    obtain ⟨hb, hr⟩ := List.forall_mem_cons.mp hne
    rw [List.flatten_cons, List.flatten_cons]
    exact (whole_of_batchFrame hb hfr).append (ih hr)

theorem foldl_applyBatch (entries : Entries) (batches : List WriteBatch) :
    batches.foldl applyBatch entries = applyBatch entries batches.flatten := by
  induction batches generalizing entries with
  | nil => rfl
  | cons batch batches ih => rw [List.foldl_cons, ih, List.flatten_cons, applyBatch_append]

/-- The frames of a list of batches, in order. -/
def batchFrames (options : RustLogOptions) (batches : List WriteBatch) :
    Except StorageError (List Bytes) :=
  batches.mapM (batchFrame options)

theorem forall₂_of_batchFrames {batches : List WriteBatch} {frames : List Bytes}
    (h : batchFrames options batches = .ok frames) :
    List.Forall₂ (fun batch frame => batchFrame options batch = .ok frame) batches frames := by
  unfold batchFrames at h
  induction batches generalizing frames with
  | nil =>
    rw [List.mapM_nil, pure_eq_ok_iff] at h
    subst h
    exact .nil
  | cons batch batches ih =>
    simp only [List.mapM_cons, bind_eq_ok_iff, pure_eq_ok_iff] at h
    obtain ⟨frame, hf, rest, hr, rfl⟩ := h
    exact .cons hf (ih hr)

/-- **A log that is cut anywhere** is recovered: the rows are those of the snapshot with the batches
whose frames lie in what is left, the log that the recovery leaves gives them again, and the whole
log over rows that have its batches already gives these rows. -/
theorem recoverWal_of_truncated (options : RustLogOptions) (snapshot : Entries)
    (batches : List WriteBatch) (frames : List Bytes) (hne : ∀ batch ∈ batches, batch ≠ [])
    (hframes : batchFrames options batches = .ok frames) :
    (∀ n, ∃ wal,
      recoverWal ((walMagic ++ frames.flatten).take n) snapshot options =
        .ok ((batches.take (Frames.within (n - walMagic.length) frames)).foldl applyBatch snapshot,
          wal) ∧
      recoverWal wal snapshot options =
        .ok ((batches.take (Frames.within (n - walMagic.length) frames)).foldl applyBatch snapshot,
          wal)) ∧
    recoverWal (walMagic ++ frames.flatten) (batches.foldl applyBatch snapshot) options =
      .ok (batches.foldl applyBatch snapshot, walMagic ++ frames.flatten) := by
  have hall := forall₂_of_batchFrames hframes
  constructor
  · intro n
    by_cases hmagic : n < walMagic.length
    · -- the cut is in the header: nothing is left, and the header is written again
      have hnone : Frames.within (n - walMagic.length) frames = 0 := by
        rw [Nat.sub_eq_zero_of_le (Nat.le_of_lt hmagic)]
        cases hall with
        | nil => rfl
        | cons hframe =>
          obtain ⟨header, payload, rfl, h⟩ :=
            announced_of_batchFrame (hne _ List.mem_cons_self) hframe
          have := h.header_length
          rw [Frames.within, if_neg]
          simp only [List.length_append, frameHeaderLen] at this ⊢
          omega
      have hshort : ((walMagic ++ frames.flatten).take n).length < walMagic.length := by
        rw [List.length_take]
        omega
      refine ⟨walMagic, ?_, ?_⟩
      · rw [recoverWal, if_pos hshort, hnone]
        rfl
      · have := recoverWal_whole (Whole.nil : Whole options [] []) torn_nil snapshot
        rw [hnone]
        exact this
    · obtain ⟨torn, htake, htorn⟩ := Frames.take_flatten (n - walMagic.length) frames
      generalize Frames.within (n - walMagic.length) frames = k at htake htorn ⊢
      have hwhole := whole_of_batches (fun batch hbatch => hne batch (List.mem_of_mem_take hbatch))
        (List.forall₂_take k hall)
      have hstop : Torn options torn := by
        rcases htorn with rfl | ⟨frame, m, hframe, rfl, hm⟩
        · exact torn_nil
        · obtain ⟨batch, hbatch, hof⟩ : ∃ batch ∈ batches, batchFrame options batch = .ok frame := by
            obtain ⟨hk, rfl⟩ := List.getElem?_eq_some_iff.mp hframe
            have hk' : k < batches.length := hall.length_eq ▸ hk
            exact ⟨batches[k], List.getElem_mem hk', List.forall₂_iff_get.mp hall |>.2 k hk' hk⟩
          exact torn_of_batchFrame (hne batch hbatch) hof hm
      have hcut : (walMagic ++ frames.flatten).take n =
          walMagic ++ ((frames.take k).flatten ++ torn) := by
        rw [List.take_append, List.take_of_length_le (not_lt.mp hmagic), htake]
      refine ⟨walMagic ++ (frames.take k).flatten, ?_, ?_⟩
      · rw [hcut, recoverWal_whole hwhole hstop, foldl_applyBatch]
      · have := recoverWal_whole hwhole torn_nil snapshot
        rw [List.append_nil] at this
        rw [this, foldl_applyBatch]
  · have hwhole := whole_of_batches hne hall
    have := recoverWal_whole hwhole torn_nil (batches.foldl applyBatch snapshot)
    rw [List.append_nil] at this
    rw [this, foldl_applyBatch, applyBatch_applyBatch]

/-- Two batches: a put, and its deletion beside another put. -/
def sampleBatches : List WriteBatch := [[.put [1] [2]], [.delete [1], .put [3] [4]]]

def sampleFrames : List Bytes := (batchFrames .default sampleBatches).toOption.getD []

theorem recoverWal_of_truncated_sample :
    (∀ n, ∃ wal,
      recoverWal ((walMagic ++ sampleFrames.flatten).take n) ∅ .default =
        .ok ((sampleBatches.take (Frames.within (n - walMagic.length) sampleFrames)).foldl
          applyBatch ∅, wal) ∧
      recoverWal wal ∅ .default =
        .ok ((sampleBatches.take (Frames.within (n - walMagic.length) sampleFrames)).foldl
          applyBatch ∅, wal)) ∧
    recoverWal (walMagic ++ sampleFrames.flatten) (sampleBatches.foldl applyBatch ∅) .default =
      .ok (sampleBatches.foldl applyBatch ∅, walMagic ++ sampleFrames.flatten) := by
  have hencoded : (batchFrames .default sampleBatches).toOption.isSome = true := by decide
  have hframes : batchFrames .default sampleBatches = .ok sampleFrames := by
    unfold sampleFrames
    cases hrun : batchFrames .default sampleBatches with
    | error e =>
      rw [hrun] at hencoded
      cases hencoded
    | ok frames => rfl
  exact recoverWal_of_truncated .default ∅ sampleBatches sampleFrames (by decide) hframes

end RustTron.Storage
