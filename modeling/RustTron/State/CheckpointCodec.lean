import RustTron.State.CheckpointBytes

/-!
# The round trip of a checkpoint

What is written has the size that was computed for it, and is read back as it was. What is read is
well formed, whatever the bytes are, and reading never panics or reserves room that the rest of the
input cannot fill.

## Main definitions

* `ByteCheckpoint.WellFormed`: the checkpoints that a session manager publishes

## Main results

* `ByteCheckpoint.length_encode`: the size is the length
* `ByteCheckpoint.decode_encode`: the round trip
* `ByteCheckpoint.safe_decode`: what is read of any bytes
* `ByteCheckpoint.codec`: the laws of the codec
-/

namespace RustTron.State

/-! ## What is written -/

section Write

variable {α : Type} {write : α → Except CheckpointError Bytes}

/-- The bytes of a part that can be written. -/
def written (write : α → Except CheckpointError Bytes) (item : α) : Bytes :=
  (write item).toOption.getD []

/-- A part that can be written is written as its bytes. -/
theorem written_of_ok {item : α} {bytes : Bytes} (h : write item = .ok bytes) :
    written write item = bytes := by
  rw [written, h]
  rfl

/-- Parts in a row are written one after the other. -/
theorem writeAll_eq_ok {items : List α} {bytes : Bytes} (h : writeAll write items = .ok bytes) :
    bytes = items.flatMap (written write) ∧
      ∀ item ∈ items, write item = .ok (written write item) := by
  induction items generalizing bytes with
  | nil =>
    cases h
    exact ⟨rfl, nofun⟩
  | cons item items ih =>
    simp only [writeAll, bind_eq_ok_iff, pure_eq_ok_iff] at h
    obtain ⟨first, hf, more, hm, rfl⟩ := h
    obtain ⟨rfl, ha⟩ := ih hm
    have hw := written_of_ok hf
    refine ⟨by rw [List.flatMap_cons, hw], ?_⟩
    intro x hx
    rcases List.mem_cons.mp hx with rfl | hx
    · rw [hw, hf]
    · exact ha x hx

theorem le_length_flatMap_written {items : List α} {size : Nat}
    (h : ∀ item ∈ items, size ≤ (written write item).length) :
    items.length * size ≤ (items.flatMap (written write)).length := by
  induction items with
  | nil => simp
  | cons item items ih =>
    have hit := h item List.mem_cons_self
    have hi := ih fun x hx => h x (List.mem_cons_of_mem item hx)
    rw [List.flatMap_cons, List.length_append, List.length_cons, Nat.succ_mul]
    omega

end Write

variable {bytes : Bytes}

/-- A sum that fits is the sum. -/
theorem checkpointAdd_eq_ok {current added size : Nat} (h : checkpointAdd current added = .ok size) :
    size = current + added := by
  unfold checkpointAdd at h
  split at h
  · exact (Except.ok.inj h).symm
  · cases h

theorem checkpointU32_eq_ok {message : String} {n m : Nat} (h : checkpointU32 message n = .ok m) :
    m = n ∧ n < 2 ^ 32 := by
  unfold checkpointU32 at h
  split at h
  · exact ⟨(Except.ok.inj h).symm, ‹_›⟩
  · cases h

theorem checkedSizedBytes_eq_ok {current length size : Nat}
    (h : checkedSizedBytes current length = .ok size) : size = current + (4 + length) := by
  simp only [checkedSizedBytes, bind_eq_ok_iff] at h
  obtain ⟨-, -, current', hc, hs⟩ := h
  rw [checkpointAdd_eq_ok hs, checkpointAdd_eq_ok hc]
  omega

/-- Bytes are written after their length. -/
theorem putBytes_eq_ok {value bytes : Bytes} (h : putBytes value = .ok bytes) :
    bytes = beBytes 4 value.length ++ value ∧ value.length < 2 ^ 32 := by
  simp only [putBytes, bind_eq_ok_iff, pure_eq_ok_iff] at h
  obtain ⟨length, hl, rfl⟩ := h
  obtain ⟨rfl, hs⟩ := checkpointU32_eq_ok hl
  exact ⟨rfl, hs⟩

theorem length_putBytes {value bytes : Bytes} (h : putBytes value = .ok bytes) :
    bytes.length = 4 + value.length := by
  rw [(putBytes_eq_ok h).1, List.length_append, length_beBytes]

/-- A size that grows by the length of every item. -/
theorem foldlM_size {α : Type} {step : Nat → α → Except CheckpointError Nat}
    {write : α → Except CheckpointError Bytes} {items : List α} {size size' : Nat}
    (hs : ∀ item ∈ items, ∀ size size', step size item = .ok size' →
      size' = size + (written write item).length)
    (h : items.foldlM step size = .ok size') :
    size' = size + (items.flatMap (written write)).length := by
  induction items generalizing size with
  | nil =>
    cases h
    rfl
  | cons item items ih =>
    simp only [List.foldlM_cons, bind_eq_ok_iff] at h
    obtain ⟨size₁, hs₁, hm⟩ := h
    have hf := hs item List.mem_cons_self _ _ hs₁
    have hr := ih (fun x hx => hs x (List.mem_cons_of_mem item hx)) hm
    rw [List.flatMap_cons, List.length_append]
    omega

/-- The size of a write is the length that it is written with. -/
theorem entrySize_eq_ok {e : LayerEntry} {acc acc' : Nat × Nat} (hw : writeEntry e = .ok bytes)
    (h : entrySize acc e = .ok acc') : acc' = (acc.1 + bytes.length, acc.2 + 1) := by
  obtain ⟨store, key, value⟩ := e
  simp only [writeEntry, bind_eq_ok_iff] at hw
  obtain ⟨storeBytes, hs, keyBytes, hk, hv⟩ := hw
  simp only [entrySize, bind_eq_ok_iff] at h
  obtain ⟨entries, he, size₁, hs₁, size₂, hs₂, size₃, hs₃, hl⟩ := h
  have h₀ := checkpointAdd_eq_ok he
  have h₁ := checkedSizedBytes_eq_ok hs₁
  have h₂ := checkedSizedBytes_eq_ok hs₂
  have h₃ := checkpointAdd_eq_ok hs₃
  have hsl := length_putBytes hs
  have hkl := length_putBytes hk
  cases value with
  | put value =>
    simp only [bind_eq_ok_iff, pure_eq_ok_iff] at hv hl
    obtain ⟨valueBytes, hv, rfl⟩ := hv
    obtain ⟨size₄, hs₄, rfl⟩ := hl
    have h₄ := checkedSizedBytes_eq_ok hs₄
    have hvl := length_putBytes hv
    simp only [List.length_append, List.length_singleton, Prod.mk.injEq]
    omega
  | delete =>
    cases hv
    cases hl
    simp only [List.length_append, List.length_singleton, Prod.mk.injEq]
    omega

/-- The sizes of the writes of a layer add up. -/
theorem foldlM_entrySize {entries : List LayerEntry} {acc acc' : Nat × Nat}
    (hw : ∀ e ∈ entries, writeEntry e = .ok (written writeEntry e))
    (h : entries.foldlM entrySize acc = .ok acc') :
    acc' = (acc.1 + (entries.flatMap (written writeEntry)).length, acc.2 + entries.length) := by
  induction entries generalizing acc with
  | nil =>
    cases h
    rfl
  | cons e entries ih =>
    simp only [List.foldlM_cons, bind_eq_ok_iff] at h
    obtain ⟨acc₁, ha₁, hm⟩ := h
    have hf := entrySize_eq_ok (hw e List.mem_cons_self) ha₁
    have hr := ih (fun x hx => hw x (List.mem_cons_of_mem e hx)) hm
    rw [hr, hf, List.flatMap_cons, List.length_append, List.length_cons]
    simp only [Prod.mk.injEq]
    omega

/-- The size of a layer is the length that it is written with. -/
theorem layerSize_eq_ok {layer : ByteLayer} {size size' : Nat} (hw : writeLayer layer = .ok bytes)
    (h : layerSize size layer = .ok size') : size' = size + bytes.length := by
  simp only [writeLayer, bind_eq_ok_iff, pure_eq_ok_iff] at hw
  obtain ⟨count, hc, entries, he, rfl⟩ := hw
  obtain ⟨rfl, ha⟩ := writeAll_eq_ok he
  simp only [layerSize, bind_eq_ok_iff, pure_eq_ok_iff] at h
  obtain ⟨size₁, hs₁, ⟨size₂, entries⟩, hf, -, -, rfl⟩ := h
  have h₁ := checkpointAdd_eq_ok hs₁
  have h₂ := foldlM_entrySize ha hf
  simp only [Prod.mk.injEq] at h₂
  simp only [List.length_append, List.length_singleton, length_beBytes]
  unfold minLayerBytes at h₁
  omega

theorem rowSize_eq_ok {row : Bytes × Bytes} {size size' : Nat} (hw : writeRow row = .ok bytes)
    (h : rowSize size row = .ok size') : size' = size + bytes.length := by
  simp only [writeRow, bind_eq_ok_iff, pure_eq_ok_iff] at hw
  obtain ⟨key, hk, value, hv, rfl⟩ := hw
  simp only [rowSize, bind_eq_ok_iff] at h
  obtain ⟨size₁, hs₁, hs₂⟩ := h
  have h₁ := checkedSizedBytes_eq_ok hs₁
  have h₂ := checkedSizedBytes_eq_ok hs₂
  have hkl := length_putBytes hk
  have hvl := length_putBytes hv
  rw [List.length_append]
  omega

/-- The size of the image of a store is the length that it is written with. -/
theorem imageSize_eq_ok {e : StoreName × FMap Bytes Bytes} {size size' : Nat}
    (hw : writeImage e = .ok bytes) (h : imageSize size e = .ok size') :
    size' = size + bytes.length := by
  simp only [writeImage, bind_eq_ok_iff, pure_eq_ok_iff] at hw
  obtain ⟨store, hs, count, hc, rows, hr, rfl⟩ := hw
  obtain ⟨rfl, ha⟩ := writeAll_eq_ok hr
  simp only [imageSize, bind_eq_ok_iff] at h
  obtain ⟨size₁, hs₁, size₂, hs₂, -, -, hf⟩ := h
  have h₁ := checkedSizedBytes_eq_ok hs₁
  have h₂ := checkpointAdd_eq_ok hs₂
  have h₃ := foldlM_size (fun row hro _ _ h => rowSize_eq_ok (ha row hro) h) hf
  have hsl := length_putBytes hs
  simp only [List.length_append, length_beBytes]
  omega

theorem length_parentBytes (parent : Option CheckpointIdentity) :
    (parentBytes parent).length = 1 + if parent.isSome then 32 else 0 := by
  cases parent with
  | none => rfl
  | some identity => simp [parentBytes, identity.length_eq]

/-- The size of a history entry is the length that it is written with. -/
theorem historySize_eq_ok {entry : ByteHistory} {size size' : Nat}
    (hw : writeHistory entry = .ok bytes) (h : historySize size entry = .ok size') :
    size' = size + bytes.length := by
  simp only [writeHistory, bind_eq_ok_iff, pure_eq_ok_iff] at hw
  obtain ⟨count, hc, image, hi, rfl⟩ := hw
  obtain ⟨rfl, ha⟩ := writeAll_eq_ok hi
  simp only [historySize, bind_eq_ok_iff] at h
  obtain ⟨size₁, hs₁, size₂, hs₂, -, -, hf⟩ := h
  have h₁ := checkpointAdd_eq_ok hs₁
  have h₂ : size₂ = size₁ + if entry.parent.isSome then 32 else 0 := by
    split at hs₂
    · rw [checkpointAdd_eq_ok hs₂, if_pos ‹_›]
    · rw [if_neg ‹_›]
      exact (Except.ok.inj hs₂).symm
  have h₃ := foldlM_size (fun e he _ _ h => imageSize_eq_ok (ha e he) h) hf
  simp only [List.length_append, length_beBytes, length_parentBytes, entry.identity.length_eq]
  unfold minHistoryBytes at h₁
  omega

namespace ByteCheckpoint

variable {digest : Bytes → Hash32} {checkpoint : ByteCheckpoint} {limits : CheckpointLimits}
  {encoded : Bytes}

/-- The body of a checkpoint that was written. -/
def body (checkpoint : ByteCheckpoint) : Bytes :=
  beBytes 4 checkpoint.layers.length ++ (checkpoint.layers.flatMap (written writeLayer) ++
    (beBytes 4 checkpoint.history.length ++ checkpoint.history.flatMap (written writeHistory)))

/-- What was written, and the limits that it keeps. -/
structure Written (digest : Bytes → Hash32) (checkpoint : ByteCheckpoint) (limits : CheckpointLimits)
    (encoded : Bytes) : Prop where
  layers : ∀ layer ∈ checkpoint.layers, writeLayer layer = .ok (written writeLayer layer)
  history : ∀ entry ∈ checkpoint.history, writeHistory entry = .ok (written writeHistory entry)
  layers_le : checkpoint.layers.length ≤ limits.maxStack
  history_le : checkpoint.history.length ≤ limits.maxStack
  layers_lt : checkpoint.layers.length < 2 ^ 32
  history_lt : checkpoint.history.length < 2 ^ 32
  bytes : encoded = checkpointMagic ++ (checkpoint.body ++ (digest checkpoint.body).bytes)
  size : checkpoint.encodedSize = .ok encoded.length
  length_le : encoded.length ≤ limits.maxBytes

/-- What an encoding that succeeds has checked and written. -/
theorem encode_eq_ok (h : checkpoint.encode digest limits = .ok encoded) :
    Written digest checkpoint limits encoded := by
  unfold encode at h
  split at h
  · cases h
  rename_i hs
  rw [not_or, not_lt, not_lt] at hs
  simp only [bind_eq_ok_iff] at h
  obtain ⟨size, hsi, h⟩ := h
  split at h
  · cases h
  rename_i hb
  simp only [bind_eq_ok_iff, pure_eq_ok_iff] at h
  obtain ⟨layerCount, hlc, hic, hhc, layers, hlw, history,
    hhw, rfl⟩ := h
  obtain ⟨rfl, hlayers_lt⟩ := checkpointU32_eq_ok hlc
  obtain ⟨rfl, hhistory_lt⟩ := checkpointU32_eq_ok hhc
  obtain ⟨rfl, hla⟩ := writeAll_eq_ok hlw
  obtain ⟨rfl, hh⟩ := writeAll_eq_ok hhw
  have hle : size = (checkpointMagic ++
      (checkpoint.body ++ (digest checkpoint.body).bytes)).length := by
    simp only [encodedSize, bind_eq_ok_iff] at hsi
    obtain ⟨size₁, hs₁, size₂, hs₂, size₃, hs₃, hs₄⟩ := hsi
    have h₁ := foldlM_size (fun l hl _ _ h => layerSize_eq_ok (hla l hl) h) hs₁
    have h₂ := checkpointAdd_eq_ok hs₂
    have h₃ := foldlM_size (fun e he _ _ h => historySize_eq_ok (hh e he) h) hs₃
    have h₄ := checkpointAdd_eq_ok hs₄
    have hm : checkpointMagic.length = 8 := rfl
    simp only [body, List.length_append, length_beBytes, Hash32.length_eq, hm]
    unfold envelopeBytes at h₄
    omega
  exact ⟨hla, hh, hs.1, hs.2, hlayers_lt, hhistory_lt, rfl, hle ▸ hsi,
    hle ▸ not_lt.mp hb⟩

/-- **The size** that is computed before anything is written is the length. -/
theorem length_encode (h : checkpoint.encode digest limits = .ok encoded) :
    checkpoint.encodedSize = .ok encoded.length := (encode_eq_ok h).size

end ByteCheckpoint

/-! ## What is read back -/

section Read

open Reader (Reads)

/-- Bytes with their length in front are read back. -/
theorem reads_sizedVec {value bytes : Bytes} (h : putBytes value = .ok bytes) {after : Nat} :
    Reads (Reader.sizedVec truncated) bytes after value := by
  obtain ⟨rfl, hs⟩ := putBytes_eq_ok h
  exact .sizedVec truncated hs

/-- The name of a store is read back. -/
theorem reads_readStore {name : StoreName} (h : putBytes name.bytes = .ok bytes) {after : Nat} :
    Reads readStore bytes after name := by
  intro more reserved hm
  obtain ⟨reserved', hr⟩ := reads_sizedVec h more reserved hm
  refine ⟨reserved', ?_⟩
  rw [readStore, Prog.bind_of_ok hr, StoreName.ofBytes?_bytes]
  rfl

/-- An identity is read back. -/
theorem reads_readIdentity (identity : CheckpointIdentity) {after : Nat} :
    Reads readIdentity identity.bytes after identity := by
  intro more reserved hm
  obtain ⟨reserved', hr⟩ := Reads.take truncated identity.length_eq more reserved hm
  refine ⟨reserved', ?_⟩
  rw [readIdentity, Prog.bind_of_ok hr, Hash32.ofBytes?_bytes]
  rfl

/-- A write that was read. -/
def LayerEntry.apply (values : FMap StoreName (FMap Bytes (Write Bytes))) (e : LayerEntry) :
    FMap StoreName (FMap Bytes (Write Bytes)) :=
  values.insert e.store (((values.lookup e.store).getD ∅).insert e.key e.value)

/-- A write is read back into the values read so far. -/
theorem reads_readEntry {e : LayerEntry} (h : writeEntry e = .ok bytes)
    {values : FMap StoreName (FMap Bytes (Write Bytes))}
    (hf : e.key ∉ (values.lookup e.store).getD ∅) :
    Reads (readEntry values) bytes 0 (e.apply values) := by
  obtain ⟨store, key, value⟩ := e
  simp only [writeEntry, bind_eq_ok_iff] at h
  obtain ⟨storeBytes, hs, keyBytes, hk, hv⟩ := h
  have hi : ∀ {after : Nat}, Reads (if key ∈ (values.lookup store).getD ∅ then
      Reader.fail (.corrupt "duplicate checkpoint entry")
      else pure (LayerEntry.apply values ⟨store, key, value⟩) : CheckpointReader _) [] after
        (LayerEntry.apply values ⟨store, key, value⟩) :=
    .ite_neg hf .pure
  cases value with
  | put value =>
    simp only [bind_eq_ok_iff, pure_eq_ok_iff] at hv
    obtain ⟨valueBytes, hv, rfl⟩ := hv
    refine .bind (reads_readStore hs) (.bind (reads_sizedVec hk)
      (.bind (.byte truncated 1) ?_))
    rw [← List.append_nil valueBytes]
    exact .bind (.bind_pure (reads_sizedVec hv)) hi
  | delete =>
    cases hv
    refine .bind (reads_readStore hs) (.bind (reads_sizedVec hk) ?_)
    rw [← List.append_nil [0]]
    exact .bind (.byte truncated 0) (.bind_nil .pure hi)

/-- A loop that inserts the rows of a map one after the other reads the map. -/
theorem reads_rows {K V : Type} [DecidableEq K] {r : K → K → Prop} [DecidableRel r] [IsTrans K r]
    [Std.Antisymm r] [Std.Total r] {body : FMap K V → CheckpointReader (FMap K V)}
    {write : K × V → Bytes} {m : FMap K V} {after : Nat}
    (h : ∀ row ∈ FMap.sortedRows r m, ∀ rows : FMap K V, row.1 ∉ rows →
      Reads (body rows) (write row) 0 (rows.insert row.1 row.2)) :
    Reads (Reader.loop body (FMap.sortedRows r m).length ∅) ((FMap.sortedRows r m).flatMap write)
      after m := by
  let insert := fun (m : FMap K V) (row : K × V) => m.insert row.1 row.2
  have hlo : Reads (Reader.loop body (FMap.sortedRows r m).length ∅)
      ((FMap.sortedRows r m).flatMap write) after ((FMap.sortedRows r m).foldl insert ∅) := by
    refine .loop (fun done => done.foldl insert ∅) fun done row more hi => ?_
    rw [List.foldl_append]
    refine h row (by simp [hi]) _ ?_
    have hn : ((FMap.sortedRows r m).map Prod.fst).Nodup :=
      FMap.map_fst_sortedRows r m ▸ FMap.nodup_sortedKeys r m
    rw [hi, List.map_append, List.map_cons, List.nodup_middle] at hn
    have hf : row.1 ∉ done.map Prod.fst := fun hm =>
      (List.nodup_cons.mp hn).1 (List.mem_append_left _ hm)
    have hl : (done.foldl insert ∅).lookup row.1 = (∅ : FMap K V).lookup row.1 :=
      FMap.lookup_foldl_of_notMem Prod.fst hf (fun m _ _ hk => Finmap.lookup_insert_of_ne m hk) ∅
    rw [← Finmap.lookup_eq_none, hl, Finmap.lookup_empty]
  have hr : (FMap.sortedRows r m).foldl insert ∅ = m := FMap.foldl_insert_sortedRows r m
  rwa [hr] at hlo

/-- A row is read back. -/
theorem reads_readRow {row : Bytes × Bytes} (h : writeRow row = .ok bytes) {rows : FMap Bytes Bytes}
    (hf : row.1 ∉ rows) : Reads (readRow rows) bytes 0 (rows.insert row.1 row.2) := by
  simp only [writeRow, bind_eq_ok_iff, pure_eq_ok_iff] at h
  obtain ⟨key, hk, value, hv, rfl⟩ := h
  refine .bind (reads_sizedVec hk) ?_
  rw [← List.append_nil value]
  exact .bind (reads_sizedVec hv) (.ite_neg hf .pure)

theorem le_length_writeRow {row : Bytes × Bytes} (h : writeRow row = .ok bytes) :
    8 ≤ bytes.length := by
  simp only [writeRow, bind_eq_ok_iff, pure_eq_ok_iff] at h
  obtain ⟨key, hk, value, hv, rfl⟩ := h
  have hkl := length_putBytes hk
  have hvl := length_putBytes hv
  rw [List.length_append]
  omega

/-- A `u32` is a `usize`. -/
theorem le_usizeMax {n : Nat} (h : n < 2 ^ 32) : n ≤ usizeMax := by
  unfold usizeMax
  omega

/-- The image of a store is read back. -/
theorem reads_readImage {e : StoreName × FMap Bytes Bytes} (h : writeImage e = .ok bytes)
    {image : FMap StoreName (FMap Bytes Bytes)} (hf : e.1 ∉ image) :
    Reads (readImage image) bytes 0 (image.insert e.1 e.2) := by
  simp only [writeImage, bind_eq_ok_iff, pure_eq_ok_iff] at h
  obtain ⟨store, hst, count, hc, rows, hro, rfl⟩ := h
  obtain ⟨rfl, hs⟩ := checkpointU32_eq_ok hc
  obtain ⟨rfl, ha⟩ := writeAll_eq_ok hro
  have hl : (FMap.sortedRows keyLe e.2).length * 8 ≤
      ((FMap.sortedRows keyLe e.2).flatMap (written writeRow)).length :=
    le_length_flatMap_written fun row hr => le_length_writeRow (ha row hr)
  refine .bind (reads_readStore hst) (.bind
    (.counted truncated _ hs (le_usizeMax hs) (by decide) (by omega)) ?_)
  rw [← List.append_nil (List.flatMap _ _)]
  exact .bind (reads_rows fun row hr _ hf => reads_readRow (ha row hr) hf)
    (.ite_neg hf .pure)

theorem le_length_writeImage {e : StoreName × FMap Bytes Bytes} (h : writeImage e = .ok bytes) :
    8 ≤ bytes.length := by
  simp only [writeImage, bind_eq_ok_iff, pure_eq_ok_iff] at h
  obtain ⟨store, hs, count, hc, rows, hr, rfl⟩ := h
  have hsl := length_putBytes hs
  simp only [List.length_append, length_beBytes]
  omega

/-- A parent is read back, if there is one. -/
theorem reads_readParent (parent : Option CheckpointIdentity) {after : Nat} {α : Type}
    {f : Option CheckpointIdentity → CheckpointReader α} {a : α}
    (hf : Reads (f parent) bytes after a) :
    Reads (do
      let tag ← Reader.byte truncated
      let parent ← readParent tag
      f parent) (parentBytes parent ++ bytes) after a := by
  cases parent with
  | none => exact .bind (.byte truncated 0) (.bind_nil .pure hf)
  | some parent =>
    rw [parentBytes, List.append_assoc]
    exact .bind (.byte truncated 1)
      (.bind (.bind_pure (reads_readIdentity parent)) hf)

/-- An entry of the history is read back, linked to those before it. -/
theorem reads_readHistory {entry : ByteHistory} {history : List ByteHistory}
    (h : writeHistory entry = .ok bytes) (hf : entry.identity ∉ history.map ByteHistory.identity)
    (hl : ∀ previous ∈ history.getLast?, entry.parent = some previous.identity ∧
      previous.block < entry.block) (hfi : history = [] → entry.parent = none) :
    Reads (readHistory history) bytes 0 (history ++ [entry]) := by
  simp only [writeHistory, bind_eq_ok_iff, pure_eq_ok_iff] at h
  obtain ⟨count, hc, image, hi, rfl⟩ := h
  obtain ⟨rfl, hs⟩ := checkpointU32_eq_ok hc
  obtain ⟨rfl, hal⟩ := writeAll_eq_ok hi
  have hle : (FMap.sortedRows storeLe entry.image).length * 8 ≤
      ((FMap.sortedRows storeLe entry.image).flatMap (written writeImage)).length :=
    le_length_flatMap_written fun e he => le_length_writeImage (hal e he)
  have ha : ¬ (history.getLast?.any fun previous =>
      entry.parent ≠ some previous.identity ∨ entry.block ≤ previous.block) = true := by
    rw [Option.any_eq_true]
    rintro ⟨previous, hpr, hb⟩
    obtain ⟨hp, hbl⟩ := hl previous hpr
    simp only [hp, ne_eq, not_true_eq_false, false_or, decide_eq_true_eq] at hb
    exact absurd hbl (UInt64.not_lt.mpr hb)
  refine .bind (reads_readIdentity _) (.bind
    (.number truncated entry.block.toNat_lt) (reads_readParent entry.parent (.bind
      (.counted truncated _ hs (le_usizeMax hs) (by decide) (by omega)) ?_)))
  rw [← List.append_nil (List.flatMap _ _)]
  refine .bind (reads_rows fun e he _ hf => reads_readImage (hal e he) hf) ?_
  rw [UInt64.ofNat_toNat]
  refine .ite_neg hf (.ite_neg ha (.ite_neg ?_ .pure))
  rintro ⟨hem, hp⟩
  rw [hfi hem] at hp
  cases hp

theorem le_length_writeHistory {entry : ByteHistory} (h : writeHistory entry = .ok bytes) :
    minHistoryBytes ≤ bytes.length := by
  simp only [writeHistory, bind_eq_ok_iff, pure_eq_ok_iff] at h
  obtain ⟨count, hc, image, hi, rfl⟩ := h
  simp only [List.length_append, length_beBytes, length_parentBytes, entry.identity.length_eq]
  unfold minHistoryBytes
  omega

/-! ## Layers -/

/-- A write changes the value of its own key. -/
theorem lookup_apply (values : FMap StoreName (FMap Bytes (Write Bytes))) (e : LayerEntry)
    (store : StoreName) : (e.apply values).lookup store =
      if store = e.store then some (((values.lookup e.store).getD ∅).insert e.key e.value)
      else values.lookup store := by
  unfold LayerEntry.apply
  split
  · subst store
    exact Finmap.lookup_insert _
  · exact Finmap.lookup_insert_of_ne _ ‹_›

/-- The writes of one store. -/
theorem foldl_apply_rows (store : StoreName) :
    ∀ (rows : List (Bytes × Write Bytes)) (values : FMap StoreName (FMap Bytes (Write Bytes))),
      rows ≠ [] → (rows.map fun row => LayerEntry.mk store row.1 row.2).foldl LayerEntry.apply values =
        values.insert store (rows.foldl (fun m row => m.insert row.1 row.2)
          ((values.lookup store).getD ∅))
  | [], _, h => absurd rfl h
  | row :: [], values, _ => rfl
  | row :: next :: rows, values, _ => by
    rw [List.map_cons, List.foldl_cons, foldl_apply_rows store (next :: rows) _ (by simp),
      lookup_apply, if_pos rfl, LayerEntry.apply, Finmap.insert_insert]
    rfl

/-- The writes of a layer with no empty store give its values. -/
theorem foldl_apply_entries {layer : ByteLayer}
    (hr : ∀ store rows, layer.values.lookup store = some rows → rows ≠ ∅) :
    layer.entries.foldl LayerEntry.apply ∅ = layer.values := by
  let insert := fun (m : FMap StoreName (FMap Bytes (Write Bytes)))
    (e : StoreName × FMap Bytes (Write Bytes)) => m.insert e.1 e.2
  have hs : ∀ (stores : List (StoreName × FMap Bytes (Write Bytes)))
      (values : FMap StoreName (FMap Bytes (Write Bytes))), (stores.map Prod.fst).Nodup →
      (∀ e ∈ stores, e.1 ∉ values ∧ e.2 ≠ ∅) →
      (stores.flatMap fun e => (FMap.sortedRows keyLe e.2).map fun row =>
        LayerEntry.mk e.1 row.1 row.2).foldl LayerEntry.apply values = stores.foldl insert values := by
    intro stores
    induction stores with
    | nil => intros; rfl
    | cons e stores ih =>
      intro values hn ha
      obtain ⟨hf, hno⟩ := ha e List.mem_cons_self
      rw [List.map_cons, List.nodup_cons] at hn
      have hl : FMap.sortedRows keyLe e.2 ≠ [] := fun h =>
        hno ((FMap.sortedRows_eq_nil_iff keyLe).mp h)
      have ho : (values.lookup e.1).getD ∅ = ∅ := by rw [Finmap.lookup_eq_none.mpr hf]; rfl
      rw [List.flatMap_cons, List.foldl_append, foldl_apply_rows e.1 _ values hl, ho,
        FMap.foldl_insert_sortedRows, List.foldl_cons]
      refine ih _ hn.2 fun e' he' => ⟨?_, (ha e' (List.mem_cons_of_mem e he')).2⟩
      rw [Finmap.mem_insert]
      rintro (heq | hm)
      · exact hn.1 (heq ▸ List.mem_map_of_mem he')
      · exact (ha e' (List.mem_cons_of_mem e he')).1 hm
  have hn : ((FMap.sortedRows storeLe layer.values).map Prod.fst).Nodup :=
    FMap.map_fst_sortedRows storeLe layer.values ▸ FMap.nodup_sortedKeys storeLe layer.values
  have hv : (FMap.sortedRows storeLe layer.values).foldl insert ∅ = layer.values :=
    FMap.foldl_insert_sortedRows storeLe layer.values
  refine (hs _ ∅ hn fun e he => ⟨Finmap.notMem_empty, ?_⟩).trans hv
  exact hr e.1 e.2 ((FMap.mem_sortedRows storeLe).mp he)

/-- A key is there once one of its writes was read. -/
theorem mem_foldl_apply {entries : List LayerEntry} {store : StoreName} {key : Bytes} :
    ∀ {values : FMap StoreName (FMap Bytes (Write Bytes))},
      key ∈ ((entries.foldl LayerEntry.apply values).lookup store).getD ∅ →
      key ∈ (values.lookup store).getD ∅ ∨ ∃ e ∈ entries, e.store = store ∧ e.key = key := by
  induction entries with
  | nil => exact fun h => .inl h
  | cons e entries ih =>
    intro values h
    rcases ih h with h | ⟨e', he', h⟩
    · rw [lookup_apply] at h
      split at h
      · rename_i hs
        rcases Finmap.mem_insert.mp h with hk | h
        · exact .inr ⟨e, List.mem_cons_self, hs.symm, hk.symm⟩
        · exact .inl (hs ▸ h)
      · exact .inl h
    · exact .inr ⟨e', List.mem_cons_of_mem e he', h⟩

/-- A layer writes no key twice. -/
theorem nodup_entries (layer : ByteLayer) :
    (layer.entries.map fun e => (e.store, e.key)).Nodup := by
  have hk : (FMap.sortedRows storeLe layer.values).flatMap (fun e =>
      ((FMap.sortedRows keyLe e.2).map Prod.fst).map (Prod.mk e.1)) =
      layer.entries.map fun e => (e.store, e.key) := by
    simp only [ByteLayer.entries, List.map_flatMap, List.map_map, Function.comp_def]
  rw [← hk, List.nodup_flatMap]
  constructor
  · intro e _
    rw [FMap.map_fst_sortedRows]
    exact (FMap.nodup_sortedKeys keyLe e.2).map fun _ _ h => (Prod.ext_iff.mp h).2
  · have hn : ((FMap.sortedRows storeLe layer.values).map Prod.fst).Nodup :=
      FMap.map_fst_sortedRows storeLe layer.values ▸ FMap.nodup_sortedKeys storeLe layer.values
    refine (List.pairwise_map.mp hn).imp fun {e e'} hne x hx hx' => ?_
    obtain ⟨_, -, rfl⟩ := List.mem_map.mp hx
    obtain ⟨_, -, h⟩ := List.mem_map.mp hx'
    exact hne (Prod.ext_iff.mp h).1.symm

/-- The writes of a layer are read back as its values. -/
theorem reads_entries {layer : ByteLayer}
    (hr : ∀ store rows, layer.values.lookup store = some rows → rows ≠ ∅)
    (hw : ∀ e ∈ layer.entries, writeEntry e = .ok (written writeEntry e)) {after : Nat} :
    Reads (Reader.loop readEntry layer.entries.length ∅)
      (layer.entries.flatMap (written writeEntry)) after layer.values := by
  have hl : Reads (Reader.loop readEntry layer.entries.length ∅)
      (layer.entries.flatMap (written writeEntry)) after
      (layer.entries.foldl LayerEntry.apply ∅) := by
    refine .loop (fun done => done.foldl LayerEntry.apply ∅) fun done e more he => ?_
    rw [List.foldl_append]
    refine reads_readEntry (hw e (by simp [he])) fun hm => ?_
    have hn := nodup_entries layer
    rw [he, List.map_append, List.map_cons, List.nodup_middle, List.nodup_cons] at hn
    rcases mem_foldl_apply hm with h | ⟨e', he', hs, hk⟩
    · rw [Finmap.lookup_empty] at h
      exact Finmap.notMem_empty h
    · refine hn.1 (List.mem_append_left _ (List.mem_map.mpr ⟨e', he', ?_⟩))
      rw [hs, hk]
  rwa [foldl_apply_entries hr] at hl

theorem le_length_writeEntry {e : LayerEntry} (h : writeEntry e = .ok bytes) :
    minEntryBytes ≤ bytes.length := by
  obtain ⟨store, key, value⟩ := e
  simp only [writeEntry, bind_eq_ok_iff] at h
  obtain ⟨storeBytes, hs, keyBytes, hk, hv⟩ := h
  have hsl := length_putBytes hs
  have hkl := length_putBytes hk
  unfold minEntryBytes
  cases value with
  | put value =>
    simp only [bind_eq_ok_iff, pure_eq_ok_iff] at hv
    obtain ⟨valueBytes, -, rfl⟩ := hv
    simp only [List.length_append, List.length_singleton]
    omega
  | delete =>
    cases hv
    simp only [List.length_append, List.length_singleton]
    omega

/-- A layer is read back after those before it. -/
theorem reads_readLayer {layer : ByteLayer} {layers : List ByteLayer}
    (h : writeLayer layer = .ok bytes) (hc : layer.committed = true)
    (hr : ∀ store rows, layer.values.lookup store = some rows → rows ≠ ∅)
    (hf : layer.id ∉ layers.map ByteLayer.id) :
    Reads (readLayer layers) bytes 0 (layers ++ [layer]) := by
  simp only [writeLayer, bind_eq_ok_iff, pure_eq_ok_iff] at h
  obtain ⟨count, hco, entries, hen, rfl⟩ := h
  obtain ⟨rfl, hs⟩ := checkpointU32_eq_ok hco
  obtain ⟨rfl, ha⟩ := writeAll_eq_ok hen
  have hl : layer.entries.length * minEntryBytes ≤
      (layer.entries.flatMap (written writeEntry)).length :=
    le_length_flatMap_written fun e he => le_length_writeEntry (ha e he)
  obtain ⟨id, committed, values⟩ := layer
  obtain rfl : committed = true := hc
  refine .bind (.number truncated id.toNat_lt) (.bind (.byte truncated 1)
    (.bind (.counted truncated _ hs (le_usizeMax hs) (by decide) (by omega)) ?_))
  refine .ite_neg (by decide) ?_
  rw [UInt64.ofNat_toNat]
  exact .ite_neg hf (.bind_pure (reads_entries hr ha))

theorem le_length_writeLayer {layer : ByteLayer} (h : writeLayer layer = .ok bytes) :
    minLayerBytes ≤ bytes.length := by
  simp only [writeLayer, bind_eq_ok_iff, pure_eq_ok_iff] at h
  obtain ⟨count, hc, entries, he, rfl⟩ := h
  simp only [List.length_append, length_beBytes, List.length_singleton]
  unfold minLayerBytes
  omega

end Read

/-! ## The round trip -/

/-- The first entry has no parent, and every other one names the entry before it and has a larger
block. -/
def Linked (history : List ByteHistory) : Prop :=
  (∀ first ∈ history.head?, first.parent = none) ∧
  history.IsChain fun previous entry =>
    entry.parent = some previous.identity ∧ previous.block < entry.block

/-- A history with one entry more. -/
theorem linked_concat {history : List ByteHistory} {entry : ByteHistory} :
    Linked (history ++ [entry]) ↔ Linked history ∧
      (∀ previous ∈ history.getLast?, entry.parent = some previous.identity ∧
        previous.block < entry.block) ∧ (history = [] → entry.parent = none) := by
  unfold Linked
  rw [List.isChain_append]
  cases history with
  | nil => simp
  | cons first history => simp [and_assoc]

namespace ByteCheckpoint

/-- The checkpoints that a session manager publishes: committed layers with distinct ids and no
empty store, and a linked history with distinct identities. -/
structure WellFormed (checkpoint : ByteCheckpoint) : Prop where
  committed : ∀ layer ∈ checkpoint.layers, layer.committed = true
  distinct : (checkpoint.layers.map ByteLayer.id).Nodup
  nonempty : ∀ layer ∈ checkpoint.layers, ∀ store rows,
    layer.values.lookup store = some rows → rows ≠ ∅
  identities : (checkpoint.history.map ByteHistory.identity).Nodup
  linked : Linked checkpoint.history

variable {digest : Bytes → Hash32} {checkpoint : ByteCheckpoint} {limits : CheckpointLimits}
  {encoded : Bytes}

/-- The three lists of a body are read back. -/
theorem reads_readLists (h : Written digest checkpoint limits encoded)
    (hw : checkpoint.WellFormed) :
    Reader.Reads (readLists limits) checkpoint.body 0 checkpoint := by
  have hll : checkpoint.layers.length * minLayerBytes ≤
      (checkpoint.layers.flatMap (written writeLayer)).length :=
    le_length_flatMap_written fun layer hlay => le_length_writeLayer (h.layers layer hlay)
  have hhl : checkpoint.history.length * minHistoryBytes ≤
      (checkpoint.history.flatMap (written writeHistory)).length :=
    le_length_flatMap_written fun entry he => le_length_writeHistory (h.history entry he)
  have hla : Reader.Reads (Reader.loop readLayer checkpoint.layers.length [])
      (checkpoint.layers.flatMap (written writeLayer))
      (beBytes 4 checkpoint.history.length ++
        checkpoint.history.flatMap (written writeHistory)).length checkpoint.layers := by
    refine .loop (fun done => done) fun done layer more hi => ?_
    have hm : layer ∈ checkpoint.layers := by simp [hi]
    have hd := hw.distinct
    rw [hi, List.map_append, List.map_cons, List.nodup_middle, List.nodup_cons] at hd
    exact reads_readLayer (h.layers layer hm) (hw.committed layer hm)
      (hw.nonempty layer hm) fun hid => hd.1 (List.mem_append_left _ hid)
  have hh : Reader.Reads (Reader.loop readHistory checkpoint.history.length [])
      (checkpoint.history.flatMap (written writeHistory)) 0 checkpoint.history := by
    refine .loop (fun done => done) fun done entry more hi => ?_
    have hm : entry ∈ checkpoint.history := by simp [hi]
    have hide := hw.identities
    rw [hi, List.map_append, List.map_cons, List.nodup_middle, List.nodup_cons] at hide
    have hl := hw.linked
    rw [hi, List.append_cons, Linked, List.isChain_append] at hl
    have hpr : Linked (done ++ [entry]) := by
      refine ⟨fun first hf => hl.1 first ?_, hl.2.1⟩
      rw [List.head?_append_of_ne_nil _ (by simp)]
      exact hf
    obtain ⟨-, hp, hf⟩ := linked_concat.mp hpr
    exact reads_readHistory (h.history entry hm)
      (fun hid => hide.1 (List.mem_append_left _ hid)) hp hf
  refine .bind (.countedRoom truncated _ 1 h.layers_lt h.layers_le
    (by decide) ?_) (.bind hla (.bind (.countedRoom
      truncated _ 2 h.history_lt h.history_le (by decide) ?_) (.bind_pure hh)))
  · rw [List.length_append]
    omega
  · omega

/-- The envelope is taken off, or refused. -/
theorem read_run (digest : Bytes → Hash32) (limits : CheckpointLimits) (encoded : Bytes) :
    read digest limits ⟨encoded, []⟩ =
      if limits.maxBytes < encoded.length ∨ encoded.length < envelopeBytes + 8 then
        (.error (.error (.corrupt "invalid checkpoint envelope")), ⟨encoded, []⟩)
      else if encoded.take 8 ≠ checkpointMagic then
        (.error (.error (.corrupt "invalid checkpoint envelope")), ⟨encoded.drop 8, []⟩)
      else if (encoded.drop 8).drop (encoded.length - envelopeBytes) ≠
          (digest ((encoded.drop 8).take (encoded.length - envelopeBytes))).bytes then
        (.error (.error (.corrupt "checkpoint checksum mismatch")),
          ⟨(encoded.drop 8).drop (encoded.length - envelopeBytes), []⟩)
      else readBody limits ⟨(encoded.drop 8).take (encoded.length - envelopeBytes), []⟩ := by
  have hr : ∀ s, (Reader.rest : CheckpointReader _) s = (.ok s.input, s) := fun _ => rfl
  have hs : ∀ count (s : ReadState), count ≤ s.input.length →
      (Reader.splitAt count : CheckpointReader _) s =
        (.ok (s.input.take count), { s with input := s.input.drop count }) := by
    intro count s h
    rw [Reader.splitAt, Prog.bind_of_ok (hr s), if_neg (by omega)]
    rfl
  rw [read, Prog.bind_of_ok (hr _)]
  dsimp only
  split
  · rfl
  rename_i hl
  unfold envelopeBytes at *
  have hm : checkpointMagic.length = 8 := rfl
  rw [hm, Prog.bind_of_ok (hs 8 _ (by dsimp only; omega))]
  dsimp only
  split
  · rfl
  rw [if_neg (show ¬ encoded.length < 8 + 32 by omega), Prog.bind_of_ok (Prog.pure_run _ _),
    Prog.bind_of_ok (hs _ _ (by dsimp only; rw [List.length_drop]; omega)),
    Prog.bind_of_ok (hr _)]
  dsimp only
  split
  · rfl
  · rfl

/-- **The round trip.** -/
theorem decode_encode (hwe : checkpoint.WellFormed)
    (h : checkpoint.encode digest limits = .ok encoded) :
    decode digest encoded limits = .ok checkpoint := by
  have hw := encode_eq_ok h
  have hb := hw.bytes
  have hbod : 8 ≤ checkpoint.body.length := by
    simp only [body, List.length_append, length_beBytes]
    omega
  have hm : checkpointMagic.length = 8 := rfl
  have hl : encoded.length = 8 + (checkpoint.body.length + 32) := by
    rw [hb, List.length_append, List.length_append, Hash32.length_eq, hm]
  have hs : encoded.length - envelopeBytes = checkpoint.body.length := by
    unfold envelopeBytes
    omega
  have ht : encoded.take 8 = checkpointMagic := by rw [hb, List.take_left' hm]
  have hd : encoded.drop 8 = checkpoint.body ++ (digest checkpoint.body).bytes := by
    rw [hb, List.drop_left' hm]
  obtain ⟨reserved, hr⟩ := reads_readLists hw hwe [] [] (Nat.zero_le _)
  rw [List.append_nil] at hr
  have hbo : ¬ (limits.maxBytes < encoded.length ∨ encoded.length < envelopeBytes + 8) := by
    have hle := hw.length_le
    unfold envelopeBytes
    omega
  rw [decode, read_run, if_neg hbo, if_neg (not_not.mpr ht), hs, hd, List.take_left,
    List.drop_left, if_neg (not_not.mpr rfl), readBody, Prog.bind_of_ok hr]
  rfl

end ByteCheckpoint

/-! ## Any bytes -/

section Safe

open Reader (Safe)

theorem safe_readIdentity : Safe readIdentity fun _ => True := by
  refine .bind (.take truncated 32) fun bytes hb => ?_
  rw [Hash32.ofBytes?, dif_pos hb]
  exact .pure trivial

theorem safe_readStore : Safe readStore fun _ => True := by
  refine .bind (.sizedVec truncated) fun bytes _ => ?_
  split
  · exact .pure trivial
  · exact .fail _

theorem safe_readValue (tag : UInt8) : Safe (readValue tag) fun _ => True :=
  .ite (fun _ => .pure trivial) fun _ => .ite
    (fun _ => .bind (.sizedVec truncated) fun _ _ => .pure trivial) fun _ => .fail _

/-- No store is empty. -/
def NoEmptyStore (values : FMap StoreName (FMap Bytes (Write Bytes))) : Prop :=
  ∀ store rows, values.lookup store = some rows → rows ≠ ∅

/-- A store that a write is added to is not empty. -/
theorem NoEmptyStore.insert {values : FMap StoreName (FMap Bytes (Write Bytes))}
    (h : NoEmptyStore values) (store : StoreName) (rows : FMap Bytes (Write Bytes)) (key : Bytes)
    (value : Write Bytes) : NoEmptyStore (values.insert store (rows.insert key value)) := by
  intro store' rows' hl
  by_cases hs : store' = store
  · rw [hs, Finmap.lookup_insert] at hl
    cases hl
    intro he
    have hm : key ∈ rows.insert key value := Finmap.mem_insert.mpr (.inl rfl)
    rw [he] at hm
    exact Finmap.notMem_empty hm
  · rw [Finmap.lookup_insert_of_ne _ hs] at hl
    exact h store' rows' hl

/-- A write leaves no store empty. -/
theorem safe_readEntry {values : FMap StoreName (FMap Bytes (Write Bytes))}
    (h : NoEmptyStore values) : Safe (readEntry values) NoEmptyStore :=
  .bind safe_readStore fun store _ => .bind (.sizedVec truncated) fun key _ =>
    .bind (.byte truncated) fun tag _ => .bind (safe_readValue tag) fun value _ =>
      .ite (fun _ => .fail _) fun _ => .pure (h.insert store _ key value)

/-- The layers that have been read. -/
def LayersRead (layers : List ByteLayer) : Prop :=
  (∀ layer ∈ layers, layer.committed = true ∧ NoEmptyStore layer.values) ∧
  (layers.map ByteLayer.id).Nodup

/-- What is read as a layer has an id that no layer before it has. -/
theorem safe_readLayer {layers : List ByteLayer} (h : LayersRead layers) :
    Safe (readLayer layers) LayersRead := by
  refine .bind (.number truncated 8) fun id _ => .bind (.byte truncated)
    fun committed _ => .bind (.counted truncated _ usizeMax minEntryBytes) fun entries _ =>
      .ite (fun _ => .fail _) fun _ => .ite (fun _ => .fail _) fun hf =>
        .bind (.loop (fun _ => safe_readEntry) entries ∅ ?_) fun values hv =>
          .pure ⟨fun layer hl => ?_, ?_⟩
  · intro store rows hlo
    rw [Finmap.lookup_empty] at hlo
    cases hlo
  · rcases List.mem_append.mp hl with hl | hl
    · exact h.1 layer hl
    · cases List.mem_singleton.mp hl
      exact ⟨rfl, hv⟩
  · rw [List.map_append, List.map_singleton, ← List.concat_eq_append, List.nodup_concat]
    exact ⟨hf, h.2⟩

theorem safe_readRow (rows : FMap Bytes Bytes) : Safe (readRow rows) fun _ => True :=
  .bind (.sizedVec truncated) fun _ _ => .bind (.sizedVec truncated) fun _ _ =>
    .ite (fun _ => .fail _) fun _ => .pure trivial

theorem safe_readImage (image : FMap StoreName (FMap Bytes Bytes)) :
    Safe (readImage image) fun _ => True :=
  .bind safe_readStore fun _ _ => .bind (.counted truncated _ usizeMax 8) fun count _ =>
    .bind (.loop (fun rows _ => safe_readRow rows) count ∅ trivial) fun _ _ =>
      .ite (fun _ => .fail _) fun _ => .pure trivial

theorem safe_readParent (tag : UInt8) : Safe (readParent tag) fun _ => True :=
  .ite (fun _ => .pure trivial) fun _ => .ite
    (fun _ => .bind safe_readIdentity fun _ _ => .pure trivial) fun _ => .fail _

/-- The history that has been read. -/
def HistoryRead (history : List ByteHistory) : Prop :=
  (history.map ByteHistory.identity).Nodup ∧ Linked history

/-- What is read as a history entry follows the one before it. -/
theorem safe_readHistory {history : List ByteHistory} (h : HistoryRead history) :
    Safe (readHistory history) HistoryRead := by
  refine .bind safe_readIdentity fun identity _ => .bind (.number truncated 8)
    fun block _ => .bind (.byte truncated) fun tag _ => .bind (safe_readParent tag)
      fun parent _ => .bind (.counted truncated _ usizeMax 8) fun stores _ =>
        .bind (.loop (fun image _ => safe_readImage image) stores ∅ trivial) fun image _ =>
          .ite (fun _ => .fail _) fun hfr => .ite (fun _ => .fail _)
            fun ha => .ite (fun _ => .fail _) fun hf => .pure ⟨?_, ?_⟩
  · rw [List.map_append, List.map_singleton, ← List.concat_eq_append, List.nodup_concat]
    exact ⟨hfr, h.1⟩
  · refine linked_concat.mpr ⟨h.2, fun previous hp => ?_, fun he => ?_⟩
    · rw [Option.any_eq_true] at ha
      by_contra hb
      refine ha ⟨previous, hp, ?_⟩
      rw [not_and_or, UInt64.not_lt] at hb
      simpa using hb
    · cases parent with
      | none => rfl
      | some parent => exact absurd ⟨he, rfl⟩ hf

/-- What is read as the three lists is well formed. -/
theorem safe_readLists (limits : CheckpointLimits) :
    Safe (readLists limits) ByteCheckpoint.WellFormed := by
  refine .bind (.countedRoom truncated _ _ _ 1) fun layerCount _ =>
    .bind (.loop (fun _ => safe_readLayer) layerCount [] ⟨nofun, List.nodup_nil⟩)
      fun layers hl => .bind (.countedRoom truncated _ _ _ 2) fun hic _ =>
        .bind (.loop (fun _ => safe_readHistory) hic [] ⟨List.nodup_nil, nofun,
          List.isChain_nil⟩) fun history hh => .pure ?_
  exact ⟨fun layer hla => (hl.1 layer hla).1, hl.2,
    fun layer hla => (hl.1 layer hla).2, hh.1, hh.2⟩

theorem safe_readBody (limits : CheckpointLimits) :
    Safe (readBody limits) ByteCheckpoint.WellFormed :=
  .bind (safe_readLists limits) fun _ hw => .bind (.rest) fun _ _ =>
    .ite (fun _ => .fail _) fun _ => .pure hw

end Safe

namespace ByteCheckpoint

/-- The room that reading reserves. -/
def reserved (digest : Bytes → Hash32) (encoded : Bytes) (limits : CheckpointLimits) :
    List Reservation := (read digest limits ⟨encoded, []⟩).2.reserved

/-- **Any bytes** are read without a panic and without room that they cannot fill, and what is read
is well formed. -/
theorem safe_decode (digest : Bytes → Hash32) (limits : CheckpointLimits) (encoded : Bytes) :
    decode digest encoded limits ≠ .error .panic ∧
    (∀ r ∈ reserved digest encoded limits, r.count * r.size ≤ r.left ∧ r.left ≤ encoded.length) ∧
    ∀ checkpoint, decode digest encoded limits = .ok checkpoint → checkpoint.WellFormed := by
  unfold decode reserved
  rw [read_run]
  split_ifs
  · exact ⟨nofun, nofun, nofun⟩
  · exact ⟨nofun, nofun, nofun⟩
  · exact ⟨nofun, nofun, nofun⟩
  · obtain ⟨hp, -, ⟨new, hn, hro⟩, hw⟩ :=
      safe_readBody limits ⟨(encoded.drop 8).take (encoded.length - envelopeBytes), []⟩
    refine ⟨hp, fun r hr => ?_, hw⟩
    rw [hn, List.nil_append] at hr
    refine ⟨(hro r hr).1, (hro r hr).2.trans ?_⟩
    rw [List.length_take, List.length_drop]
    omega

/-- **The codec of checkpoints**: what is written has the size that was computed for it and is read
back as it was, under the same limits. Whatever the bytes are, reading never panics, reserves no
room that the rest of the input cannot fill, and gives only well-formed checkpoints. -/
theorem codec (digest : Bytes → Hash32) (limits : CheckpointLimits) :
    (∀ checkpoint encoded, checkpoint.WellFormed →
      checkpoint.encode digest limits = .ok encoded →
      decode digest encoded limits = .ok checkpoint ∧
        checkpoint.encodedSize = .ok encoded.length) ∧
    ∀ encoded, decode digest encoded limits ≠ .error .panic ∧
      (∀ r ∈ reserved digest encoded limits, r.count * r.size ≤ r.left ∧ r.left ≤ encoded.length) ∧
      ∀ checkpoint, decode digest encoded limits = .ok checkpoint → checkpoint.WellFormed :=
  ⟨fun _ _ hwell h => ⟨decode_encode hwell h, length_encode h⟩, safe_decode digest limits⟩

section Sample

/-- The store `a`. -/
def sampleStore : StoreName := ⟨[0x61], by decide, by decide, by decide⟩

/-- A layer with one write, and the history of one block. -/
def sample : ByteCheckpoint where
  layers := [⟨7, true, Finmap.insert sampleStore (Finmap.insert [1] (.put [2, 3]) ∅) ∅⟩]
  history := [⟨9, .zero, none, Finmap.singleton sampleStore (Finmap.singleton [1] [2])⟩]

def sampleLimits : CheckpointLimits := ⟨4, 4, 200⟩

def sampleBytes : Bytes :=
  checkpointMagic ++ (sample.body ++ List.replicate 32 0)

theorem encode_sample : sample.encode (fun _ => .zero) sampleLimits = .ok sampleBytes := by decide

theorem wellFormed_sample : sample.WellFormed where
  committed := by decide
  distinct := by decide
  nonempty := by
    intro layer hla
    cases List.mem_singleton.mp hla
    have he : NoEmptyStore ∅ := fun store rows hl => by
      rw [Finmap.lookup_empty] at hl
      cases hl
    exact he.insert sampleStore ∅ [1] (.put [2, 3])
  identities := by decide
  linked := ⟨fun first hf => by cases hf; rfl, List.isChain_singleton _⟩

theorem codec_sample : decode (fun _ => .zero) sampleBytes sampleLimits = .ok sample :=
  ((codec (fun _ => .zero) sampleLimits).1 sample sampleBytes wellFormed_sample encode_sample).1

end Sample

end ByteCheckpoint

end RustTron.State
