import RustTron.Storage.Recovery

/-!
# Durability of the store

Every step on the files may fail, and a write may fail halfway. A store whose log is whole keeps its
rows on disk through all of them: what a write returned is what the next opening finds, and a crash
in a call loses nothing that an earlier call returned.

A compaction that has emptied the log and then fails to write its header leaves a log without a
header, and says so only in the maintenance error. The next write appends its frame where the
header should be, and the store no longer opens.

## Main definitions

* `Opens options entries directory`: the directory opens with these rows
* `RustLog.On log P`: a log with the memory of `log` and a directory of `P`
* `StorageCall.Sound`: a write finds the header of its log, and an empty snapshot is accepted
* `RustLog.Reached`: the logs that calls reach, whatever becomes of their steps

## Main results

* `loadSnapshot_snapshotFile`: a snapshot is read back as it was written
* `RustLog.compact_keeps`, `RustLog.write_spec`: what the two calls keep on disk
* `RustLog.durable_of_reached`: durability over every run
-/

namespace RustTron.Storage

variable {options : RustLogOptions} {entries : Entries} {directory : Directory}

/-! ## Snapshots -/

/-- The bytes of a row of a snapshot. -/
def snapshotRow (row : Bytes × Bytes) : Bytes := sized row.1 ++ sized row.2

/-- The key and the value of a row are accepted. -/
def RowFits (options : RustLogOptions) (row : Bytes × Bytes) : Prop :=
  Accepts options.maxKeyBytes row.1 ∧ Accepts options.maxValueBytes row.2

theorem encodeRow_eq_ok {payload payload' : Bytes} {row : Bytes × Bytes}
    (h : encodeRow options payload row = .ok payload') :
    RowFits options row ∧ payload' = payload ++ snapshotRow row ∧
      payload'.length ≤ options.maxSnapshotBytes.toNat := by
  simp only [encodeRow, bind_eq_ok_iff, pure_eq_ok_iff, checkLimit_eq_ok, encodeBytes_eq_ok] at h
  obtain ⟨_, ⟨hk, rfl⟩, _, ⟨hv, rfl⟩, -, hl, rfl⟩ := h
  exact ⟨⟨hk, hv⟩, List.append_assoc _ _ _, hl⟩

theorem encodeRows_eq_ok {rows : List (Bytes × Bytes)} {payload payload' : Bytes}
    (h : rows.foldlM (encodeRow options) payload = .ok payload') :
    (∀ row ∈ rows, RowFits options row) ∧ payload' = payload ++ rows.flatMap snapshotRow ∧
      (rows ≠ [] → payload'.length ≤ options.maxSnapshotBytes.toNat) := by
  induction rows generalizing payload with
  | nil =>
    rw [List.foldlM_nil, pure_eq_ok_iff] at h
    subst h
    simp
  | cons row rows ih =>
    rw [List.foldlM_cons, bind_eq_ok_iff] at h
    obtain ⟨next, hn, hr⟩ := h
    obtain ⟨hf, rfl, hl⟩ := encodeRow_eq_ok hn
    obtain ⟨ha, rfl, hla⟩ := ih hr
    refine ⟨List.forall_mem_cons.mpr ⟨hf, ha⟩, by simp, fun _ => ?_⟩
    cases rows with
    | nil => simpa using hl
    | cons => exact hla (List.cons_ne_nil _ _)

theorem decodeRows_append {rows : List (Bytes × Bytes)} (h : ∀ row ∈ rows, RowFits options row)
    (hn : (rows.map Prod.fst).Nodup) (entries : Entries)
    (hfr : ∀ row ∈ rows, entries.lookup row.1 = none) (rest : Bytes) :
    decodeRows options rows.length entries (rows.flatMap snapshotRow ++ rest) =
      .ok (rows.foldl (fun entries row => entries.insert row.1 row.2) entries, rest) := by
  induction rows generalizing entries with
  | nil => rfl
  | cons row rows ih =>
    obtain ⟨hf, ha⟩ := List.forall_mem_cons.mp h
    obtain ⟨hno, hot⟩ := List.forall_mem_cons.mp hfr
    rw [List.map_cons, List.nodup_cons] at hn
    have hke := SliceCursor.bytes_append true hf.1
      (sized row.2 ++ (rows.flatMap snapshotRow ++ rest))
    have hv := SliceCursor.bytes_append false hf.2
      (rows.flatMap snapshotRow ++ rest)
    have hi : ∀ other ∈ rows, (entries.insert row.1 row.2).lookup other.1 = none := by
      intro other ho
      have hk : other.1 ≠ row.1 := fun heq => hn.1 (heq ▸ List.mem_map_of_mem ho)
      rw [Finmap.lookup_insert_of_ne entries hk]
      exact hot other ho
    rw [List.flatMap_cons, snapshotRow, List.append_assoc, List.append_assoc, List.length_cons,
      decodeRows, hke]
    simp only [bind, Except.bind, hv, hno, Option.isSome_none, Bool.false_eq_true, if_false]
    exact ih ha hn.2 _ hi

/-- An empty snapshot is accepted as well: its four bytes are within the limit. -/
def SnapshotFits (options : RustLogOptions) (entries : Entries) : Prop :=
  entries = ∅ → 4 ≤ options.maxSnapshotBytes.toNat

theorem encodeSnapshot_eq_ok {payload : Bytes} (h : encodeSnapshot entries options = .ok payload) :
    decodeSnapshot payload options = .ok entries ∧
      (SnapshotFits options entries → payload.length ≤ options.maxSnapshotBytes.toNat) := by
  simp only [encodeSnapshot, bind_eq_ok_iff, checkLimit_eq_ok, pushU32_eq_ok,
    List.nil_append] at h
  obtain ⟨-, hc, _, ⟨hu32, rfl⟩, hr⟩ := h
  obtain ⟨ha, rfl, hl⟩ := encodeRows_eq_ok hr
  have hno : ((FMap.sortedRows keyLe entries).map Prod.fst).Nodup :=
    FMap.map_fst_sortedRows keyLe entries ▸ FMap.nodup_sortedKeys keyLe entries
  have hd := decodeRows_append ha hno ∅ (fun _ _ => Finmap.lookup_empty _) []
  rw [List.append_nil, FMap.foldl_insert_sortedRows] at hd
  have hli : checkLimit (FMap.sortedRows keyLe entries).length options.maxSnapshotEntries
      .tooManySnapshotEntries = .ok () := checkLimit_eq_ok.mpr hc
  constructor
  · unfold decodeSnapshot
    rw [SliceCursor.u32_append hu32]
    simp only [bind, Except.bind, hli, hd, if_true]
    rfl
  · intro hf
    by_cases hn : FMap.sortedRows keyLe entries = []
    · have hfo := hf ((FMap.sortedRows_eq_nil_iff keyLe).mp hn)
      rw [hn]
      simpa using hfo
    · exact hl hn

/-- **A snapshot is read back** as it was written. -/
theorem loadSnapshot_snapshotFile {payload : Bytes}
    (h : encodeSnapshot entries options = .ok payload) (hfi : SnapshotFits options entries) :
    loadSnapshot (some (snapshotFile payload)) options = .ok entries := by
  obtain ⟨hd, hl⟩ := encodeSnapshot_eq_ok h
  have hl := hl hfi
  have hu64 : payload.length < 256 ^ 8 := lt_of_le_of_lt hl options.maxSnapshotBytes.toNat_lt
  have hc : (crc32 payload).toNat < 256 ^ 4 := (crc32 payload).toNat_lt
  have hf : (snapshotFile payload).length = snapshotHeaderLen + payload.length := by
    simp [snapshotFile, snapshotHeaderLen, snapshotMagic]
    omega
  have hm : (snapshotFile payload).take 8 = snapshotMagic := by
    simp only [snapshotFile, List.append_assoc]
    exact List.take_left' rfl
  have hs : ((snapshotFile payload).drop 8).take 8 = toLeBytes 8 payload.length := by
    simp only [snapshotFile, List.append_assoc]
    rw [List.drop_left' (i := 8) rfl, List.take_left' (length_toLeBytes 8 _)]
  have hsu : ((snapshotFile payload).drop 16).take 4 = toLeBytes 4 (crc32 payload).toNat := by
    rw [snapshotFile, List.append_assoc, List.drop_left' (i := 16), List.take_left' (length_toLeBytes 4 _)]
    simp [snapshotMagic]
  have hp : (snapshotFile payload).drop snapshotHeaderLen = payload := by
    rw [snapshotFile, List.drop_left']
    simp [snapshotMagic, snapshotHeaderLen]
  have hlo : ¬ snapshotHeaderLen + payload.length < snapshotHeaderLen :=
    not_lt.mpr (Nat.le_add_right _ _)
  simp only [loadSnapshot, hlo, if_false, hm, hs, fromLeBytes_toLeBytes hu64,
    not_lt.mpr hl, hf, hp, hsu, fromLeBytes_toLeBytes hc, ne_eq,
    not_true_eq_false]
  exact hd

/-! ## Directories that open -/

/-- The directory opens with these rows: its log is whole, or it has no complete header and the
snapshot has all rows. -/
inductive Opens (options : RustLogOptions) (entries : Entries) : Directory → Prop
  | whole {snapshot : Option Bytes} {base : Entries} {bytes : Bytes} {operations : WriteBatch}
      (load : loadSnapshot snapshot options = .ok base) (frames : Whole options bytes operations)
      (rows : applyBatch base operations = entries) :
      Opens options entries ⟨snapshot, walMagic ++ bytes⟩
  | cut {snapshot : Option Bytes} {wal : Bytes}
      (load : loadSnapshot snapshot options = .ok entries) (short : wal.length < walMagic.length) :
      Opens options entries ⟨snapshot, wal⟩

/-- A durable directory reopens with its rows, also with a part of a frame at its end. -/
theorem Opens.reopen_torn (h : Opens options entries directory) {torn : Bytes}
    (ht : Torn options torn) (hh : torn ≠ [] → walMagic.length ≤ directory.wal.length) :
    ∃ wal, reopen (RustLog.appended torn directory) options = .ok (entries, wal) := by
  cases h with
  | @whole snapshot base bytes operations load frames rows =>
    refine ⟨walMagic ++ bytes, ?_⟩
    simp only [reopen, RustLog.appended, bind, Except.bind, load]
    rw [List.append_assoc, recoverWal_whole frames ht, rows]
  | cut load short =>
    have hn : torn = [] := by
      by_contra hne
      exact absurd (hh hne) (not_le.mpr short)
    refine ⟨walMagic, ?_⟩
    simp only [reopen, RustLog.appended, bind, Except.bind, load, hn, List.append_nil, recoverWal,
      short, if_true]

theorem Opens.reopen (h : Opens options entries directory) :
    ∃ wal, reopen directory options = .ok (entries, wal) := by
  have ho := h.reopen_torn torn_nil fun hne => absurd rfl hne
  rwa [RustLog.appended, List.append_nil] at ho

/-- **A frame at the end** of a whole log. -/
theorem Opens.append (h : Opens options entries directory)
    (hh : walMagic.length ≤ directory.wal.length) {batch : WriteBatch} {frame : Bytes}
    (hne : batch ≠ []) (hf : batchFrame options batch = .ok frame) :
    Opens options (applyBatch entries batch) (RustLog.appended frame directory) := by
  cases h with
  | whole load frames rows =>
    have ha := frames.append (whole_of_batchFrame hne hf)
    rw [RustLog.appended, List.append_assoc]
    exact .whole load ha (by rw [applyBatch_append, rows])
  | cut load short => exact absurd hh (not_le.mpr short)

/-- **A new snapshot** under any log of the same rows. -/
theorem Opens.install (h : Opens options entries directory) {payload : Bytes}
    (hp : encodeSnapshot entries options = .ok payload) (hf : SnapshotFits options entries) :
    Opens options entries { directory with snapshot := some (snapshotFile payload) } := by
  have hl := loadSnapshot_snapshotFile hp hf
  cases h with
  | whole load frames rows =>
    -- the log has its batches twice now: in the snapshot and in its frames
    refine .whole hl frames ?_
    rw [← rows, applyBatch_applyBatch]
  | cut load short => exact .cut hl short

theorem durable_of_reopen {wal : Bytes} (h : Storage.reopen directory options = .ok (entries, wal)) :
    Opens options entries { directory with wal := wal } := by
  rw [Storage.reopen, bind_eq_ok_iff] at h
  obtain ⟨base, hl, hr⟩ := h
  unfold recoverWal at hr
  split at hr
  · cases hr
    have hw := Opens.whole hl (.nil : Whole options [] []) rfl
    exact hw
  split at hr
  · cases hr
  next hle hm =>
  simp only [bind_eq_ok_iff, pure_eq_ok_iff, Prod.exists, Prod.mk.injEq] at hr
  obtain ⟨rows, length, hf, rfl, rfl⟩ := hr
  obtain ⟨bytes, torn, operations, hd, hw, rfl, rfl⟩ := whole_of_recoverFrames hf
  have hwa : directory.wal = walMagic ++ (bytes ++ torn) := by
    have hs := List.take_append_drop walMagic.length directory.wal
    rw [not_not.mp hm, hd] at hs
    exact hs.symm
  rw [hwa, ← List.append_assoc, ← List.length_append, List.take_left]
  exact .whole hl hw rfl

namespace RustLog

/-! ## Steps -/

/-- The same memory: only the files, the pending outcomes and the maintenance error may differ. -/
structure SameMemory (log log' : RustLog) : Prop where
  options : log'.options = log.options
  entries : log'.entries = log.entries
  closed : log'.closed = log.closed
  poisoned : log'.poisoned = log.poisoned

/-- A log with the memory of `log` and a directory of `P`. -/
def On (log : RustLog) (P : Directory → Prop) (log' : RustLog) : Prop :=
  SameMemory log log' ∧ P log'.directory

variable {log : RustLog} {P Q R : Directory → Prop}

theorem On.mono (h : ∀ d, P d → Q d) {log' : RustLog} (hon : On log P log') : On log Q log' :=
  ⟨hon.1, h _ hon.2⟩

theorem step_on {effect : Directory → Directory} (hd : ∀ d, P d → Q (effect d))
    (hf : ∀ d, P d → R d) :
    Prog.Triple (On log P) (step effect) (fun _ => On log Q) (On log R) := by
  rintro log' ⟨⟨ho, he, hc, hp⟩, hP⟩
  unfold step
  rcases log'.outcomes with _ | ⟨_ | ⟨error, written⟩, rest⟩
  · exact ⟨⟨ho, he, hc, hp⟩, hd _ hP⟩
  · exact ⟨⟨ho, he, hc, hp⟩, hd _ hP⟩
  · exact ⟨⟨ho, he, hc, hp⟩, hf _ hP⟩

theorem still_on (h : ∀ d, P d → R d) :
    Prog.Triple (On log P) still (fun _ => On log P) (On log R) :=
  step_on (fun _ hP => hP) h

theorem writeAll_on {bytes : Bytes} (hd : ∀ d, P d → Q (appended bytes d))
    (hf : ∀ d n, P d → R (appended (bytes.take n) d)) :
    Prog.Triple (On log P) (writeAll bytes) (fun _ => On log Q) (On log R) := by
  rintro log' ⟨⟨ho, he, hc, hp⟩, hP⟩
  unfold writeAll
  rcases log'.outcomes with _ | ⟨_ | ⟨error, written⟩, rest⟩
  · exact ⟨⟨ho, he, hc, hp⟩, hd _ hP⟩
  · exact ⟨⟨ho, he, hc, hp⟩, hd _ hP⟩
  · exact ⟨⟨ho, he, hc, hp⟩, hf _ written hP⟩

theorem ensureUsable_on (h : ∀ d, P d → R d) :
    Prog.Triple (On log P) ensureUsable (fun _ => On log P) (On log R) := by
  refine .bind (R := fun _ => On log P) (.get fun _ hl => hl) fun _ => ?_
  refine .ite (fun _ => .throw fun _ hl => hl.mono h) fun _ => ?_
  exact .ite (fun _ => .throw fun _ hl => hl.mono h) fun _ => .pure fun _ hl => hl

/-! ## Compaction -/

/-- The snapshot has all rows. -/
structure Installed (options : RustLogOptions) (entries : Entries) (directory : Directory) :
    Prop where
  load : loadSnapshot directory.snapshot options = .ok entries
  durable : Opens options entries directory

/-- The snapshot has all rows, and the log is empty. -/
def Emptied (options : RustLogOptions) (entries : Entries) (directory : Directory) : Prop :=
  loadSnapshot directory.snapshot options = .ok entries ∧ directory.wal = []

theorem Emptied.header (h : Emptied options entries directory) (n : Nat) :
    Opens options entries (appended (walMagic.take n) directory) := by
  obtain ⟨snapshot, wal⟩ := directory
  obtain ⟨hl, rfl⟩ := h
  by_cases hn : n < walMagic.length
  · refine .cut hl ?_
    rw [List.nil_append, List.length_take]
    omega
  · rw [List.take_of_length_le (not_lt.mp hn)]
    have hw := Opens.whole hl (.nil : Whole options [] []) rfl
    exact hw

theorem installSnapshot_on (hf : SnapshotFits log.options log.entries) :
    Prog.Triple (On log (Opens log.options log.entries)) installSnapshot
      (fun _ => On log (Installed log.options log.entries))
      (On log (Opens log.options log.entries)) := by
  intro log' hl
  have hsa := hl.1
  unfold installSnapshot
  rw [Prog.bind_of_ok (Prog.get_run log'), hsa.entries, hsa.options]
  revert hl
  generalize log' = s
  revert s
  refine Prog.Triple.bind (R := fun payload s => On log (fun d => Opens log.options log.entries d ∧
    encodeSnapshot log.entries log.options = .ok payload) s)
    (.ofExcept (fun payload s hp hs => ⟨hs.1, hs.2, hp⟩) fun s hs => hs) fun payload => ?_
  have hst : Prog.Triple (On log fun d => Opens log.options log.entries d ∧
      encodeSnapshot log.entries log.options = .ok payload) still
      (fun _ => On log fun d => Opens log.options log.entries d ∧
        encodeSnapshot log.entries log.options = .ok payload)
      (On log (Opens log.options log.entries)) := still_on fun d hd => hd.1
  refine hst.bind fun _ => hst.bind fun _ => hst.bind fun _ => hst.bind fun _ =>
    hst.bind fun _ => hst.bind fun _ => ?_
  refine Prog.Triple.bind (step_on (Q := Installed log.options log.entries) ?_ fun d hd => hd.1)
    fun _ => still_on fun d hd => hd.durable
  rintro d ⟨hdu, hp⟩
  exact ⟨loadSnapshot_snapshotFile hp hf, hdu.install hp hf⟩

/-- **A compaction**, failed or not, keeps the rows on disk. -/
theorem compact_keeps (hf : SnapshotFits log.options log.entries) :
    Prog.Triple (On log (Opens log.options log.entries)) compact
      (fun _ => On log (Opens log.options log.entries))
      (On log (Opens log.options log.entries)) := by
  have hid : ∀ d, Opens log.options log.entries d → Opens log.options log.entries d :=
    fun _ hd => hd
  have he : ∀ d, Emptied log.options log.entries d → Opens log.options log.entries d := by
    intro d hd
    have hc := hd.header 0
    rwa [List.take_zero, appended, List.append_nil] at hc
  refine (ensureUsable_on hid).bind fun _ => (installSnapshot_on hf).bind fun _ => ?_
  refine .bind (step_on (Q := Emptied log.options log.entries) ?_ fun d hd => hd.durable)
    fun _ => (still_on he).bind fun _ => ?_
  · exact fun d hd => ⟨hd.load, rfl⟩
  · refine .bind (writeAll_on (Q := Opens log.options log.entries) ?_ ?_) fun _ =>
      (still_on hid).bind fun _ => still_on hid
    · exact fun d hd => hd.header walMagic.length
    · exact fun d n hd => hd.header n

/-! ## Writes -/

theorem append_on (frame : Bytes) :
    Prog.Triple (On log (· = log.directory)) (append frame)
      (fun _ => On log (· = appended frame log.directory))
      (On log fun d => ∃ n, d = appended (frame.take n) log.directory) := by
  have hw : ∀ d, d = appended frame log.directory →
      ∃ n, d = appended (frame.take n) log.directory := by
    rintro d rfl
    exact ⟨frame.length, by rw [List.take_length]⟩
  refine .bind (writeAll_on (Q := (· = appended frame log.directory)) ?_ ?_) fun _ =>
    (still_on hw).bind fun _ => ?_
  · rintro d rfl
    rfl
  · rintro d n rfl
    exact ⟨n, rfl⟩
  · refine .bind (R := fun _ => On log (· = appended frame log.directory))
      (.get fun _ hl => hl) fun _ => ?_
    exact .ite (fun _ => still_on hw) fun _ => .pure fun _ hl => hl

theorem rollbackWal_on (frame : Bytes) :
    Prog.Triple (On log fun d => ∃ n, d = appended (frame.take n) log.directory)
      (rollbackWal log.directory.wal.length) (fun _ => On log (· = log.directory))
      (On log fun d => ∃ n, d = appended (frame.take n) log.directory) := by
  have hn : ∀ d, d = log.directory → ∃ n, d = appended (frame.take n) log.directory := by
    rintro d rfl
    exact ⟨0, by rw [List.take_zero, appended, List.append_nil]⟩
  refine .bind (step_on (Q := (· = log.directory)) ?_ fun d hd => hd) fun _ =>
    (still_on hn).bind fun _ => still_on hn
  rintro d ⟨n, rfl⟩
  rw [appended, List.take_left]

theorem modify_maintenance_on {E : RustLog → Prop} (error : StorageError) :
    Prog.Triple (On log P)
      (modify (fun log => { log with maintenanceError := some error }) : StorageM Unit)
      (fun _ => On log P) E :=
  .modify fun _ hl => ⟨⟨hl.1.options, hl.1.entries, hl.1.closed, hl.1.poisoned⟩, hl.2⟩

/-- **The maintenance** never fails, and keeps the rows on disk. -/
theorem maintain_on {length : Nat} (hf : 0 < log.options.compactAfterBytes.toNat →
    log.options.compactAfterBytes.toNat ≤ length → SnapshotFits log.options log.entries) :
    Prog.Triple (On log fun d => Opens log.options log.entries d ∧ d.wal.length = length) maintain
      (fun _ => On log (Opens log.options log.entries)) (fun _ => False) := by
  have hle : Prog.Triple (On log fun d => Opens log.options log.entries d ∧
      d.wal.length = length) walLength
      (fun n s => On log (Opens log.options log.entries) s ∧ n = length)
      (On log (Opens log.options log.entries)) := by
    refine (still_on fun d hd => hd.1).bind fun _ => ?_
    refine .bind (R := fun s s' => On log (fun d => Opens log.options log.entries d ∧
      d.wal.length = length) s' ∧ s = s') (.get fun s hs => ⟨hs, rfl⟩) fun s => .pure ?_
    rintro _ ⟨hs, rfl⟩
    exact ⟨hs.mono fun d hd => hd.1, hs.2.2⟩
  refine .bind (.attempt hle) fun result => ?_
  cases result with
  | error error => exact modify_maintenance_on error
  | ok n =>
    refine .bind (R := fun s s' => On log (Opens log.options log.entries) s' ∧
      n = length ∧ s = s') (.get fun s hs => ⟨hs.1, hs.2, rfl⟩) fun s => ?_
    by_cases hc : 0 < s.options.compactAfterBytes.toNat ∧
        s.options.compactAfterBytes.toNat ≤ n
    · rw [if_pos hc]
      rintro _ ⟨hs, rfl, rfl⟩
      rw [hs.1.options] at hc
      have hk := compact_keeps (hf hc.1 hc.2)
      refine Prog.Triple.bind (.attempt hk) (fun outcome => ?_) s hs
      cases outcome with
      | error error => exact modify_maintenance_on error
      | ok => exact .pure fun _ hl => hl
    · rw [if_neg hc]
      exact .pure fun _ hl => hl.1

/-- The frame of a batch finds the header of the log, and a compaction after it finds a snapshot that
is accepted. -/
def SoundWrite (log : RustLog) (batch : WriteBatch) : Prop :=
  ∀ frame, batch ≠ [] → batchFrame log.options batch = .ok frame →
    walMagic.length ≤ log.directory.wal.length ∧
      (0 < log.options.compactAfterBytes.toNat →
        log.options.compactAfterBytes.toNat ≤ log.directory.wal.length + frame.length →
        SnapshotFits log.options (applyBatch log.entries batch))

/-- What a write leaves: the rows of the batch where it returned, and the rows before it where it
failed and did not poison the store. Wherever it stopped, the directory opens with one or the
other. -/
structure Written (log : RustLog) (batch : WriteBatch) (result : Except StorageError Unit)
    (log' : RustLog) : Prop where
  options : log'.options = log.options
  closed : log'.closed = false
  returned : result = .ok () → log'.entries = applyBatch log.entries batch ∧ log'.poisoned = false
  failed : ∀ e, result = .error e → log'.entries = log.entries ∧
    (e ≠ .poisoned → log'.poisoned = false)
  durable : log'.poisoned = false → Opens log.options log'.entries log'.directory
  crash : ∃ rows wal, reopen log'.directory log.options = .ok (rows, wal) ∧
    (rows = log.entries ∨ rows = applyBatch log.entries batch)

theorem Written.unchanged {batch : WriteBatch} {result : Except StorageError Unit} {log' : RustLog}
    (hm : SameMemory log log') (hc : log.closed = false) (hp : log.poisoned = false)
    (hd : Opens log.options log.entries log'.directory)
    (hr : result = .ok () → batch = []) : Written log batch result log' where
  options := hm.options
  closed := hm.closed.trans hc
  returned hok := by
    rw [hr hok]
    exact ⟨hm.entries, hm.poisoned.trans hp⟩
  failed _ _ := ⟨hm.entries, fun _ => hm.poisoned.trans hp⟩
  durable _ := hm.entries ▸ hd
  crash := by
    obtain ⟨wal, ho⟩ := hd.reopen
    exact ⟨log.entries, wal, ho, .inl rfl⟩

theorem SameMemory.refl (log : RustLog) : SameMemory log log := ⟨rfl, rfl, rfl, rfl⟩

theorem ensureUsable_run (hc : log.closed = false) (hp : log.poisoned = false) :
    ensureUsable log = (.ok (), log) := by
  unfold ensureUsable
  rw [Prog.bind_of_ok (Prog.get_run log), hc, hp]
  rfl

/-- **A write**: its whole frame is on disk when it returns, and no part of it when it fails. -/
theorem write_spec (hdu : Opens log.options log.entries log.directory)
    (hc : log.closed = false) (hp : log.poisoned = false) {batch : WriteBatch}
    (hso : SoundWrite log batch) : Written log batch (write batch log).1 (write batch log).2 := by
  have hs := SameMemory.refl log
  by_cases hni : batch = []
  · have hru : write batch log = (.ok (), log) := by
      rw [write, Prog.bind_of_ok (ensureUsable_run hc hp), if_pos hni]
      rfl
    rw [hru]
    exact .unchanged hs hc hp hdu fun _ => hni
  rw [write, Prog.bind_of_ok (ensureUsable_run hc hp), if_neg hni,
    Prog.bind_of_ok (Prog.get_run log)]
  cases hpa : encodeBatch batch log.options with
  | error e => exact .unchanged hs hc hp hdu fun h => by cases h
  | ok payload =>
  rw [Prog.bind_of_ok (Prog.ofExcept_ok_run id payload log)]
  cases hf : encodeFrame payload with
  | error e => exact .unchanged hs hc hp hdu fun h => by cases h
  | ok frame =>
  rw [Prog.bind_of_ok (Prog.ofExcept_ok_run id frame log)]
  have hof : batchFrame log.options batch = .ok frame := by
    rw [batchFrame, hpa]
    exact hf
  obtain ⟨hh, hfi⟩ := hso frame hni hof
  -- the position of the log
  have hst : Prog.Triple (On log (· = log.directory)) still
      (fun _ => On log (· = log.directory)) (On log (· = log.directory)) := still_on fun _ hd => hd
  rcases hse : still log with ⟨e | _, log₁⟩
  · obtain ⟨hm, hdi⟩ := hst.of_run_error ⟨hs, rfl⟩ hse
    rw [Prog.bind_of_error hse]
    exact .unchanged hm hc hp (hdi ▸ hdu) fun h => by cases h
  have ho₁ := hst.of_run ⟨hs, rfl⟩ hse
  rw [Prog.bind_of_ok hse]
  rcases ha : append frame log₁ with ⟨e | _, log₂⟩
  · -- the append failed: the log is cut back, or the store is poisoned
    have ho₂ := (append_on frame).of_run_error ho₁ ha
    rw [Prog.bind_of_ok (Prog.attempt_of_eq ha)]
    dsimp only
    rcases hr : rollbackWal log.directory.wal.length log₂ with ⟨e' | _, log₃⟩
    · obtain ⟨hm, n, hdi⟩ := (rollbackWal_on frame).of_run_error ho₂ hr
      rw [Prog.bind_of_ok (Prog.attempt_of_eq hr)]
      refine ⟨hm.options, hm.closed.trans hc, (fun h => by cases h), ?_,
        (fun h => by cases h), ?_⟩
      · rintro e he
        cases he
        exact ⟨hm.entries, fun hne => absurd rfl hne⟩
      · show ∃ rows wal, reopen log₃.directory log.options = .ok (rows, wal) ∧ _
        rw [hdi]
        by_cases hn : n < frame.length
        · obtain ⟨wal, hop⟩ := hdu.reopen_torn (torn_of_batchFrame hni hof hn)
            fun _ => hh
          exact ⟨log.entries, wal, hop, .inl rfl⟩
        · rw [List.take_of_length_le (not_lt.mp hn)]
          obtain ⟨wal, hop⟩ := (hdu.append hh hni hof).reopen
          exact ⟨_, wal, hop, .inr rfl⟩
    · obtain ⟨hm, hdi⟩ := (rollbackWal_on frame).of_run ho₂ hr
      rw [Prog.bind_of_ok (Prog.attempt_of_eq hr)]
      exact .unchanged hm hc hp (hdi ▸ hdu) fun h => by cases h
  · -- the frame is on disk, and the maintenance keeps it there
    obtain ⟨hm, hdi⟩ := (append_on frame).of_run ho₁ ha
    rw [Prog.bind_of_ok (Prog.attempt_of_eq ha)]
    dsimp only
    rw [Prog.bind_of_ok (Prog.modify_run _ log₂)]
    generalize hl₃ : ({ log₂ with entries := applyBatch log₂.entries batch } : RustLog) = log₃
    have ho : log₃.options = log.options := by rw [← hl₃, ← hm.options]
    have hen : log₃.entries = applyBatch log.entries batch := by
      rw [← hl₃, ← hm.entries]
    have hd₃ : log₃.directory = appended frame log.directory := by rw [← hl₃, ← hdi]
    have hdu₃ : Opens log₃.options log₃.entries log₃.directory := by
      rw [ho, hen, hd₃]
      exact hdu.append hh hni hof
    have hl : log₃.directory.wal.length = log.directory.wal.length + frame.length := by
      rw [hd₃, appended, List.length_append]
    have hf₃ : 0 < log₃.options.compactAfterBytes.toNat →
        log₃.options.compactAfterBytes.toNat ≤ log₃.directory.wal.length →
        SnapshotFits log₃.options log₃.entries := by
      rw [ho, hen, hl]
      exact hfi
    have hma := maintain_on hf₃
    rcases hru : maintain log₃ with ⟨e | _, log₄⟩
    · exact (hma.of_run_error ⟨.refl log₃, hdu₃, rfl⟩ hru).elim
    obtain ⟨hm₄, hd₄⟩ := hma.of_run ⟨.refl log₃, hdu₃, rfl⟩ hru
    have hp₃ : log₃.poisoned = false := by
      rw [← hl₃]
      exact hm.poisoned.trans hp
    have hc₃ : log₃.closed = false := by
      rw [← hl₃]
      exact hm.closed.trans hc
    have hro : log₄.entries = applyBatch log.entries batch := hm₄.entries.trans hen
    rw [ho, hen] at hd₄
    refine ⟨hm₄.options.trans ho, hm₄.closed.trans hc₃,
      fun _ => ⟨hro, hm₄.poisoned.trans hp₃⟩, (fun e he => by cases he), fun _ => ?_, ?_⟩
    · rw [hro]
      exact hd₄
    · obtain ⟨wal, hop⟩ := hd₄.reopen
      exact ⟨_, wal, hop, .inr rfl⟩

/-! ## Runs -/

/-- The calls on a store. -/
inductive StorageCall where
  | write (batch : WriteBatch)
  | compact

namespace StorageCall

/-- A call on a store whose next steps have these outcomes. -/
def run (outcomes : List IoOutcome) (log : RustLog) : StorageCall → Except StorageError Unit × RustLog
  | write batch => RustLog.write batch { log with outcomes := outcomes }
  | compact => RustLog.compact { log with outcomes := outcomes }

/-- The rows after a call that returned. -/
def rows (entries : Entries) : StorageCall → Entries
  | write batch => applyBatch entries batch
  | compact => entries

/-- A frame finds the header of its log, and an empty snapshot is accepted. -/
def Sound (log : RustLog) : StorageCall → Prop
  | write batch => SoundWrite log batch
  | compact => SnapshotFits log.options log.entries

end StorageCall

/-- The logs that calls reach, each call meeting `ok` and with any outcomes of its steps. -/
inductive Reached (ok : RustLog → StorageCall → Prop) (directory : Directory)
    (options : RustLogOptions) : RustLog → Prop
  | opened {log : RustLog} (hopen : openGeneration directory options = .ok log) :
      Reached ok directory options log
  | call {log : RustLog} (c : StorageCall) (outcomes : List IoOutcome)
      (hlog : Reached ok directory options log) (hok : ok log c) :
      Reached ok directory options (c.run outcomes log).2

/-- What every call keeps. -/
structure Inv (options : RustLogOptions) (log : RustLog) : Prop where
  sameOptions : log.options = options
  closed : log.closed = false
  durable : log.poisoned = false → Opens options log.entries log.directory

theorem Inv.opened (h : openGeneration directory options = .ok log) : Inv options log := by
  simp only [openGeneration, bind_eq_ok_iff, pure_eq_ok_iff, Prod.exists] at h
  obtain ⟨-, -, entries, wal, ho, rfl⟩ := h
  exact ⟨rfl, rfl, fun _ => durable_of_reopen ho⟩

theorem ensureUsable_of_poisoned (h : log.poisoned = true) :
    ∃ e, ensureUsable log = (.error e, log) := by
  unfold ensureUsable
  rw [Prog.bind_of_ok (Prog.get_run log), h]
  cases log.closed with
  | true => exact ⟨.closed, rfl⟩
  | false => exact ⟨.poisoned, rfl⟩

theorem run_of_poisoned (h : log.poisoned = true) (c : StorageCall) (outcomes : List IoOutcome) :
    (c.run outcomes log).2 = { log with outcomes := outcomes } := by
  obtain ⟨e, he⟩ : ∃ e, ensureUsable { log with outcomes := outcomes } =
      (.error e, { log with outcomes := outcomes }) := ensureUsable_of_poisoned h
  cases c with
  | write batch => rw [StorageCall.run, write, Prog.bind_of_error he]
  | compact => rw [StorageCall.run, compact, Prog.bind_of_error he]

/-- What a sound call leaves of a store that is not poisoned. -/
structure Called (options : RustLogOptions) (log : RustLog) (c : StorageCall)
    (result : Except StorageError Unit) (log' : RustLog) : Prop where
  inv : Inv options log'
  returned : result = .ok () → log'.entries = c.rows log.entries ∧ log'.poisoned = false
  failed : ∀ e, result = .error e → log'.entries = log.entries ∧
    (e ≠ .poisoned → log'.poisoned = false)
  crash : ∃ rows wal, reopen log'.directory options = .ok (rows, wal) ∧
    (rows = log.entries ∨ rows = c.rows log.entries)

/-- **Each call.** -/
theorem Inv.called (h : Inv options log) (hp : log.poisoned = false) {c : StorageCall}
    (hs : c.Sound log) (outcomes : List IoOutcome) :
    Called options log c (c.run outcomes log).1 (c.run outcomes log).2 := by
  obtain ⟨rfl, hc, hd⟩ := h
  cases c with
  | write batch =>
    have hw := @write_spec { log with outcomes := outcomes } (hd hp) hc
      hp batch hs
    exact ⟨⟨hw.options, hw.closed, hw.durable⟩, hw.returned,
      hw.failed, hw.crash⟩
  | compact =>
    have hk : Prog.Triple (On { log with outcomes := outcomes } _) compact _ _ :=
      compact_keeps hs
    have hst : On { log with outcomes := outcomes } (Opens log.options log.entries)
        { log with outcomes := outcomes } := ⟨.refl _, hd hp⟩
    have hl : On { log with outcomes := outcomes } (Opens log.options log.entries)
        (compact { log with outcomes := outcomes }).2 := by
      rcases hr : compact { log with outcomes := outcomes } with ⟨e | _, log'⟩
      · exact hk.of_run_error hst hr
      · exact hk.of_run hst hr
    obtain ⟨hm, hd'⟩ := hl
    have hp' := hm.poisoned.trans hp
    obtain ⟨wal, ho⟩ := hd'.reopen
    refine ⟨⟨hm.options, hm.closed.trans hc, fun _ => ?_⟩,
      fun _ => ⟨hm.entries, hp'⟩, fun e _ => ⟨hm.entries, fun _ => hp'⟩,
      _, wal, ho, .inl rfl⟩
    rw [StorageCall.run, hm.entries]
    exact hd'

theorem Reached.inv (h : Reached (fun log c => c.Sound log) directory options log) :
    Inv options log := by
  induction h with
  | opened ho => exact .opened ho
  | @call log c outcomes _ hs ih =>
    cases hp : log.poisoned with
    | false => exact (ih.called hp hs outcomes).inv
    | true =>
      rw [run_of_poisoned hp]
      exact ⟨ih.sameOptions, ih.closed, fun hn => absurd (hp.symm.trans hn) Bool.noConfusion⟩

/-- **Durability** over every run whose writes find the header of their log, whatever becomes of
the steps on the files: the store opens with the rows in memory. A call that returned has its rows
there, a call that failed without poisoning the store changed no row, and a call that is cut short
leaves the rows before or after it. -/
theorem durable_of_reached (directory : Directory) (options : RustLogOptions) (log : RustLog)
    (hlog : Reached (fun log c => c.Sound log) directory options log)
    (hpoisoned : log.poisoned = false) :
    (∃ wal, reopen log.directory options = .ok (log.entries, wal)) ∧
    ∀ (c : StorageCall) (outcomes : List IoOutcome), c.Sound log →
      ((c.run outcomes log).1 = .ok () →
        (c.run outcomes log).2.poisoned = false ∧
        (c.run outcomes log).2.entries = c.rows log.entries ∧
        ∃ wal, reopen (c.run outcomes log).2.directory options =
          .ok (c.rows log.entries, wal)) ∧
      (∀ e, (c.run outcomes log).1 = .error e → e ≠ .poisoned →
        (c.run outcomes log).2.entries = log.entries ∧
        ∃ wal, reopen (c.run outcomes log).2.directory options = .ok (log.entries, wal)) ∧
      ∃ rows wal, reopen (c.run outcomes log).2.directory options = .ok (rows, wal) ∧
        (rows = log.entries ∨ rows = c.rows log.entries) := by
  have hinv := hlog.inv
  refine ⟨(hinv.durable hpoisoned).reopen, fun c outcomes hsound => ?_⟩
  have hcalled := hinv.called hpoisoned hsound outcomes
  refine ⟨fun hok => ?_, fun e he hne => ?_, hcalled.crash⟩
  · obtain ⟨hrows, hpoisoned'⟩ := hcalled.returned hok
    exact ⟨hpoisoned', hrows, hrows ▸ (hcalled.inv.durable hpoisoned').reopen⟩
  · obtain ⟨hrows, hnot⟩ := hcalled.failed e he
    exact ⟨hrows, hrows ▸ (hcalled.inv.durable (hnot hne)).reopen⟩

/-! ## A header that is lost -/

/-- The store in an empty directory. -/
def freshLog : RustLog where
  directory := ⟨none, walMagic⟩
  options := .default
  entries := ∅
  closed := false
  poisoned := false
  maintenanceError := none
  outcomes := []

theorem freshLog_opened : openGeneration ⟨none, []⟩ .default = .ok freshLog := rfl

/-- The store after a write that returned, and after one that failed when three bytes of its frame
were in the log. -/
def written : RustLog := (StorageCall.run [] freshLog (.write [.put [1] [2]])).2

def cutBack : RustLog :=
  (StorageCall.run [.done, .failed .other 3] written (.write [.put [3] [4]])).2

/-- The row that was written survives the failed write and a compaction. -/
theorem durable_of_reached_sample :
    ((StorageCall.write [.put [3] [4]]).run [.done, .failed .other 3] written).1.isOk = false ∧
      (StorageCall.run [] cutBack .compact).2.entries.lookup [1] = some [2] ∧
      (StorageCall.run [] cutBack .compact).2.directory.wal = walMagic ∧
      ∃ wal, reopen (StorageCall.run [] cutBack .compact).2.directory .default =
        .ok ((StorageCall.run [] cutBack .compact).2.entries, wal) := by
  have hruns : 8 ≤ written.directory.wal.length ∧
      ((StorageCall.write [.put [3] [4]]).run [.done, .failed .other 3] written).1.isOk = false ∧
      (StorageCall.run [] cutBack .compact).2.entries.lookup [1] = some [2] ∧
      (StorageCall.run [] cutBack .compact).2.directory.wal = walMagic ∧
      (StorageCall.run [] cutBack .compact).2.poisoned = false := by decide +kernel
  obtain ⟨hheader, hfailed, hrow, hwal, hpoisoned⟩ := hruns
  have hwritten : Reached (fun log c => c.Sound log) ⟨none, []⟩ .default written :=
    .call _ [] (.opened freshLog_opened) fun _ _ _ => ⟨le_rfl, fun _ _ _ => by decide⟩
  have hcut : Reached (fun log c => c.Sound log) ⟨none, []⟩ .default cutBack :=
    .call _ _ hwritten fun _ _ _ => ⟨hheader, fun _ _ _ => by decide⟩
  have hcompacted := Reached.call .compact [] hcut fun _ => by decide
  exact ⟨hfailed, hrow, hwal, (durable_of_reached _ _ _ hcompacted hpoisoned).1⟩

/-- A compaction that fails when it writes the header of the emptied log. -/
def headerFails : List IoOutcome := List.replicate 10 .done ++ [.failed .other 0]

/-- The store after one write and the failed compaction. -/
def headless : RustLog :=
  (StorageCall.run headerFails (StorageCall.run [] freshLog (.write [.put [1] [2]])).2 .compact).2

/-- The next write returns, and the store does not open again. -/
theorem headless_not_durable :
    Reached (fun _ _ => True) ⟨none, []⟩ .default headless ∧ headless.poisoned = false ∧
      ((StorageCall.write [.put [3] [4]]).run [] headless).1 = .ok () ∧
      ((StorageCall.write [.put [3] [4]]).run [] headless).2.poisoned = false ∧
      (reopen ((StorageCall.write [.put [3] [4]]).run [] headless).2.directory .default).toOption =
        none :=
  ⟨.call .compact headerFails (.call (.write [.put [1] [2]]) [] (.opened freshLog_opened) trivial)
    trivial, by decide +kernel⟩

end RustLog

end RustTron.Storage
