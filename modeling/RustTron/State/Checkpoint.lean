import RustTron.State.Session.Stack
import Mathlib

/-!
# Publication of checkpoints

A publication stores the committed layers and the whole checkpoint history in the metadata of the
durable root: first staged, then current. The metadata rows hold the checkpoint state itself
here; of its byte form only the length and the checks of the decoder are modelled. The journal
row, the digest of the staged bytes, is there exactly when the staged row is.

## Main definitions

* `CheckpointLimits`, `CheckpointState.encodedBytes`: the limits, and the length they bound
* `CheckpointStack.persist`: stage and publish the committed state
* `CheckpointStack.recoverAndRelink`: finish an interrupted publication and reload it

## Main results

* `CheckpointState.encode_eq_ok_iff`: when a checkpoint fits
* `persist_of_active`: no publication while a session is open
* `persist_of_fits`: what a publication of a quiescent manager does
-/

namespace RustTron.State

structure CheckpointLimits where
  maxStack : Nat
  maxFlushCount : Nat
  maxBytes : Nat
  deriving DecidableEq, Repr

def CheckpointLimits.default : CheckpointLimits where
  maxStack := 256
  maxFlushCount := 64
  maxBytes := 64 * 1024 * 1024

inductive CheckpointError where
  | session (error : SessionError)
  | cursor (error : CursorError)
  | corrupt (message : String)
  | limit (message : String)
  | storage (message : String)
  deriving DecidableEq, Repr

/-- The length of a byte string with its four bytes of length. -/
def sizedBytes (length : Nat) : Nat := 4 + length

/-- The length of the value of a write. -/
def valueBytes : Write Bytes → Nat
  | .put bytes => bytes.length
  | .delete => 0

/-- The bytes of one write of a layer. -/
def entryBytes (key : RowKey) (value : Write Bytes) : Nat :=
  sizedBytes key.store.dbName.length + sizedBytes key.key.length + 1 +
    match value with
    | .put bytes => sizedBytes bytes.length
    | .delete => 0

/-- The bytes of one row of an image. -/
def rowBytes (key : RowKey) (value : Bytes) : Nat :=
  sizedBytes key.key.length + sizedBytes value.length

/-- The bytes of a layer, from `MIN_LAYER_BYTES` on. -/
def CheckpointLayer.bytes (layer : CheckpointLayer) : Nat :=
  8 + 1 + 4 + FMap.total entryBytes layer.values

/-- The bytes of the store names and row counts of an image; an image has all stores. -/
def storeTableBytes : Nat :=
  (StoreKind.all.map fun kind => sizedBytes kind.dbName.length + 4).sum

/-- The bytes of a history entry, from `MIN_HISTORY_BYTES` on. -/
def CheckpointHistory.bytes (entry : CheckpointHistory) : Nat :=
  32 + 8 + 1 + 4 + (if entry.parent.isSome then 32 else 0) + storeTableBytes +
    FMap.total rowBytes entry.image

namespace CheckpointState

/-- The length of the encoded checkpoint: magic, digest, and the two counted lists. -/
def encodedBytes (checkpoint : CheckpointState) : Nat :=
  8 + 32 + (4 + (checkpoint.layers.map CheckpointLayer.bytes).sum +
    (4 + (checkpoint.history.map CheckpointHistory.bytes).sum))

/-- A byte string of the checkpoint whose length is no `u32`. -/
def longString (checkpoint : CheckpointState) : Bool :=
  checkpoint.layers.any (fun layer => 0 < layer.values.entries.countP fun e =>
    2 ^ 32 ≤ e.1.key.length ∨ 2 ^ 32 ≤ valueBytes e.2) ||
  checkpoint.history.any fun entry => 0 < entry.image.entries.countP fun e =>
    2 ^ 32 ≤ e.1.key.length ∨ 2 ^ 32 ≤ e.2.length

/-- A layer or a store of the checkpoint whose number of rows is no `u32`. -/
def longTable (checkpoint : CheckpointState) : Bool :=
  checkpoint.layers.any (fun layer => 2 ^ 32 ≤ layer.values.entries.card) ||
  checkpoint.history.any fun entry => StoreKind.all.any fun kind =>
    2 ^ 32 ≤ (entry.image.entries.filter fun e => e.1.store = kind).card

/-- `encode`, as far as it can fail. A checkpoint with a string and a table that are both too long
gets the text of the one `encode` comes to first; here that of the string. -/
def encode (checkpoint : CheckpointState) (limits : CheckpointLimits) :
    Except CheckpointError CheckpointState :=
  if limits.maxStack < checkpoint.layers.length || limits.maxStack < checkpoint.history.length then
    .error (.limit "maximum checkpoint stack exceeded")
  else if checkpoint.longString then .error (.limit "checkpoint byte string exceeded")
  else if checkpoint.longTable then .error (.limit "checkpoint collection count exceeded")
  else if limits.maxBytes < checkpoint.encodedBytes then
    .error (.limit "checkpoint bytes exceeded")
  else .ok checkpoint

/-- Every entry of a history names the one before it as its parent and has a larger number. -/
def linked : List CheckpointHistory → Bool
  | [] => true
  | [_] => true
  | previous :: entry :: rest =>
    entry.parent = some previous.point.identity && previous.point.block < entry.point.block &&
      linked (entry :: rest)

/-- `decode`, of the bytes of an encoded checkpoint. -/
def decode (checkpoint : CheckpointState) (limits : CheckpointLimits) :
    Except CheckpointError CheckpointState :=
  if limits.maxBytes < checkpoint.encodedBytes then .error (.corrupt "invalid checkpoint envelope")
  else if limits.maxStack < checkpoint.layers.length then
    .error (.limit "maximum checkpoint stack exceeded")
  else if checkpoint.layers.any (fun layer => !layer.committed) then
    .error (.corrupt "uncommitted checkpoint layer")
  else if ¬ (checkpoint.layers.map (·.id)).Nodup then
    .error (.corrupt "duplicate checkpoint layer")
  else if limits.maxStack < checkpoint.history.length then
    .error (.limit "maximum checkpoint history exceeded")
  else if ¬ (checkpoint.history.map (·.point.identity)).Nodup then
    .error (.corrupt "duplicate checkpoint identity")
  else if !linked checkpoint.history || checkpoint.history.head?.any (·.parent.isSome) then
    .error (.corrupt "invalid checkpoint ancestry")
  else .ok checkpoint

end CheckpointState

/-- A batch of writes to the durable root, which may fail. -/
def commitBatch (write : StateStore → StateStore) : Prog Sessions CheckpointError Unit := fun s =>
  match s.root.faults with
  | true :: rest =>
    (.error (.storage "write failed"), { s with root := { s.root with faults := rest } })
  | false :: rest => (.ok (), { s with root := write { s.root with faults := rest } })
  | [] => (.ok (), { s with root := write s.root })

namespace CheckpointStack

def publish (limits : CheckpointLimits) (checkpoint : CheckpointState) :
    Prog Sessions CheckpointError Nat := do
  if limits.maxStack < checkpoint.layers.length then
    throw (.limit "maximum checkpoint stack exceeded")
  let encoded ← Prog.ofExcept id (checkpoint.encode limits)
  commitBatch fun root => { root with staged := some encoded }
  commitBatch fun root => { root with current := some encoded, staged := none }
  pure checkpoint.layers.length

def persist (limits : CheckpointLimits) : Prog Sessions CheckpointError Nat := do
  let s ← get
  let checkpoint ← Prog.ofExcept .session s.checkpointState
  publish limits checkpoint

def recoverStore (limits : CheckpointLimits) : Prog Sessions CheckpointError Bool := do
  let s ← get
  match s.root.staged with
  | none => pure false
  | some staged =>
    let _ ← Prog.ofExcept id (staged.decode limits)
    commitBatch fun root => { root with current := some staged, staged := none }
    pure true

def recoverAndRelink (limits : CheckpointLimits) : Prog Sessions CheckpointError (Option Nat) := do
  let _ ← recoverStore limits
  let s ← get
  match s.root.current with
  | none => pure none
  | some current =>
    if s.active ≠ 0 then throw (.session (.activeSessions s.active))
    let checkpoint ← Prog.ofExcept id (current.decode limits)
    let count ← Prog.mapError .session (Sessions.replaceCheckpointState checkpoint)
    pure (some count)

end CheckpointStack

/-! ## When a checkpoint fits -/

section Fits

variable {checkpoint : CheckpointState} {limits : CheckpointLimits}

theorem CheckpointLayer.bytes_le {layer : CheckpointLayer} (h : layer ∈ checkpoint.layers) :
    layer.bytes ≤ checkpoint.encodedBytes := by
  have := List.single_le_sum (l := checkpoint.layers.map CheckpointLayer.bytes)
    (fun _ _ => Nat.zero_le _) _ (List.mem_map_of_mem h)
  unfold CheckpointState.encodedBytes
  omega

theorem CheckpointHistory.bytes_le {entry : CheckpointHistory} (h : entry ∈ checkpoint.history) :
    entry.bytes ≤ checkpoint.encodedBytes := by
  have := List.single_le_sum (l := checkpoint.history.map CheckpointHistory.bytes)
    (fun _ _ => Nat.zero_le _) _ (List.mem_map_of_mem h)
  unfold CheckpointState.encodedBytes
  omega

theorem CheckpointState.le_encodedBytes_of_longString (h : checkpoint.longString = true) :
    2 ^ 32 ≤ checkpoint.encodedBytes := by
  simp only [longString, Bool.or_eq_true, List.any_eq_true, decide_eq_true_eq,
    Multiset.countP_pos] at h
  rcases h with ⟨layer, hl, e, he, hlo⟩ | ⟨entry, hen, e, he, hlo⟩
  · have h₁ := FMap.le_total entryBytes he
    have h₂ := CheckpointLayer.bytes_le hl
    have h₃ : e.1.key.length + valueBytes e.2 ≤ entryBytes e.1 e.2 := by
      unfold entryBytes sizedBytes valueBytes
      split <;> omega
    unfold CheckpointLayer.bytes at h₂
    omega
  · have h₁ := FMap.le_total rowBytes he
    have h₂ := CheckpointHistory.bytes_le hen
    unfold CheckpointHistory.bytes at h₂
    simp only [rowBytes, sizedBytes] at h₁
    omega

theorem CheckpointState.le_encodedBytes_of_longTable (h : checkpoint.longTable = true) :
    2 ^ 32 ≤ checkpoint.encodedBytes := by
  simp only [longTable, Bool.or_eq_true, List.any_eq_true, decide_eq_true_eq] at h
  rcases h with ⟨layer, hl, hlo⟩ | ⟨entry, he, kind, -, hlo⟩
  · have h₁ := FMap.card_le_total (f := entryBytes)
      (fun _ _ => by unfold entryBytes sizedBytes; omega) layer.values
    have h₂ := CheckpointLayer.bytes_le hl
    unfold CheckpointLayer.bytes at h₂
    omega
  · have h₁ := FMap.card_le_total (f := rowBytes)
      (fun _ _ => by unfold rowBytes sizedBytes; omega) entry.image
    have h₂ := CheckpointHistory.bytes_le he
    have h₃ := Multiset.card_le_card
      (Multiset.filter_le (fun e => e.1.store = kind) entry.image.entries)
    unfold CheckpointHistory.bytes at h₂
    omega

/-- **When a checkpoint fits**: its two lists are within the stack limit, and its bytes within the
byte limit, which is a `u32` or less. -/
theorem CheckpointState.encode_eq_ok_iff (hli : limits.maxBytes < 2 ^ 32) :
    checkpoint.encode limits = .ok checkpoint ↔
      checkpoint.layers.length ≤ limits.maxStack ∧ checkpoint.history.length ≤ limits.maxStack ∧
        checkpoint.encodedBytes ≤ limits.maxBytes := by
  have hs : checkpoint.longString = true → _ := le_encodedBytes_of_longString
  have ht : checkpoint.longTable = true → _ := le_encodedBytes_of_longTable
  unfold encode
  constructor
  · intro h
    split at h
    · cases h
    · rename_i hc
      simp only [Bool.or_eq_true, decide_eq_true_eq, not_or, not_lt] at hc
      split at h
      · cases h
      · split at h
        · cases h
        · split at h
          · cases h
          · rename_i hb
            exact ⟨hc.1, hc.2, not_lt.mp hb⟩
  · rintro ⟨hl, hh, hb⟩
    have h₁ : checkpoint.longString = false := by
      rw [← Bool.not_eq_true]
      intro h
      have := hs h
      omega
    have h₂ : checkpoint.longTable = false := by
      rw [← Bool.not_eq_true]
      intro h
      have := ht h
      omega
    simp [h₁, h₂, not_lt.mpr hl, not_lt.mpr hh, not_lt.mpr hb]

theorem CheckpointState.encode_eq (h : ∃ c, checkpoint.encode limits = .ok c) :
    checkpoint.encode limits = .ok checkpoint := by
  obtain ⟨c, hc⟩ := h
  unfold encode at hc ⊢
  split_ifs at hc ⊢
  rfl

end Fits

/-! ## Publication -/

namespace CheckpointStack

variable {s : Sessions} {limits : CheckpointLimits}

/-- **No publication while a session is open.** -/
theorem persist_of_active (h : s.active ≠ 0) :
    persist limits s = (.error (.session (.activeSessions s.active)), s) := by
  have hs : s.checkpointState = .error (.activeSessions s.active) := by
    simp [Sessions.checkpointState, h]
  rw [persist, Prog.bind_of_ok (Prog.get_run s), hs]
  rfl

end CheckpointStack

/-- The checkpoint of a quiescent manager. -/
def Sessions.checkpoint (s : Sessions) : CheckpointState where
  layers := s.layers.map fun layer => ⟨layer.id, true, layer.values⟩
  history := s.checkpoints.map fun c => ⟨c.point, c.parent, c.view⟩

theorem Sessions.Quiescent.checkpointState_eq {s : Sessions} (h : s.Quiescent) :
    s.checkpointState = .ok s.checkpoint := by
  have hs : s.layers.any (fun layer => !layer.isSettled) = false := by
    rw [List.any_eq_false]
    intro l hl
    simp [h.isSettled hl]
  simp [checkpointState, h.active, hs, checkpoint]

/-- The same manager over a root with the same rows. -/
def Sessions.SameButMetadata (s t : Sessions) : Prop :=
  ∃ root : StateStore, t = { s with root := root } ∧ root.rows = s.root.rows

namespace Sessions.SameButMetadata

variable {s t u : Sessions}

theorem refl (s : Sessions) : s.SameButMetadata s := ⟨s.root, rfl, rfl⟩

theorem trans (h : s.SameButMetadata t) (h' : t.SameButMetadata u) : s.SameButMetadata u := by
  obtain ⟨root, rfl, hr⟩ := h
  obtain ⟨root', rfl, hr'⟩ := h'
  exact ⟨root', rfl, hr'.trans hr⟩

theorem readView_eq (h : s.SameButMetadata t) : t.readView = s.readView := by
  obtain ⟨root, rfl, hr⟩ := h
  simp [readView, captureWhere, hr]

theorem checkpoints_eq (h : s.SameButMetadata t) : t.checkpoints = s.checkpoints := by
  obtain ⟨root, rfl, -⟩ := h
  rfl

theorem quiescent (h : s.SameButMetadata t) (hs : s.Quiescent) : t.Quiescent := by
  obtain ⟨root, rfl, -⟩ := h
  exact ⟨⟨hs.kept, hs.fresh, hs.enabled⟩, hs.committed, hs.active, hs.pendingOuter⟩

end Sessions.SameButMetadata

/-- The next batches reach the durable root. -/
def StateStore.Reliable (root : StateStore) : Prop := true ∉ root.faults

/-- A batch that changes the metadata of the root changes nothing else. -/
theorem commitBatch_same {write : StateStore → StateStore}
    (hw : ∀ root, (write root).rows = root.rows) (s : Sessions) :
    s.SameButMetadata (commitBatch write s).2 := by
  unfold commitBatch
  split
  · exact ⟨_, rfl, rfl⟩
  · exact ⟨_, rfl, hw _⟩
  · exact ⟨_, rfl, hw _⟩

theorem commitBatch_of_reliable {s : Sessions} {write : StateStore → StateStore}
    (h : s.root.Reliable) :
    commitBatch write s =
      (.ok (), { s with root := write { s.root with faults := s.root.faults.tail } }) := by
  unfold commitBatch
  unfold StateStore.Reliable at h
  rcases hf : s.root.faults with _ | ⟨_ | _, rest⟩
  · simp only [List.tail_nil]
    rw [← hf]
  · rfl
  · rw [hf] at h
    exact absurd List.mem_cons_self h

/-- The root after a publication of this checkpoint. -/
def StateStore.published (root : StateStore) (checkpoint : CheckpointState) : StateStore where
  rows := root.rows
  staged := none
  current := some checkpoint
  faults := root.faults.tail.tail

namespace CheckpointStack

variable {s : Sessions} {limits : CheckpointLimits}

theorem publish_same (limits : CheckpointLimits) (checkpoint : CheckpointState) (s : Sessions) :
    s.SameButMetadata (publish limits checkpoint s).2 := by
  have hb {write : StateStore → StateStore} (hw : ∀ root, (write root).rows = root.rows) :
      Prog.Keeps s.SameButMetadata (commitBatch write) :=
    .of_state fun t ht => ht.trans (commitBatch_same hw t)
  have hp : Prog.Keeps s.SameButMetadata (publish limits checkpoint) := by
    refine .ite (fun _ => .bind .throw fun _ => ?_) fun _ => ?_
    all_goals
      exact .bind .ofExcept fun _ => .bind (hb fun _ => rfl) fun _ =>
        .bind (hb fun _ => rfl) fun _ => .pure
  exact hp.state (.refl s)

/-- A publication changes nothing but the metadata of the root. -/
theorem persist_same (limits : CheckpointLimits) (s : Sessions) :
    s.SameButMetadata (persist limits s).2 := by
  have hp : Prog.Keeps s.SameButMetadata (persist limits) :=
    .bind .get fun _ => .bind .ofExcept fun checkpoint =>
      .of_state fun t ht => ht.trans (publish_same limits checkpoint t)
  exact hp.state (.refl s)

/-- **A publication of a quiescent manager** succeeds where the checkpoint fits. -/
theorem persist_of_fits (h : s.Quiescent) (hr : s.root.Reliable)
    (hf : s.checkpoint.encode limits = .ok s.checkpoint) :
    persist limits s =
      (.ok s.layers.length, { s with root := s.root.published s.checkpoint }) := by
  have hs : s.layers.length ≤ limits.maxStack := by
    by_contra ho
    simp [CheckpointState.encode, Sessions.checkpoint, not_le.mp ho] at hf
  have hl : s.checkpoint.layers.length = s.layers.length := by simp [Sessions.checkpoint]
  have hp : publish limits s.checkpoint s = (.ok s.layers.length,
      { s with root := s.root.published s.checkpoint }) := by
    simp only [publish, hl, not_lt.mpr hs, if_false, hf, Prog.ofExcept]
    rw [Prog.bind_of_ok (Prog.pure_run _ _), Prog.bind_of_ok (commitBatch_of_reliable hr),
      Prog.bind_of_ok (commitBatch_of_reliable ?_)]
    · rfl
    · exact fun hm => hr (List.mem_of_mem_tail hm)
  rw [persist, Prog.bind_of_ok (Prog.get_run s), h.checkpointState_eq]
  exact hp

theorem commitBatch_eq_ok {s s' : Sessions} {write : StateStore → StateStore}
    (h : commitBatch write s = (.ok (), s')) :
    ∃ faults, s' = { s with root := write { s.root with faults := faults } } := by
  unfold commitBatch at h
  split at h
  · cases h
  · rename_i rest hf
    exact ⟨rest, (Prod.ext_iff.mp h).2.symm⟩
  · rename_i hf
    refine ⟨s.root.faults, ?_⟩
    exact (Prod.ext_iff.mp h).2.symm

/-- A batch is written as a whole, or not at all. -/
theorem commitBatch_cases (write : StateStore → StateStore) (s : Sessions) :
    (∃ faults, commitBatch write s =
        (.ok (), { s with root := write { s.root with faults := faults } })) ∨
      ∃ e faults, commitBatch write s =
        (.error e, { s with root := { s.root with faults := faults } }) := by
  unfold commitBatch
  split
  · exact .inr ⟨_, _, rfl⟩
  · exact .inl ⟨_, rfl⟩
  · exact .inl ⟨s.root.faults, rfl⟩

/-- **A publication that succeeded** fits, and the root holds its checkpoint. -/
theorem publish_eq_ok {checkpoint : CheckpointState} {s' : Sessions} {count : Nat}
    (h : publish limits checkpoint s = (.ok count, s')) :
    checkpoint.encode limits = .ok checkpoint ∧ count = checkpoint.layers.length ∧
      ∃ faults, s' = { s with root := ⟨s.root.rows, none, some checkpoint, faults⟩ } := by
  unfold publish at h
  split at h
  · cases h
  · dsimp only at h
    cases he : checkpoint.encode limits with
    | error e =>
      rw [he] at h
      cases h
    | ok encoded =>
      have hf := CheckpointState.encode_eq ⟨encoded, he⟩
      obtain rfl : encoded = checkpoint := Except.ok.inj (he.symm.trans hf)
      rw [he, Prog.bind_of_ok (Prog.ofExcept_ok_run _ _ _), Prog.bind_run] at h
      rcases hs : commitBatch (fun root => { root with staged := some encoded }) s with
        ⟨e | _, s₁⟩ <;> rw [hs] at h
      · cases h
      obtain ⟨faults₁, rfl⟩ := commitBatch_eq_ok hs
      dsimp only at h
      rw [Prog.bind_run] at h
      rcases hc : commitBatch (fun root =>
        { root with current := some encoded, staged := none }) _ with ⟨e | _, s₂⟩ <;>
        rw [hc] at h
      · cases h
      obtain ⟨faults₂, rfl⟩ := commitBatch_eq_ok hc
      cases h
      exact ⟨rfl, rfl, faults₂, rfl⟩

/-- **A publication of the committed state that succeeded** fits, and the root holds the state. -/
theorem persist_eq_ok_of_state {s' : Sessions} {count : Nat}
    (hs : s.checkpointState = .ok s.checkpoint) (h : persist limits s = (.ok count, s')) :
    s.checkpoint.encode limits = .ok s.checkpoint ∧ count = s.layers.length ∧
      ∃ faults, s' = { s with root := ⟨s.root.rows, none, some s.checkpoint, faults⟩ } := by
  rw [persist, Prog.bind_of_ok (Prog.get_run s), hs,
    Prog.bind_of_ok (Prog.ofExcept_ok_run _ _ _)] at h
  obtain ⟨hf, hc, hr⟩ := publish_eq_ok h
  exact ⟨hf, hc.trans (List.length_map _), hr⟩

/-- A publication of a quiescent manager that succeeded. -/
theorem persist_eq_ok {s' : Sessions} {count : Nat} (hs : s.Quiescent)
    (h : persist limits s = (.ok count, s')) :
    s.checkpoint.encode limits = .ok s.checkpoint ∧
      ∃ faults, s' = { s with root := ⟨s.root.rows, none, some s.checkpoint, faults⟩ } := by
  obtain ⟨hf, -, hr⟩ := persist_eq_ok_of_state hs.checkpointState_eq h
  exact ⟨hf, hr⟩

end CheckpointStack

/-! ## Recovery -/

theorem CheckpointState.decode_eq_ok {checkpoint decoded : CheckpointState}
    {limits : CheckpointLimits} (h : checkpoint.decode limits = .ok decoded) :
    decoded = checkpoint ∧ checkpoint.layers.any (fun layer => !layer.committed) = false := by
  unfold decode at h
  split_ifs at h with _ _ hc
  exact ⟨(Except.ok.inj h).symm, by simpa using hc⟩

/-- A new manager with the layers and the history of a checkpoint. -/
def relinked (root : StateStore) (checkpoint : CheckpointState) : Sessions :=
  { Sessions.new root with
    nextId := (checkpoint.layers.map (·.id)).foldl max 0 + 1
    layers := checkpoint.layers.map fun layer => ⟨layer.values, true, false, false, layer.id⟩
    checkpoints := checkpoint.history.map fun entry => ⟨entry.point, entry.parent, entry.image⟩ }

namespace CheckpointStack

variable {root : StateStore} {checkpoint decoded : CheckpointState} {limits : CheckpointLimits}

theorem recoverAndRelink_new (hs : root.staged = none)
    (hcu : root.current = some checkpoint) (hd : checkpoint.decode limits = .ok decoded) :
    recoverAndRelink limits (Sessions.new root) =
      (.ok (some checkpoint.layers.length), relinked root checkpoint) := by
  obtain ⟨rfl, hc⟩ := CheckpointState.decode_eq_ok hd
  have hr : Sessions.replaceCheckpointState decoded (Sessions.new root) =
      (.ok decoded.layers.length, relinked root decoded) := by
    simp only [Sessions.replaceCheckpointState, hc]
    rfl
  simp only [recoverAndRelink, recoverStore, Prog.bind_run, Prog.get_run,
    show (Sessions.new root).root = root from rfl, hs, Prog.pure_run, hcu,
    show (Sessions.new root).active = 0 from rfl, ne_eq, not_true_eq_false, if_false, hd,
    Prog.ofExcept_ok_run, Prog.mapError_of_ok hr]

theorem recoverAndRelink_new_error (hs : root.staged = none)
    (hc : root.current = some checkpoint) {e : CheckpointError}
    (hd : checkpoint.decode limits = .error e) :
    recoverAndRelink limits (Sessions.new root) = (.error e, Sessions.new root) := by
  simp only [recoverAndRelink, recoverStore, Prog.bind_run, Prog.get_run,
    show (Sessions.new root).root = root from rfl, hs, Prog.pure_run, hc,
    show (Sessions.new root).active = 0 from rfl, ne_eq, not_true_eq_false, if_false, hd,
    Prog.ofExcept_error_run, id]

end CheckpointStack

end RustTron.State
