import RustTron.State.Session
import Mathlib

/-!
# The stack of layers

What the operations of the session manager do to a stack whose top layer is the caller's. Every
stack the chain manager builds is of this shape: committed layers, the pending session's layer
over them while the pool is open, and at most one working layer over that.

## Main definitions

* `Sessions.withTop s id values`: the stack of `s` with one more layer, uncommitted
* `Sessions.Tidy`: no layer is abandoned, and no id is used twice
* `Sessions.Quiescent`: all layers are committed, and no session is open
* `Sessions.image`: the rows under all layers

## Main results

* `buildRoot_eq`, `buildChild_withTop`, `buildPendingOuter_eq`: opening a layer
* `mutateAll_withTop`, `rows_withTop`: writing to it, and reading from it
* `revoke_withTop`, `merge_withTop`, `commitWithCheckpoint_withTop`: closing it
-/

namespace RustTron.State

@[simp] theorem locate_append {id : Nat} {below above : List OverlayLayer} {layer : OverlayLayer}
    (hb : ∀ l ∈ below, l.id ≠ id) (hid : layer.id = id) :
    locate id (below ++ layer :: above) = some (below, layer, above) := by
  induction below with
  | nil => simp [locate, hid]
  | cons l below ih =>
    have hl : l.id ≠ id := hb l List.mem_cons_self
    have hr := ih fun l' hl' => hb l' (List.mem_cons_of_mem _ hl')
    simp [locate, hl, hr]

namespace Sessions

/-- The rows under all layers. -/
def image (s : Sessions) : Image :=
  s.layers.foldl (fun image layer => FMap.overlay image layer.values) s.root.rows

/-- A new uncommitted layer on top of the stack. -/
def withTop (s : Sessions) (id : Nat) (values : Overlay) : Sessions := { s with
  layers := s.layers ++ [⟨values, false, false, false, id⟩]
  active := s.active + 1 }

/-- The next session id is taken. -/
def bump (s : Sessions) : Sessions := { s with nextId := s.nextId + 1 }

/-- The pending session `id` is held. -/
def reserve (s : Sessions) (id : Nat) : Sessions := { s with pendingOuter := some id }

/-- No layer is abandoned or will disable the manager, and the next id is new. -/
structure Tidy (s : Sessions) : Prop where
  kept : ∀ l ∈ s.layers, l.abandoned = false ∧ l.disableOnExit = false
  fresh : ∀ l ∈ s.layers, l.id < s.nextId
  enabled : s.enabled = true

/-- All layers are committed, and no session is open. -/
structure Quiescent (s : Sessions) : Prop extends Tidy s where
  committed : ∀ l ∈ s.layers, l.committed = true
  active : s.active = 0
  pendingOuter : s.pendingOuter = none

variable {s : Sessions} {id : Nat} {values : Overlay}

theorem Tidy.ne_nextId (h : s.Tidy) : ∀ l ∈ s.layers, l.id ≠ s.nextId :=
  fun l hl => (h.fresh l hl).ne

theorem Tidy.bump (h : s.Tidy) : s.bump.Tidy where
  kept := h.kept
  fresh := fun l hl => Nat.lt_succ_of_lt (h.fresh l hl)
  enabled := h.enabled

theorem Tidy.withTop (h : s.Tidy) (hid : id < s.nextId) : (s.withTop id values).Tidy where
  kept := by
    intro l hl
    rcases List.mem_append.mp hl with hl | hl
    · exact h.kept l hl
    · rw [List.mem_singleton.mp hl]
      exact ⟨rfl, rfl⟩
  fresh := by
    intro l hl
    rcases List.mem_append.mp hl with hl | hl
    · exact h.fresh l hl
    · rw [List.mem_singleton.mp hl]
      exact hid
  enabled := h.enabled

theorem Quiescent.bump (h : s.Quiescent) : s.bump.Quiescent where
  toTidy := h.toTidy.bump
  committed := h.committed
  active := h.active
  pendingOuter := h.pendingOuter

theorem Tidy.reserve (h : s.Tidy) (id : Nat) : (s.reserve id).Tidy := ⟨h.kept, h.fresh, h.enabled⟩

theorem Quiescent.isSettled (h : s.Quiescent) {l : OverlayLayer} (hl : l ∈ s.layers) :
    l.isSettled = true := by
  simp [OverlayLayer.isSettled, h.committed l hl, (h.kept l hl).1]

/-- The committed layers of a quiescent manager are all of them. -/
theorem Quiescent.readView_eq (h : s.Quiescent) : s.readView = s.image := by
  rw [readView, captureWhere, List.filter_eq_self.mpr fun l hl => h.isSettled hl, image]

theorem Tidy.capture_eq (h : s.Tidy) :
    captureWhere s.root s.layers (fun l => !l.abandoned) = s.image := by
  rw [captureWhere, List.filter_eq_self.mpr fun l hl => by simp [(h.kept l hl).1], image]

@[simp] theorem withTop_image : (s.withTop id values).image = FMap.overlay s.image values := by
  simp [withTop, image, List.foldl_append]

@[simp] theorem withTop_pendingOuter : (s.withTop id values).pendingOuter = s.pendingOuter := rfl

/-! ## Opening a layer -/

theorem pushLayer_eq (h : s.enabled = true) (b : Bool) :
    s.pushLayer b = s.bump.withTop s.nextId ∅ := by
  simp [pushLayer, withTop, bump, h]

theorem buildRoot_eq (h : s.enabled = true) (ha : s.active = 0) (b : Bool) :
    buildRoot b s = (.ok (some s.nextId), s.bump.withTop s.nextId ∅) := by
  simp [buildRoot, ha, h, pushLayer_eq h]

theorem buildRoot_of_active (ha : s.active ≠ 0) (b : Bool) :
    buildRoot b s = (.error (.activeSessions s.active), s) := by
  simp [buildRoot, ha]

theorem buildChild_withTop (h : s.enabled = true) :
    buildChild (some id) (s.withTop id values) =
      (.ok (some s.nextId), ((s.bump.withTop id values).withTop s.nextId ∅)) := by
  have ht : (s.withTop id values).enabled = true := h
  simp only [buildChild, pushLayer_eq ht]
  simp [withTop, bump]

theorem buildPendingOuter_eq (h : s.Quiescent) :
    buildPendingOuter s =
      (.ok s.nextId, (s.bump.reserve s.nextId).withTop s.nextId ∅) := by
  simp [buildPendingOuter, h.pendingOuter, h.active, pushLayer_eq h.enabled, reserve, withTop, bump]

theorem buildPendingOuter_of_held (h : s.pendingOuter.isSome = true) :
    buildPendingOuter s = (.error .concurrentPending, s) := by
  simp [buildPendingOuter, h]

/-! ## Closing a layer -/

theorem takeWhile_kept (h : ∀ l ∈ s.layers, l.abandoned = false) :
    s.layers.takeWhile (fun l => !l.abandoned) = s.layers := by
  rw [List.takeWhile_eq_self_iff]
  intro l hl
  simp [h l hl]

theorem sweep_eq (h : ∀ l ∈ s.layers, l.abandoned = false) : sweep false s = (.ok (), s) := by
  have hd : s.layers.dropWhile (fun l => !l.abandoned) = [] := by
    rw [List.dropWhile_eq_nil_iff]
    intro l hl
    simp [h l hl]
  simp [sweep, Prog.bind_run, Prog.get_run, Prog.set_run, hd, takeWhile_kept h, subActive,
    Prog.pure_run]

theorem revoke_withTop (h : s.Tidy) (hid : ∀ l ∈ s.layers, l.id ≠ id) :
    Session.revoke (some id) (s.withTop id values) = (.ok (), s) := by
  have hlo : locate id (s.withTop id values).layers =
      some (s.layers, ⟨values, false, false, false, id⟩, []) := locate_append hid rfl
  simp only [Session.revoke, Session.finish, Prog.bind_run, Prog.get_run, hlo]
  simp [Prog.bind_run, Prog.set_run, subActive, OverlayLayer.isActive, withTop,
    sweep_eq fun l hl => (h.kept l hl).1]

theorem merge_withTop (h : s.Tidy) {child : Nat} {writes : Overlay}
    (hid : ∀ l ∈ s.layers, l.id ≠ child) (hne : id ≠ child) (hlt : id < s.nextId) :
    Session.merge (some child) ((s.withTop id values).withTop child writes) =
      (.ok (), s.withTop id (writes ∪ values)) := by
  have hb : ∀ l ∈ (s.withTop id values).layers, l.id ≠ child := by
    intro l hl
    rcases List.mem_append.mp hl with hl | hl
    · exact hid l hl
    · rw [List.mem_singleton.mp hl]
      exact hne
  have hlo : locate child ((s.withTop id values).withTop child writes).layers =
      some ((s.withTop id values).layers, ⟨writes, false, false, false, child⟩, []) :=
    locate_append hb rfl
  have hs := sweep_eq (s := s.withTop id (writes ∪ values))
    fun l hl => ((h.withTop hlt).kept l hl).1
  simp only [Session.merge, Session.finish, Prog.bind_run, Prog.get_run, hlo]
  simpa [Prog.bind_run, Prog.set_run, subActive, withTop] using hs

/-- A layer that cannot be committed under this checkpoint. -/
def Clashes (s : Sessions) (point : CursorPoint) : Prop :=
  s.checkpoints.any (fun c => c.point.identity = point.identity) = true ∨
    s.checkpoints.getLast?.any (fun head => point.block ≤ head.point.block) = true

/-- The stack with its top layer committed under a checkpoint. -/
def commitTop (s : Sessions) (id : Nat) (values : Overlay) (point : CursorPoint) : Sessions :=
  { s with
    layers := s.layers ++ [⟨values, true, false, false, id⟩]
    checkpoints := s.checkpoints ++
      [⟨point, s.checkpoints.getLast?.map (·.point.identity), FMap.overlay s.image values⟩] }

theorem commitWithCheckpoint_withTop (h : s.Tidy) (hid : ∀ l ∈ s.layers, l.id ≠ id)
    {point : CursorPoint} (hp : ¬ s.Clashes point) (hlt : id < s.nextId) :
    Session.commitWithCheckpoint (some id) point (s.withTop id values) =
      (.ok (), s.commitTop id values point) := by
  have hl : locate id (s.withTop id values).layers =
      some (s.layers, ⟨values, false, false, false, id⟩, []) := locate_append hid rfl
  rw [Clashes, not_or] at hp
  have hv := (show (s.withTop id values).Tidy from h.withTop hlt).capture_eq
  rw [withTop_image] at hv
  simp only [Session.commitWithCheckpoint, Prog.bind_run, Prog.get_run, hl, hv]
  simp [Prog.bind_run, Prog.set_run, Prog.modify_run, subActive, hp, withTop, commitTop]

theorem commitWithCheckpoint_clash (hid : ∀ l ∈ s.layers, l.id ≠ id) {point : CursorPoint}
    (hp : s.Clashes point) :
    Session.commitWithCheckpoint (some id) point (s.withTop id values) =
      (.error .invalidSession, s.withTop id values) := by
  have hl : locate id (s.withTop id values).layers =
      some (s.layers, ⟨values, false, false, false, id⟩, []) := locate_append hid rfl
  simp only [Session.commitWithCheckpoint, Prog.bind_run, Prog.get_run, hl]
  rcases hp with hp | hp <;> simp [hp, Prog.throw_run, withTop]

theorem drop_withTop (h : s.Tidy) (hid : ∀ l ∈ s.layers, l.id ≠ id) :
    Session.drop (some id) (s.withTop id values) = (.ok (), s) := by
  have hl : locate id (s.withTop id values).layers =
      some (s.layers, ⟨values, false, false, false, id⟩, []) := locate_append hid rfl
  have hc : Session.close (some id) (s.withTop id values) = (.ok (), s) := by
    simp only [Session.close, Prog.bind_run, Prog.get_run, hl]
    simpa using revoke_withTop h hid
  rw [Session.drop, Prog.bind_of_ok (Prog.attempt_of_eq hc)]
  rfl

theorem discard_withTop (h : s.Tidy) (hid : ∀ l ∈ s.layers, l.id ≠ id) :
    Session.discard (some id) (s.withTop id values) = (.ok (), s) := by
  rw [Session.discard, Prog.bind_of_ok (Prog.attempt_of_eq (revoke_withTop h hid))]
  rfl

/-- Closing the pending session. -/
theorem closePending_eq (h : s.Quiescent) (hid : ∀ l ∈ s.layers, l.id ≠ id) :
    PendingSession.close id ((s.reserve id).withTop id values) = (.ok (), s) := by
  have hr : releasePendingOuter id (s.reserve id) = s := by
    have := h.pendingOuter
    cases s
    simp_all [releasePendingOuter, reserve]
  rw [PendingSession.close, Prog.bind_of_ok (revoke_withTop (h.toTidy.reserve id) hid),
    Prog.modify_run, hr]

theorem forceResetPendingOuter_eq (h : s.Quiescent) (hid : ∀ l ∈ s.layers, l.id ≠ id) :
    ((s.reserve id).withTop id values).forceResetPendingOuter = s := by
  have hl : locate id ((s.reserve id).withTop id values).layers =
      some (s.layers, ⟨values, false, false, false, id⟩, []) := locate_append hid rfl
  have hp := h.pendingOuter
  have he := h.enabled
  simp only [forceResetPendingOuter, withTop_pendingOuter, reserve] at hl ⊢
  simp only [hl]
  cases s
  simp_all [withTop, OverlayLayer.isActive]

/-! ## Reading and writing -/

@[simp] theorem ownsTop_withTop : Session.ownsTop (some id) (s.withTop id values) = true := by
  simp [Session.ownsTop, withTop, OverlayLayer.isActive]

@[simp] theorem rows_withTop :
    Session.rows (some id) (s.withTop id values) = FMap.overlay s.image values := by
  rw [Session.rows, if_pos ownsTop_withTop]
  exact withTop_image

theorem view_withTop (h : s.Tidy) (hid : ∀ l ∈ s.layers, l.id ≠ id) (hlt : id < s.nextId) :
    Session.view (some id) (s.withTop id values) = FMap.overlay s.image values := by
  have hl : locate id (s.withTop id values).layers =
      some (s.layers, ⟨values, false, false, false, id⟩, []) := locate_append hid rfl
  simp only [Session.view, Option.bind_some, hl]
  exact ((h.withTop hlt).capture_eq).trans withTop_image

@[simp] theorem mutate_withTop (key : RowKey) (value : Write Bytes) :
    Session.mutate (some id) key value (s.withTop id values) =
      (.ok (), s.withTop id (values.insert key value)) := by
  have ht : (s.withTop id values).layers.getLast? =
      some ⟨values, false, false, false, id⟩ := by simp [withTop]
  simp only [Session.mutate, ht, ownsTop_withTop]
  simp [withTop]

/-- A layer after a sequence of writes. -/
def writeAll (values : Overlay) (writes : List (RowKey × Write Bytes)) : Overlay :=
  writes.foldl (fun values w => values.insert w.1 w.2) values

theorem mutateAll_withTop (writes : List (RowKey × Write Bytes)) :
    Session.mutateAll (some id) writes (s.withTop id values) =
      (.ok (), s.withTop id (writeAll values writes)) := by
  unfold Session.mutateAll
  induction writes generalizing values with
  | nil => rfl
  | cons w writes ih =>
    show (Session.mutate (some id) w.1 w.2 >>= fun _ => _) _ = _
    rw [Prog.bind_of_ok (mutate_withTop w.1 w.2)]
    exact ih

/-! ## The history -/

theorem rewindCheckpoint_of_active (h : s.active ≠ 0) (expected : CheckpointIdentity) :
    rewindCheckpoint expected s = (.error (.activeSessions s.active), s) := by
  simp [rewindCheckpoint, h]

theorem Quiescent.rewindCheckpoint (h : s.Quiescent) (expected : CheckpointIdentity) :
    (rewindCheckpoint expected s).2.Quiescent := by
  unfold Sessions.rewindCheckpoint
  repeat' split
  all_goals try exact h
  exact ⟨⟨fun l hl => h.kept l (List.mem_of_mem_dropLast hl),
    fun l hl => h.fresh l (List.mem_of_mem_dropLast hl), h.enabled⟩,
    fun l hl => h.committed l (List.mem_of_mem_dropLast hl), h.active, h.pendingOuter⟩

theorem Quiescent.commitTop (h : s.Quiescent) (hlt : id < s.nextId) (point : CursorPoint) :
    (s.commitTop id values point).Quiescent where
  kept := by
    intro l hl
    rcases List.mem_append.mp hl with hl | hl
    · exact h.kept l hl
    · rw [List.mem_singleton.mp hl]
      exact ⟨rfl, rfl⟩
  fresh := by
    intro l hl
    rcases List.mem_append.mp hl with hl | hl
    · exact h.fresh l hl
    · rw [List.mem_singleton.mp hl]
      exact hlt
  enabled := h.enabled
  committed := by
    intro l hl
    rcases List.mem_append.mp hl with hl | hl
    · exact h.committed l hl
    · rw [List.mem_singleton.mp hl]
  active := h.active
  pendingOuter := h.pendingOuter

@[simp] theorem commitTop_image {point : CursorPoint} :
    (s.commitTop id values point).image = FMap.overlay s.image values := by
  simp [Sessions.commitTop, image, List.foldl_append]

end Sessions

end RustTron.State
