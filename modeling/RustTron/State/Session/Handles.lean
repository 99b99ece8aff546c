import RustTron.State.Session

/-!
# Session handles

A `Session` of the source is a handle: it names a layer of the manager and remembers whether it was
finalized. Handles outlive the layers they name, and they may be called in any order, so a run is
the manager with every handle ever created. A pending session is the place of its outer handle
among them. Ids are taken from a counter of 64 bits that wraps to one.

## Main definitions

* `SessionHandle`, and `finish`, `commitWithCheckpoint`, `close`, `drop` on it
* `Sessions.resetPendingOuter`: `SessionManager::reset_pending_outer`
* `SessionRun`, `SessionCall`, `SessionRun.call`: the calls on the handles of one manager
* `SessionRun.Reached ok root r`: `r` is reached by calls that meet `ok`
* `Covered`: every abandoned layer has an active layer above it

## Main results

* `SessionRun.Inv.call`: what every call keeps
* `SessionRun.accounting`: the layers that `active` counts, over every run
-/

namespace RustTron.State

/-- `Session`: the layer it names, and whether it is finalized. -/
structure SessionHandle where
  id : Session
  finalized : Bool

namespace SessionHandle

/-- `self.finalized = true`. -/
def finalize (h : SessionHandle) : SessionHandle := { h with finalized := true }

/-- A finalizer that found the layer of its handle: the handle is finalized when it returned. -/
def settle (h : SessionHandle) (outcome : Except SessionError Unit × Sessions) :
    Except SessionError Unit × SessionHandle × Sessions :=
  match outcome with
  | (.ok (), s) => (.ok (), h.finalize, s)
  | (.error e, s) => (.error e, h, s)

/-- The start of every finalizer: a finalized handle does nothing, and a handle without a layer is
finalized. -/
def withLayer (h : SessionHandle) (s : Sessions)
    (f : Session → List OverlayLayer → Except SessionError Unit × SessionHandle × Sessions) :
    Except SessionError Unit × SessionHandle × Sessions :=
  if h.finalized then (.ok (), h, s)
  else
    match h.id with
    | none => (.ok (), h.finalize, s)
    | some id =>
      match locate id s.layers with
      | none => (.error .invalidSession, h.finalize, s)
      | some (_, _, above) => f (some id) above

def finish (how : Finish) (h : SessionHandle) (s : Sessions) :
    Except SessionError Unit × SessionHandle × Sessions :=
  h.withLayer s fun session _ => h.settle (Session.finish how session s)

def commitWithCheckpoint (point : CursorPoint) (h : SessionHandle) (s : Sessions) :
    Except SessionError Unit × SessionHandle × Sessions :=
  h.withLayer s fun session _ => h.settle (Session.commitWithCheckpoint session point s)

/-- `Session::close`. A layer under an active one is abandoned, and its handle finalized, before
the error is returned. -/
def close (h : SessionHandle) (s : Sessions) :
    Except SessionError Unit × SessionHandle × Sessions :=
  h.withLayer s fun session above =>
    if above.any OverlayLayer.isActive then
      match Session.close session s with
      | (.error .noActiveSession, s') => (.error .noActiveSession, h, s')
      | (result, s') => (result, h.finalize, s')
    else h.finish .revoke s

/-- `Drop for Session`. A dropped handle takes no further calls. -/
def drop (h : SessionHandle) (s : Sessions) :
    Except SessionError Unit × SessionHandle × Sessions :=
  match h.close s with
  | (_, h', s') => (.ok (), h'.finalize, s')

end SessionHandle

namespace Sessions

/-- `next_id.wrapping_add(1).max(1)`, of an id that was already counted up. -/
def wrapNextId (s : Sessions) : Sessions := { s with nextId := max 1 (s.nextId % 2 ^ 64) }

/-- `SessionManager::reset_pending_outer`, and the id it gives the outer handle. -/
def resetPendingOuter (outer : SessionHandle) : SessionM Session := do
  match outer.id with
  | none => throw .invalidSession
  | some id =>
    let s ← get
    if outer.finalized || s.pendingOuter ≠ some id then throw .invalidSession
    else
      match locate id s.layers with
      | none => throw .invalidSession
      | some (below, layer, above) =>
        if layer.committed || layer.abandoned then throw .invalidSession
        else if above.any OverlayLayer.isActive then throw (.activeSessions s.active)
        else
          let discarded := layer :: above
          set { s with layers := below }
          subActive (discarded.filter OverlayLayer.isActive).length
          modify fun s => { s with
            layers := s.layers ++ [{
              values := ∅
              committed := false
              abandoned := false
              disableOnExit := discarded.any OverlayLayer.disableOnExit
              id := s.nextId }]
            active := s.active + 1
            nextId := s.nextId + 1
            pendingOuter := some s.nextId }
          pure (some s.nextId)

end Sessions

/-! ## Runs -/

/-- A manager with the handles ever created. A pending session is the place of its outer handle,
or `none` once it was taken. -/
structure SessionRun where
  manager : Sessions
  handles : List SessionHandle
  pending : List (Option Nat)

/-- The calls on a manager, its handles and its pending sessions. -/
inductive SessionCall where
  | enable
  | disable
  | buildSession
  | buildSessionEnabled
  | child (handle : Nat)
  | finish (how : Finish) (handle : Nat)
  | commitWithCheckpoint (point : CursorPoint) (handle : Nat)
  | close (handle : Nat)
  | drop (handle : Nat)
  | pendingNew
  | pendingChild (session : Nat)
  | pendingReset (session : Nat)
  | pendingCommit (session : Nat)
  | pendingClose (session : Nat)
  | pendingDrop (session : Nat)

namespace SessionRun

/-- `SessionManager::new`. -/
def start (root : StateStore) : SessionRun := ⟨Sessions.new root, [], []⟩

/-- A call that creates a handle. -/
def opening (build : SessionM Session) : Prog SessionRun SessionError Unit := fun r =>
  match build r.manager with
  | (.ok id, s) =>
    (.ok (), { r with manager := s.wrapNextId, handles := r.handles ++ [⟨id, false⟩] })
  | (.error e, s) => (.error e, { r with manager := s })

/-- A call on the handle `i`. -/
def onHandle (i : Nat)
    (op : SessionHandle → Sessions → Except SessionError Unit × SessionHandle × Sessions) :
    Prog SessionRun SessionError Unit := fun r =>
  match r.handles[i]? with
  | none => (.ok (), r)
  | some h =>
    match op h r.manager with
    | (result, h', s) => (result, { r with manager := s, handles := r.handles.set i h' })

/-- `Session::child` on the handle `i`. -/
def child (i : Nat) : Prog SessionRun SessionError Unit := fun r =>
  match r.handles[i]? with
  | none => (.ok (), r)
  | some h =>
    if h.finalized then (.error .invalidSession, r) else opening (Sessions.buildChild h.id) r

/-- `PendingSession::new`. -/
def pendingNew : Prog SessionRun SessionError Unit := fun r =>
  match opening (some <$> Sessions.buildPendingOuter) r with
  | (.ok (), r') => (.ok (), { r' with pending := r'.pending ++ [some r.handles.length] })
  | (.error e, r') => (.error e, r')

/-- `PendingSession::reset`, of the outer handle `i`. -/
def resetOuter (i : Nat) : Prog SessionRun SessionError Unit := fun r =>
  match r.handles[i]? with
  | none => (.ok (), r)
  | some outer =>
    match Sessions.resetPendingOuter outer r.manager with
    | (.ok id, s) => (.ok (), { r with
        manager := s.wrapNextId
        handles := r.handles.set i { outer with id := id } })
    | (.error e, s) => (.error e, { r with manager := s })

/-- The outer handle of the pending session `p` is finished and taken. -/
def takeOuter (p i : Nat) (how : Finish) : Prog SessionRun SessionError Unit := fun r =>
  match r.handles[i]?.bind SessionHandle.id with
  | none => (.error .invalidSession, r)
  | some id =>
    match onHandle i (SessionHandle.finish how) r with
    | (.ok (), r') => (.ok (), { r' with
        manager := r'.manager.releasePendingOuter id
        pending := r'.pending.set p none })
    | (.error e, r') => (.error e, r')

/-- `Drop for PendingSession`, and of the outer handle that its close has left. -/
def dropOuter (p i : Nat) : Prog SessionRun SessionError Unit := fun r =>
  match onHandle i SessionHandle.drop (takeOuter p i .revoke r).2 with
  | (_, r') => (.ok (), { r' with pending := r'.pending.set p none })

/-- A call on the outer handle of the pending session `p`, and what is returned without one. -/
def onOuter (p : Nat) (absent : Except SessionError Unit)
    (f : Nat → Prog SessionRun SessionError Unit) : Prog SessionRun SessionError Unit := fun r =>
  match r.pending[p]? with
  | some (some i) => f i r
  | _ => (absent, r)

def disable : Prog SessionRun SessionError Unit := fun r =>
  if r.manager.active ≠ 0 then (.error (.activeSessions r.manager.active), r)
  else (.ok (), { r with manager := { r.manager with enabled := false } })

/-- A call on the handles of one manager. -/
def call : SessionCall → Prog SessionRun SessionError Unit
  | .enable => modify fun r => { r with manager := { r.manager with enabled := true } }
  | .disable => disable
  | .buildSession => opening (Sessions.buildRoot false)
  | .buildSessionEnabled => opening Sessions.buildSessionEnabled
  | .child i => child i
  | .finish how i => onHandle i (SessionHandle.finish how)
  | .commitWithCheckpoint point i => onHandle i (SessionHandle.commitWithCheckpoint point)
  | .close i => onHandle i SessionHandle.close
  | .drop i => onHandle i SessionHandle.drop
  | .pendingNew => pendingNew
  | .pendingChild p => onOuter p (.error .invalidSession) child
  | .pendingReset p => onOuter p (.error .invalidSession) resetOuter
  | .pendingCommit p => onOuter p (.error .invalidSession) fun i => takeOuter p i .commit
  | .pendingClose p => onOuter p (.ok ()) fun i => takeOuter p i .revoke
  | .pendingDrop p => onOuter p (.ok ()) (dropOuter p)

end SessionRun

/-! ## What a finalizer does to the layers -/

theorem locate_split {id : Nat} {layers below above : List OverlayLayer} {layer : OverlayLayer}
    (h : locate id layers = some (below, layer, above)) :
    layers = below ++ layer :: above ∧ layer.id = id := by
  induction layers generalizing below with
  | nil => simp [locate] at h
  | cons l layers ih =>
    rw [locate] at h
    split at h
    · next hid =>
      cases h
      exact ⟨rfl, hid⟩
    · obtain ⟨⟨below', layer', above'⟩, hf, heq⟩ := Option.map_eq_some_iff.mp h
      cases heq
      obtain ⟨hl, hid⟩ := ih hf
      exact ⟨congrArg (l :: ·) hl, hid⟩

/-- The number of active layers. -/
def activeCount (layers : List OverlayLayer) : Nat := (layers.filter OverlayLayer.isActive).length

@[simp] theorem activeCount_append (below above : List OverlayLayer) :
    activeCount (below ++ above) = activeCount below + activeCount above := by
  simp [activeCount]

theorem activeCount_cons_active {layer : OverlayLayer} (h : layer.isActive = true)
    (above : List OverlayLayer) : activeCount (layer :: above) = 1 + activeCount above := by
  simp [activeCount, h, Nat.add_comm]

theorem activeCount_cons_inactive {layer : OverlayLayer} (h : layer.isActive = false)
    (above : List OverlayLayer) : activeCount (layer :: above) = activeCount above := by
  simp [activeCount, h]

theorem activeCount_settled {above : List OverlayLayer}
    (h : above.all OverlayLayer.isSettled = true) : activeCount above = 0 := by
  rw [activeCount, List.length_eq_zero_iff, List.filter_eq_nil_iff]
  intro l hl
  have hs := List.all_eq_true.mp h l hl
  simp only [OverlayLayer.isSettled, OverlayLayer.isActive] at hs ⊢
  simp_all

/-- The layers have different ids below the next one, and `active` counts the active ones. -/
structure Sessions.Counted (s : Sessions) : Prop where
  distinct : (s.layers.map OverlayLayer.id).Nodup
  fresh : ∀ l ∈ s.layers, l.id < s.nextId
  active : s.active = activeCount s.layers

namespace Sessions

variable {s : Sessions} {id : Nat} {below above : List OverlayLayer} {layer : OverlayLayer}

theorem subActive_run {count : Nat} (h : count ≤ s.active) :
    subActive count s = (.ok (), { s with active := s.active - count }) := by
  rw [subActive, if_pos h]

/-- Every abandoned layer of the stack goes, with all above it. -/
theorem Counted.sweep (h : s.Counted) (disableOnExit : Bool) :
    ∃ s', sweep disableOnExit s = (.ok (), s') ∧ s'.Counted ∧ s'.nextId = s.nextId ∧
      s'.layers = s.layers.takeWhile fun l => !l.abandoned := by
  have hs : activeCount s.layers =
      activeCount (s.layers.takeWhile fun l => !l.abandoned) +
        activeCount (s.layers.dropWhile fun l => !l.abandoned) := by
    rw [← activeCount_append, List.takeWhile_append_dropWhile]
  have hk := List.takeWhile_sublist (fun l : OverlayLayer => !l.abandoned) (l := s.layers)
  have hle : ((s.layers.dropWhile fun l => !l.abandoned).filter OverlayLayer.isActive).length ≤
      s.active := by
    rw [h.active, hs]
    exact Nat.le_add_left _ _
  have hc : ∀ enabled, Counted { s with
      layers := s.layers.takeWhile fun l => !l.abandoned
      active := s.active - activeCount (s.layers.dropWhile fun l => !l.abandoned)
      enabled := enabled } := by
    intro enabled
    refine ⟨h.distinct.sublist (hk.map _), fun l hl => h.fresh l (hk.subset hl), ?_⟩
    show s.active - _ = activeCount (s.layers.takeWhile fun l => !l.abandoned)
    rw [h.active]
    omega
  rw [Sessions.sweep, Prog.bind_of_ok (Prog.get_run s), Prog.bind_of_ok (Prog.set_run s _),
    Prog.bind_of_ok (subActive_run
      (s := { s with layers := s.layers.takeWhile fun l => !l.abandoned }) hle)]
  split
  · exact ⟨_, rfl, hc false, rfl, rfl⟩
  · exact ⟨_, rfl, hc s.enabled, rfl, rfl⟩

/-- One active layer stops being active. -/
theorem Counted.retire (h : s.Counted) (hla : s.layers = below ++ layer :: above)
    (ha : layer.isActive = true) (layer' : OverlayLayer) (hid : layer'.id = layer.id)
    (hla' : layer'.isActive = false) : 1 ≤ s.active ∧
      Counted { s with layers := below ++ layer' :: above, active := s.active - 1 } := by
  have hc := h.active
  rw [hla, activeCount_append, activeCount_cons_active ha] at hc
  have hi : (below ++ layer' :: above).map OverlayLayer.id = s.layers.map OverlayLayer.id := by
    simp [hla, hid]
  refine ⟨by omega, ⟨by rw [hi]; exact h.distinct, ?_, ?_⟩⟩
  · intro l hl
    obtain ⟨l', hl', heq⟩ := List.mem_map.mp (hi ▸ List.mem_map_of_mem hl)
    rw [← heq]
    exact h.fresh l' hl'
  · show s.active - 1 = activeCount (below ++ layer' :: above)
    rw [activeCount_append, activeCount_cons_inactive hla']
    omega

/-- A layer goes with all above it. -/
theorem Counted.truncate (h : s.Counted) (hla : s.layers = below ++ layer :: above) :
    activeCount (layer :: above) ≤ s.active ∧
      Counted { s with layers := below, active := s.active - activeCount (layer :: above) } := by
  have hc := h.active
  rw [hla, activeCount_append] at hc
  have hs : below.Sublist s.layers := hla ▸ List.sublist_append_left below _
  refine ⟨by omega, ⟨h.distinct.sublist (hs.map _), fun l hl => h.fresh l (hs.subset hl), ?_⟩⟩
  show s.active - _ = activeCount below
  omega

/-- The top layer takes other writes. -/
theorem Counted.rewriteTop (h : s.Counted) (hla : s.layers = below ++ [layer])
    (values : Overlay) :
    Counted { s with layers := below ++ [{ layer with values := values }] } := by
  have hi : (below ++ [{ layer with values := values }]).map OverlayLayer.id =
      s.layers.map OverlayLayer.id := by simp [hla]
  refine ⟨by rw [hi]; exact h.distinct, ?_, ?_⟩
  · intro l hl
    obtain ⟨l', hl', heq⟩ := List.mem_map.mp (hi ▸ List.mem_map_of_mem hl)
    rw [← heq]
    exact h.fresh l' hl'
  · have hc := h.active
    rw [hla, activeCount_append] at hc
    show s.active = activeCount (below ++ [{ layer with values := values }])
    rw [activeCount_append, hc]
    cases hl : layer.isActive with
    | true => rw [activeCount_cons_active hl, activeCount_cons_active (by exact hl)]
    | false => rw [activeCount_cons_inactive hl, activeCount_cons_inactive (by exact hl)]

/-- Each layer of `after` was in `before` with the same standing, or is the one of `id`. -/
def LayersFrom (id : Nat) (before after : List OverlayLayer) : Prop :=
  ∀ l' ∈ after, ∃ l ∈ before, l.id = l'.id ∧ (l'.isActive = l.isActive ∨ l.id = id)

theorem LayersFrom.of_subset {layers layers' : List OverlayLayer} (h : layers' ⊆ layers) :
    LayersFrom id layers layers' := fun l' hl' => ⟨l', h hl', rfl, .inl rfl⟩

theorem LayersFrom.replace (hl : s.layers = below ++ layer :: above) (hid : layer.id = id)
    {layer' : OverlayLayer} (hla' : layer'.id = layer.id) :
    LayersFrom id s.layers (below ++ layer' :: above) := by
  intro l' hl'
  rcases List.mem_append.mp hl' with hl' | hl'
  · exact ⟨l', by simp [hl, hl'], rfl, .inl rfl⟩
  · rcases List.mem_cons.mp hl' with rfl | hl'
    · exact ⟨layer, by simp [hl], hla'.symm, .inr hid⟩
    · exact ⟨l', by simp [hl, hl'], rfl, .inl rfl⟩

/-- The layers are replaced and `active` lowered. -/
theorem lower_run {α : Type} {count : Nat} (h : count ≤ s.active) (layers : List OverlayLayer)
    (f : Unit → SessionM α) :
    ((set { s with layers := layers } : SessionM PUnit) >>= fun _ => subActive count >>= f) s =
      f () { s with layers := layers, active := s.active - count } :=
  (Prog.bind_of_ok (Prog.set_run s _)).trans
    (Prog.bind_of_ok (subActive_run (s := { s with layers := layers }) h))

/-- A finish that ends in the sweep of `t`. -/
theorem Counted.finish_of_sweep {t : Sessions} (h : t.Counted) (hn : t.nextId = s.nextId)
    (hf : LayersFrom id s.layers t.layers) {disableOnExit : Bool} {x : SessionM Unit}
    (hr : x s = Sessions.sweep disableOnExit t) :
    ∃ s', x s = (.ok (), s') ∧ s'.Counted ∧ s'.nextId = s.nextId ∧
      (∀ l ∈ s'.layers, l.abandoned = false) ∧ LayersFrom id s.layers s'.layers := by
  obtain ⟨s', hs, hs', hn', hla⟩ := h.sweep disableOnExit
  refine ⟨s', hr.trans hs, hs', hn'.trans hn, ?_, ?_⟩
  · intro l hl
    rw [hla] at hl
    simpa using List.all_eq_true.mp List.all_takeWhile l hl
  · intro l hl
    rw [hla] at hl
    exact hf l ((List.takeWhile_sublist _).subset hl)

/-- **What `finish` does.** It fails with nothing done, or succeeds; then no layer is abandoned, and
each layer was there before with the same standing, or is the one it finished. -/
theorem Counted.finish (h : s.Counted) (hlo : locate id s.layers = some (below, layer, above))
    (how : Finish) :
    (∃ e, Session.finish how (some id) s = (.error e, s) ∧ e ≠ .noActiveSession) ∨
      ∃ s', Session.finish how (some id) s = (.ok (), s') ∧ s'.Counted ∧ s'.nextId = s.nextId ∧
        (∀ l ∈ s'.layers, l.abandoned = false) ∧ LayersFrom id s.layers s'.layers := by
  obtain ⟨hl, hid⟩ := locate_split hlo
  rw [Session.finish]
  simp only [Prog.bind_of_ok (Prog.get_run s), hlo]
  split
  · exact .inl ⟨_, rfl, by simp⟩
  next hli =>
  have ha : layer.isActive = true := by simpa [OverlayLayer.isActive] using hli
  split
  · exact .inl ⟨_, rfl, by simp⟩
  next hab =>
  -- every way to finish leaves a stack to be swept
  cases how with
  | commit =>
    obtain ⟨ho, hc⟩ := h.retire hl ha
      { layer with committed := true } rfl rfl
    exact .inr (hc.finish_of_sweep (s := s) rfl (LayersFrom.replace hl hid rfl)
      (lower_run ho _ _))
  | merge =>
    have hs : above.all OverlayLayer.isSettled = true := by simpa using hab
    have ho : activeCount (layer :: above) = 1 := by
      rw [activeCount_cons_active ha, activeCount_settled hs]
    rcases List.eq_nil_or_concat' below with rfl | ⟨lower, predecessor, rfl⟩
    · exact .inl ⟨_, rfl, by simp⟩
    · obtain ⟨hle, hc⟩ := h.truncate hl
      rw [ho] at hle hc
      have hm := hc.rewriteTop rfl
        ((layer :: above).foldl (fun values l => l.values ∪ values) predecessor.values)
      have hr := lower_run hle (lower ++ [{ predecessor with
        values := (layer :: above).foldl (fun values l => l.values ∪ values) predecessor.values }])
        fun _ => Sessions.sweep ((layer :: above).any OverlayLayer.disableOnExit)
      refine .inr (hm.finish_of_sweep (s := s) rfl (fun l' hl' => ?_) (Eq.trans ?_ hr))
      · rcases List.mem_append.mp hl' with hl' | hl'
        · exact ⟨l', by simp [hl, hl'], rfl, .inl rfl⟩
        · rw [List.mem_singleton.mp hl']
          exact ⟨predecessor, by simp [hl], rfl, .inl rfl⟩
      · simp
  | revoke =>
    obtain ⟨hle, hc⟩ := h.truncate hl
    refine .inr (hc.finish_of_sweep (s := s) rfl (LayersFrom.of_subset ?_)
      (lower_run hle _ _))
    exact hl ▸ List.subset_append_left below _

/-- What `commit_with_checkpoint` does. -/
theorem Counted.commitWithCheckpoint (h : s.Counted)
    (hlo : locate id s.layers = some (below, layer, above)) (point : CursorPoint) :
    Session.commitWithCheckpoint (some id) point s = (.error .invalidSession, s) ∨
      ∃ s', Session.commitWithCheckpoint (some id) point s = (.ok (), s') ∧ s'.Counted ∧
        s'.nextId = s.nextId ∧ s'.layers = below ++ { layer with committed := true } :: above ∧
        layer.abandoned = false ∧ ∀ l ∈ above, l.abandoned = false := by
  obtain ⟨hla, hid⟩ := locate_split hlo
  rw [Session.commitWithCheckpoint]
  simp only [Prog.bind_of_ok (Prog.get_run s), hlo]
  split
  · exact .inl rfl
  next hca =>
  simp only [Bool.or_eq_true, not_or, Bool.not_eq_true] at hca
  obtain ⟨⟨⟨⟨hco, ha⟩, hab⟩, -⟩, -⟩ := hca
  have hac : layer.isActive = true := by
    simp [OverlayLayer.isActive, hco, ha]
  obtain ⟨ho, hc⟩ := h.retire hla hac
    { layer with committed := true } rfl rfl
  refine .inr ⟨_, lower_run ho _ _, ⟨hc.distinct, hc.fresh, hc.active⟩, rfl,
    rfl, ha, fun l hl => ?_⟩
  have hs : l.isSettled = true := by simpa using List.any_eq_false.mp hab l hl
  rw [OverlayLayer.isSettled, Bool.and_eq_true] at hs
  simpa using hs.2

/-- Closing a layer under an active one abandons it. -/
theorem Counted.abandon (h : s.Counted)
    (hlo : locate id s.layers = some (below, layer, above)) (ha : layer.isActive = true)
    (hab : above.any OverlayLayer.isActive = true) :
    ∃ s', Session.close (some id) s = (.error .invalidSession, s') ∧ s'.Counted ∧
      s'.nextId = s.nextId ∧ s'.layers = below ++ { layer with abandoned := true } :: above := by
  obtain ⟨hl, hid⟩ := locate_split hlo
  obtain ⟨ho, hc⟩ := h.retire hl ha
    { layer with abandoned := true } rfl (by simp [OverlayLayer.isActive])
  refine ⟨_, ?_, hc, rfl, rfl⟩
  rw [Session.close]
  simp only [Prog.bind_of_ok (Prog.get_run s), hlo, hab, if_true]
  exact lower_run ho _ _

end Sessions

/-! ## What a handle does -/

namespace SessionHandle

variable {h : SessionHandle} {s : Sessions}

/-- The layer that a handle may still finalize. -/
def live (h : SessionHandle) : Session := if h.finalized then none else h.id

theorem live_of_finalized (hf : h.finalized = true) : h.live = none := if_pos hf

/-- What a finalizer of the handle `h` may do to the manager `s` and to itself. -/
structure Finalizes (h : SessionHandle) (s : Sessions)
    (outcome : Except SessionError Unit × SessionHandle × Sessions) : Prop where
  error : outcome.1 ≠ .error .noActiveSession
  id : outcome.2.1.id = h.id
  finalized : h.finalized = true → outcome.2.1.finalized = true
  counted : outcome.2.2.Counted
  nextId : outcome.2.2.nextId = s.nextId
  layers : ∀ l' ∈ outcome.2.2.layers, ∃ l ∈ s.layers, l.id = l'.id ∧
    (l'.isActive = l.isActive ∨ outcome.2.1.finalized = true ∧ h.live = some l.id)

theorem Finalizes.unchanged (hs : s.Counted) {result : Except SessionError Unit}
    (he : result ≠ .error .noActiveSession) : Finalizes h s (result, h, s) :=
  ⟨he, rfl, fun hf => hf, hs, rfl, fun l hl => ⟨l, hl, rfl, .inl rfl⟩⟩

theorem Finalizes.finalize {result result' : Except SessionError Unit} {h' : SessionHandle}
    {s' : Sessions} (hf : Finalizes h s (result, h', s'))
    (he : result' ≠ .error .noActiveSession) : Finalizes h s (result', h'.finalize, s') where
  error := he
  id := hf.id
  finalized := fun _ => rfl
  counted := hf.counted
  nextId := hf.nextId
  layers := fun l' hl' => by
    obtain ⟨l, hl, hid, hs⟩ := hf.layers l' hl'
    exact ⟨l, hl, hid, hs.imp_right fun hid => ⟨rfl, hid.2⟩⟩

/-- A finalizer that finalized its handle. -/
theorem Finalizes.of_layersFrom {id : Nat} (hli : h.live = some id) {s' : Sessions}
    (hs' : s'.Counted) (hn : s'.nextId = s.nextId)
    (hf : Sessions.LayersFrom id s.layers s'.layers) {result : Except SessionError Unit}
    (he : result ≠ .error .noActiveSession) : Finalizes h s (result, h.finalize, s') := by
  refine ⟨he, rfl, fun _ => rfl, hs', hn, fun l' hl' => ?_⟩
  obtain ⟨l, hl, heq, hs⟩ := hf l' hl'
  exact ⟨l, hl, heq, hs.imp_right fun h => ⟨rfl, hli.trans (congrArg some h.symm)⟩⟩

/-- What holds of a finalizer: of a handle that does nothing, and of its part on the layer. -/
theorem withLayer_rule {P : Except SessionError Unit × SessionHandle × Sessions → Prop}
    {f : Session → List OverlayLayer → Except SessionError Unit × SessionHandle × Sessions}
    (hi : ∀ h' result, h' = h ∨ h' = h.finalize → result ≠ .error .noActiveSession →
      P (result, h', s))
    (hf : ∀ id below layer above, h.live = some id →
      locate id s.layers = some (below, layer, above) → P (f (some id) above)) :
    P (h.withLayer s f) := by
  rw [withLayer]
  split
  · exact hi h _ (.inl rfl) (by simp)
  next hfi =>
  split
  · exact hi _ _ (.inr rfl) (by simp)
  next id hid =>
  split
  · exact hi _ _ (.inr rfl) (by simp)
  next below layer above hl =>
  exact hf id below layer above (by rw [live, if_neg hfi, hid]) hl

theorem withLayer_finalizes (hs : s.Counted)
    {f : Session → List OverlayLayer → Except SessionError Unit × SessionHandle × Sessions}
    (hf : ∀ id below layer above, h.live = some id →
      locate id s.layers = some (below, layer, above) → Finalizes h s (f (some id) above)) :
    Finalizes h s (h.withLayer s f) := by
  refine withLayer_rule (fun h' result hh' he => ?_) hf
  have hsa : Finalizes h s (result, h, s) := Finalizes.unchanged hs he
  rcases hh' with rfl | rfl
  · exact hsa
  · exact hsa.finalize he

theorem finish_finalizes (hs : s.Counted) (how : Finish) : Finalizes h s (h.finish how s) := by
  refine withLayer_finalizes hs fun id below layer above hl hlo => ?_
  rcases hs.finish hlo how with ⟨e, hr, he⟩ | ⟨s', hr, hs', hn, _, hf⟩
  · rw [hr]
    exact Finalizes.unchanged hs (by simpa using he)
  · rw [hr]
    exact Finalizes.of_layersFrom hl hs' hn hf (by simp)

theorem commitWithCheckpoint_finalizes (hs : s.Counted) (point : CursorPoint) :
    Finalizes h s (h.commitWithCheckpoint point s) := by
  refine withLayer_finalizes hs fun id below layer above hli hlo => ?_
  obtain ⟨hl, hla⟩ := locate_split hlo
  rcases hs.commitWithCheckpoint hlo point with hr | ⟨s', hr, hs', hn, hl', -, -⟩
  · rw [hr]
    exact Finalizes.unchanged hs (by simp)
  · rw [hr]
    refine Finalizes.of_layersFrom hli hs' hn ?_ (by simp)
    rw [hl']
    exact Sessions.LayersFrom.replace hl hla rfl

theorem close_finalizes (hs : s.Counted)
    (ho : ∀ l ∈ s.layers, h.live = some l.id → l.isActive = true) :
    Finalizes h s (h.close s) := by
  refine withLayer_finalizes hs fun id below layer above hli hlo => ?_
  obtain ⟨hl, hla⟩ := locate_split hlo
  split
  · next hab =>
    have ha : layer.isActive = true :=
      ho layer (by simp [hl]) (hli.trans (congrArg some hla.symm))
    obtain ⟨s', hr, hs', hn, hl'⟩ := hs.abandon hlo ha hab
    rw [hr]
    refine Finalizes.of_layersFrom hli hs' hn ?_ (by simp)
    rw [hl']
    exact Sessions.LayersFrom.replace hl hla rfl
  · exact finish_finalizes hs .revoke

theorem drop_finalizes (hs : s.Counted)
    (ho : ∀ l ∈ s.layers, h.live = some l.id → l.isActive = true) :
    Finalizes h s (h.drop s) :=
  (close_finalizes hs ho).finalize (by simp)

end SessionHandle

/-! ## What a call does -/

namespace Sessions

variable {s : Sessions}

/-- A call that may open a layer: it fails, or gives a handle without a layer, with nothing done; or
the handle of a new layer on top. -/
def Opens (s : Sessions) (outcome : Except SessionError Session × Sessions) : Prop :=
  (∃ result, outcome = (result, s) ∧ result ≠ .error .noActiveSession ∧
    ∀ id, result = .ok id → id = none) ∨
  ∃ temporarilyEnable pendingOuter, outcome =
    (.ok (some s.nextId), { s.pushLayer temporarilyEnable with pendingOuter := pendingOuter })

theorem Opens.unchanged {result : Except SessionError Session}
    (he : result ≠ .error .noActiveSession) (hn : ∀ id, result = .ok id → id = none) :
    Opens s (result, s) := .inl ⟨result, rfl, he, hn⟩

theorem buildRoot_opens (temporarilyEnable : Bool) : Opens s (buildRoot temporarilyEnable s) := by
  rw [buildRoot]
  split
  · exact Opens.unchanged (by simp) (by simp)
  · split
    · exact Opens.unchanged (by simp) (by simp)
    · exact .inr ⟨temporarilyEnable, s.pendingOuter, rfl⟩

theorem buildChild_opens (parent : Session) : Opens s (buildChild parent s) := by
  unfold buildChild
  split
  · split
    · exact Opens.unchanged (by simp) (by simp)
    · exact .inr ⟨true, s.pendingOuter, rfl⟩
  · exact Opens.unchanged (by simp) (by simp)

theorem buildPendingOuter_opens : Opens s ((some <$> buildPendingOuter : SessionM Session) s) := by
  show Opens s ((buildPendingOuter >>= fun id => pure (some id)) s)
  by_cases hh : s.pendingOuter.isSome = true
  · rw [Prog.bind_of_error (by rw [buildPendingOuter, if_pos hh])]
    exact Opens.unchanged (by simp) (by simp)
  · by_cases ha : s.active ≠ 0
    · rw [Prog.bind_of_error (by rw [buildPendingOuter, if_neg hh, if_pos ha])]
      exact Opens.unchanged (by simp) (by simp)
    · rw [Prog.bind_of_ok (by rw [buildPendingOuter, if_neg hh, if_neg ha])]
      exact .inr ⟨true, some s.nextId, rfl⟩

theorem wrapNextId_eq (hp : 1 ≤ s.nextId) (hlt : s.nextId < 2 ^ 64) : s.wrapNextId = s := by
  rw [wrapNextId, Nat.mod_eq_of_lt hlt, Nat.max_eq_right hp]

/-- A fresh layer on top. -/
theorem Counted.push (h : s.Counted) {layer : OverlayLayer} (hid : layer.id = s.nextId)
    (ha : layer.isActive = true) {s' : Sessions} (hla : s'.layers = s.layers ++ [layer])
    (hc : s'.active = s.active + 1) (hn : s'.nextId = s.nextId + 1) : s'.Counted where
  distinct := by
    rw [hla, List.map_append, List.nodup_append']
    refine ⟨h.distinct, by simp, fun id hm hm' => ?_⟩
    obtain ⟨l, hl, rfl⟩ := List.mem_map.mp hm
    have := h.fresh l hl
    simp only [List.map_cons, List.map_nil, List.mem_singleton, hid] at hm'
    omega
  fresh := by
    intro l hl
    rw [hn]
    rcases List.mem_append.mp (hla ▸ hl) with hl | hl
    · exact Nat.lt_succ_of_lt (h.fresh l hl)
    · rw [List.mem_singleton.mp hl, hid]
      exact Nat.lt_succ_self _
  active := by
    rw [hc, hla, activeCount_append, activeCount_cons_active ha, h.active]
    rfl

/-- **What `reset_pending_outer` does.** The outer layer goes with all above it, and a fresh one
comes in its place. -/
theorem Counted.resetPendingOuter (h : s.Counted) (outer : SessionHandle) :
    (∃ e, resetPendingOuter outer s = (.error e, s) ∧ e ≠ .noActiveSession) ∨
      ∃ s' below layer, resetPendingOuter outer s = (.ok (some s.nextId), s') ∧ s'.Counted ∧
        s'.nextId = s.nextId + 1 ∧ below ⊆ s.layers ∧ s'.layers = below ++ [layer] ∧
        layer.id = s.nextId ∧ layer.isActive = true ∧ outer.finalized = false := by
  unfold Sessions.resetPendingOuter
  cases outer.id with
  | none => exact .inl ⟨_, rfl, by simp⟩
  | some id =>
  simp only [Prog.bind_of_ok (Prog.get_run s)]
  split
  · exact .inl ⟨_, rfl, by simp⟩
  next hh =>
  rcases hlo : locate id s.layers with _ | ⟨below, layer, above⟩
  · exact .inl ⟨_, rfl, by simp⟩
  dsimp only
  split
  · exact .inl ⟨_, rfl, by simp⟩
  split
  · exact .inl ⟨_, rfl, by simp⟩
  obtain ⟨hl, -⟩ := locate_split hlo
  obtain ⟨hle, hc⟩ := h.truncate hl
  refine .inr ⟨_, below, _, lower_run hle _ _, ?_, rfl, ?_, rfl, rfl, rfl, ?_⟩
  · exact hc.push rfl rfl rfl rfl rfl
  · exact hl ▸ List.subset_append_left below _
  · simp only [Bool.or_eq_true, not_or, Bool.not_eq_true] at hh
    exact hh.1

end Sessions

namespace SessionRun

open SessionHandle (Finalizes)

variable {r : SessionRun} {i : Nat}

/-- What every call keeps: a handle that is not finalized names no layer, or an active one of its
own. -/
structure Inv (r : SessionRun) : Prop where
  counted : r.manager.Counted
  positive : 1 ≤ r.manager.nextId
  bounded : r.manager.nextId < 2 ^ 64
  named : ∀ (i : Nat) (h : SessionHandle) (id : Nat), r.handles[i]? = some h → h.live = some id →
    id < r.manager.nextId
  owned : ∀ (i : Nat) (h : SessionHandle), r.handles[i]? = some h → ∀ l ∈ r.manager.layers,
    h.live = some l.id → l.isActive = true
  unique : ∀ (i j : Nat) (h h' : SessionHandle) (id : Nat), r.handles[i]? = some h →
    r.handles[j]? = some h' → h.live = some id → h'.live = some id → i = j

theorem Inv.start (root : StateStore) : (start root).Inv where
  counted := ⟨List.nodup_nil, by simp [SessionRun.start, Sessions.new], rfl⟩
  positive := Nat.le_refl 1
  bounded := by
    show 1 < 2 ^ 64
    omega
  named := by simp [SessionRun.start]
  owned := by simp [SessionRun.start]
  unique := by simp [SessionRun.start]

/-- The invariant speaks of the layers, their count, the next id and the handles. -/
theorem Inv.congr (h : r.Inv) {r' : SessionRun} (hl : r'.manager.layers = r.manager.layers)
    (ha : r'.manager.active = r.manager.active)
    (hn : r'.manager.nextId = r.manager.nextId) (hh : r'.handles = r.handles) :
    r'.Inv where
  counted := by
    refine ⟨?_, ?_, ?_⟩ <;> rw [hl]
    · exact h.counted.distinct
    · exact hn ▸ h.counted.fresh
    · exact ha.trans h.counted.active
  positive := hn ▸ h.positive
  bounded := hn ▸ h.bounded
  named := by
    rw [hn, hh]
    exact h.named
  owned := by
    rw [hl, hh]
    exact h.owned
  unique := by
    rw [hh]
    exact h.unique

/-- The handle at `i` is replaced by one that is live on no other layer than before. -/
theorem live_of_set {h h' k : SessionHandle} {j id : Nat} (hi : r.handles[i]? = some h)
    (hl : ∀ id, h'.live = some id → h.live = some id)
    (hj : (r.handles.set i h')[j]? = some k) (hk : k.live = some id) :
    ∃ k', r.handles[j]? = some k' ∧ k'.live = some id ∧ (j = i → k = h' ∧ k' = h) := by
  rw [List.getElem?_set] at hj
  split at hj
  · next heq =>
    subst heq
    split at hj
    · cases hj
      exact ⟨h, hi, hl id hk, fun _ => ⟨rfl, rfl⟩⟩
    · cases hj
  · next hne => exact ⟨k, hj, hk, fun heq => absurd heq.symm hne⟩

theorem Finalizes.live {h : SessionHandle} {s : Sessions}
    {outcome : Except SessionError Unit × SessionHandle × Sessions}
    (hfi : Finalizes h s outcome) (id : Nat) (hl : outcome.2.1.live = some id) :
    h.live = some id := by
  rw [SessionHandle.live] at hl ⊢
  split at hl
  · cases hl
  · next hf =>
    rw [if_neg fun h => hf (hfi.finalized h), ← hfi.id]
    exact hl

/-- **A finalizer on a handle** keeps the invariant. -/
theorem Inv.onHandle (hr : r.Inv)
    {op : SessionHandle → Sessions → Except SessionError Unit × SessionHandle × Sessions}
    (hop : ∀ h, r.handles[i]? = some h → Finalizes h r.manager (op h r.manager)) :
    (onHandle i op r).2.Inv ∧ (onHandle i op r).1 ≠ .error .noActiveSession := by
  rw [SessionRun.onHandle]
  split
  · exact ⟨hr, by simp⟩
  next h hi =>
  have hf := hop h hi
  revert hf
  rcases op h r.manager with ⟨result, h', s⟩
  intro hf
  have hli := Finalizes.live hf
  refine ⟨⟨hf.counted, hf.nextId ▸ hr.positive, hf.nextId ▸ hr.bounded, ?_, ?_, ?_⟩,
    hf.error⟩
  · intro j k id hj hk
    obtain ⟨k', hj', hk', -⟩ := live_of_set hi hli hj hk
    rw [hf.nextId]
    exact hr.named j k' id hj' hk'
  · intro j k hj l' hl' hk
    obtain ⟨k', hj', hk', hsa⟩ := live_of_set hi hli hj hk
    obtain ⟨l, hl, hid, hs | ⟨hfi, ho⟩⟩ := hf.layers l' hl'
    · rw [hs]
      exact hr.owned j k' hj' l hl (hid ▸ hk')
    -- the layer is the one of the finalized handle, and nobody else's
    · have heq := hr.unique j i k' h l.id hj' hi (hid ▸ hk') ho
      rw [(hsa heq).1, SessionHandle.live_of_finalized hfi] at hk
      cases hk
  · intro j j' k k' id hj hj' hk hk'
    obtain ⟨m, hm, hml, -⟩ := live_of_set hi hli hj hk
    obtain ⟨m', hm', hml', -⟩ := live_of_set hi hli hj' hk'
    exact hr.unique j j' m m' id hm hm' hml hml'

/-- A fresh layer, and the handle `i` that names it. -/
theorem Inv.grant (hr : r.Inv) {s : Sessions} {layer : OverlayLayer} {below : List OverlayLayer}
    {handles : List SessionHandle} (outer : SessionHandle)
    (hc : s.Counted) (hn : s.nextId = r.manager.nextId + 1)
    (hlt : r.manager.nextId + 1 < 2 ^ 64) (hb : below ⊆ r.manager.layers)
    (hla : s.layers = below ++ [layer]) (ha : layer.isActive = true)
    (hli : outer.live = some r.manager.nextId)
    (hh : ∀ (j : Nat) (k : SessionHandle), handles[j]? = some k →
      j = i ∧ k = outer ∨ j ≠ i ∧ r.handles[j]? = some k) (pending : List (Option Nat)) :
    Inv ⟨s, handles, pending⟩ where
  counted := hc
  positive := by
    show 1 ≤ s.nextId
    omega
  bounded := by
    show s.nextId < 2 ^ 64
    omega
  named := by
    intro j k id hj hk
    show id < s.nextId
    rcases hh j k hj with ⟨-, rfl⟩ | ⟨-, hj⟩
    · rw [hli, Option.some.injEq] at hk
      omega
    · have := hr.named j k id hj hk
      omega
  owned := by
    intro j k hj l hl hk
    have hl' : l ∈ below ++ [layer] := hla ▸ hl
    rcases List.mem_append.mp hl' with hl | hl
    · have hf := hr.counted.fresh l (hb hl)
      rcases hh j k hj with ⟨-, rfl⟩ | ⟨-, hj⟩
      · rw [hli, Option.some.injEq] at hk
        omega
      · exact hr.owned j k hj l (hb hl) hk
    · rw [List.mem_singleton.mp hl]
      exact ha
  unique := by
    intro j j' k k' id hj hj' hk hk'
    rcases hh j k hj with ⟨rfl, rfl⟩ | ⟨-, hj⟩ <;>
      rcases hh j' k' hj' with ⟨rfl, rfl⟩ | ⟨-, hj'⟩
    · rfl
    · have := hr.named j' k' id hj' hk'
      rw [hli, Option.some.injEq] at hk
      omega
    · have := hr.named j k id hj hk
      rw [hli, Option.some.injEq] at hk'
      omega
    · exact hr.unique j j' k k' id hj hj' hk hk'

/-- A handle without a layer. -/
theorem Inv.idle (hr : r.Inv) : Inv { r with handles := r.handles ++ [⟨none, false⟩] } := by
  have hla : ∀ (j : Nat) (k : SessionHandle) (id : Nat),
      (r.handles ++ [(⟨none, false⟩ : SessionHandle)])[j]? = some k → k.live = some id →
      r.handles[j]? = some k := by
    intro j k id hj hk
    rw [List.getElem?_append] at hj
    split at hj
    · exact hj
    · rw [List.getElem?_singleton] at hj
      split at hj
      · cases hj
        cases hk
      · cases hj
  exact ⟨hr.counted, hr.positive, hr.bounded,
    fun j k id hj hk => hr.named j k id (hla j k id hj hk) hk,
    fun j k hj l hl hk => hr.owned j k (hla j k l.id hj hk) l hl hk,
    fun j j' k k' id hj hj' hk hk' =>
      hr.unique j j' k k' id (hla j k id hj hk) (hla j' k' id hj' hk') hk hk'⟩

/-- **Opening a layer** keeps the invariant, while there is an id left. -/
theorem Inv.opening (hr : r.Inv) (hlt : r.manager.nextId + 1 < 2 ^ 64) {build : SessionM Session}
    (hb : r.manager.Opens (build r.manager)) :
    (opening build r).2.Inv ∧ (opening build r).1 ≠ .error .noActiveSession := by
  rw [SessionRun.opening]
  rcases hb with ⟨result, hru, he, hn⟩ | ⟨enable, outer, hru⟩
  · rw [hru]
    cases result with
    | error e => exact ⟨hr, by simpa using he⟩
    | ok id =>
      dsimp only
      rw [hn id rfl, Sessions.wrapNextId_eq hr.positive hr.bounded]
      exact ⟨hr.idle, by simp⟩
  · rw [hru]
    dsimp only
    rw [Sessions.wrapNextId_eq (Nat.le_add_left _ _) hlt]
    refine ⟨hr.grant (i := r.handles.length) ⟨some r.manager.nextId, false⟩
      (hr.counted.push rfl rfl rfl rfl rfl) rfl hlt (List.Subset.refl _) rfl rfl rfl ?_ _, by simp⟩
    intro j k hj
    rw [List.getElem?_append] at hj
    split at hj
    · next h => exact .inr ⟨Nat.ne_of_lt h, hj⟩
    · rw [List.getElem?_singleton] at hj
      split at hj
      · cases hj
        exact .inl ⟨by omega, rfl⟩
      · cases hj

theorem Inv.child (hr : r.Inv) (hlt : r.manager.nextId + 1 < 2 ^ 64) :
    (child i r).2.Inv ∧ (child i r).1 ≠ .error .noActiveSession := by
  rw [SessionRun.child]
  split
  · exact ⟨hr, by simp⟩
  · split
    · exact ⟨hr, by simp⟩
    · exact hr.opening hlt (Sessions.buildChild_opens _)

theorem Inv.pendingNew (hr : r.Inv) (hlt : r.manager.nextId + 1 < 2 ^ 64) :
    (pendingNew r).2.Inv ∧ (pendingNew r).1 ≠ .error .noActiveSession := by
  have ho := hr.opening hlt Sessions.buildPendingOuter_opens
  rw [SessionRun.pendingNew]
  split
  · next r' hru =>
    rw [hru] at ho
    exact ⟨ho.1.congr rfl rfl rfl rfl, by simp⟩
  · next e r' hru =>
    rw [hru] at ho
    exact ⟨ho.1, by simpa using ho.2⟩

/-- **Replacing the outer layer** keeps the invariant, while there is an id left. -/
theorem Inv.resetOuter (hr : r.Inv) (hlt : r.manager.nextId + 1 < 2 ^ 64) :
    (resetOuter i r).2.Inv ∧ (resetOuter i r).1 ≠ .error .noActiveSession := by
  rw [SessionRun.resetOuter]
  split
  · exact ⟨hr, by simp⟩
  next outer hi =>
  rcases hr.counted.resetPendingOuter outer with ⟨e, hru, he⟩ |
    ⟨s, below, layer, hru, hs, hn, hb, hl, -, ha, hf⟩
  · rw [hru]
    exact ⟨hr, by simpa using he⟩
  · rw [hru]
    dsimp only
    rw [Sessions.wrapNextId_eq (by omega) (by omega)]
    refine ⟨hr.grant (i := i) { outer with id := some r.manager.nextId } hs hn hlt hb
      hl ha ?_ ?_ _, by simp⟩
    · rw [SessionHandle.live, if_neg (by simp [hf])]
    · intro j k hj
      rw [List.getElem?_set] at hj
      split at hj
      · next heq =>
        split at hj
        · cases hj
          exact .inl ⟨heq.symm, rfl⟩
        · cases hj
      · next hne => exact .inr ⟨Ne.symm hne, hj⟩

theorem Inv.release (hr : r.Inv) (id : Nat) (pending : List (Option Nat)) :
    Inv { r with manager := r.manager.releasePendingOuter id, pending := pending } := by
  rw [Sessions.releasePendingOuter]
  split
  · exact hr.congr rfl rfl rfl rfl
  · exact hr.congr rfl rfl rfl rfl

theorem Inv.finish (hr : r.Inv) (how : Finish) :
    (SessionRun.onHandle i (SessionHandle.finish how) r).2.Inv ∧
      (SessionRun.onHandle i (SessionHandle.finish how) r).1 ≠ .error .noActiveSession :=
  hr.onHandle fun _ _ => SessionHandle.finish_finalizes hr.counted how

theorem Inv.drop (hr : r.Inv) : (SessionRun.onHandle i SessionHandle.drop r).2.Inv ∧
    (SessionRun.onHandle i SessionHandle.drop r).1 ≠ .error .noActiveSession :=
  hr.onHandle fun h hi => SessionHandle.drop_finalizes hr.counted (hr.owned i h hi)

theorem Inv.takeOuter (hr : r.Inv) (p : Nat) (how : Finish) :
    (takeOuter p i how r).2.Inv ∧ (takeOuter p i how r).1 ≠ .error .noActiveSession := by
  have hf := hr.finish (i := i) how
  rw [SessionRun.takeOuter]
  split
  · exact ⟨hr, by simp⟩
  next id _ =>
  split
  · next r' hru =>
    rw [hru] at hf
    exact ⟨hf.1.release id _, by simp⟩
  · next e r' hru =>
    rw [hru] at hf
    exact ⟨hf.1, by simpa using hf.2⟩

theorem Inv.disable (hr : r.Inv) :
    (SessionRun.disable r).2.Inv ∧ (SessionRun.disable r).1 ≠ .error .noActiveSession := by
  rw [SessionRun.disable]
  split
  · exact ⟨hr, by simp⟩
  · exact ⟨hr.congr rfl rfl rfl rfl, by simp⟩

theorem Inv.dropOuter (hr : r.Inv) (p : Nat) :
    (dropOuter p i r).2.Inv ∧ (dropOuter p i r).1 ≠ .error .noActiveSession := by
  have hd := (hr.takeOuter (i := i) p .revoke).1.drop (i := i)
  exact ⟨hd.1.congr rfl rfl rfl rfl, by simp [SessionRun.dropOuter]⟩

theorem Inv.onOuter (hr : r.Inv) (p : Nat) {absent : Except SessionError Unit}
    (ha : absent ≠ .error .noActiveSession) {f : Nat → Prog SessionRun SessionError Unit}
    (hf : ∀ i, (f i r).2.Inv ∧ (f i r).1 ≠ .error .noActiveSession) :
    (SessionRun.onOuter p absent f r).2.Inv ∧
      (SessionRun.onOuter p absent f r).1 ≠ .error .noActiveSession := by
  rw [SessionRun.onOuter]
  split
  · exact hf _
  · exact ⟨hr, ha⟩

end SessionRun

/-- A call that may open a layer. -/
def SessionCall.opens : SessionCall → Bool
  | .buildSession | .buildSessionEnabled | .child _ => true
  | .pendingNew | .pendingChild _ | .pendingReset _ => true
  | _ => false

namespace SessionRun

variable {r : SessionRun}

/-- The call takes no id past the last one before the counter wraps. -/
def IdLeft (r : SessionRun) (c : SessionCall) : Prop :=
  c.opens = true → r.manager.nextId + 1 < 2 ^ 64

/-- **Every call** keeps the invariant, and takes no `checked_sub` branch. -/
theorem Inv.call (hr : r.Inv) {c : SessionCall} (hid : r.IdLeft c) :
    (call c r).2.Inv ∧ (call c r).1 ≠ .error .noActiveSession := by
  cases c with
  | enable => exact ⟨hr.congr rfl rfl rfl rfl, by intro h; cases h⟩
  | disable => exact hr.disable
  | buildSession => exact hr.opening (hid rfl) (Sessions.buildRoot_opens false)
  | buildSessionEnabled => exact hr.opening (hid rfl) (Sessions.buildRoot_opens true)
  | child i => exact hr.child (hid rfl)
  | finish how i => exact hr.finish how
  | commitWithCheckpoint point i =>
    exact hr.onHandle fun _ _ => SessionHandle.commitWithCheckpoint_finalizes hr.counted point
  | close i =>
    exact hr.onHandle fun h hi => SessionHandle.close_finalizes hr.counted (hr.owned i h hi)
  | drop i => exact hr.drop
  | pendingNew => exact hr.pendingNew (hid rfl)
  | pendingChild p => exact hr.onOuter p (by simp) fun i => hr.child (hid rfl)
  | pendingReset p => exact hr.onOuter p (by simp) fun i => hr.resetOuter (hid rfl)
  | pendingCommit p => exact hr.onOuter p (by simp) fun i => hr.takeOuter p .commit
  | pendingClose p => exact hr.onOuter p (by simp) fun i => hr.takeOuter p .revoke
  | pendingDrop p => exact hr.onOuter p (by simp) fun i => hr.dropOuter p

end SessionRun

/-! ## Abandoned layers -/

/-- Every abandoned layer has an active layer above it. -/
def Covered : List OverlayLayer → Prop
  | [] => True
  | layer :: above =>
    (layer.abandoned = true → ∃ l ∈ above, l.isActive = true) ∧ Covered above

instance decidableCovered : (layers : List OverlayLayer) → Decidable (Covered layers)
  | [] => inferInstanceAs (Decidable True)
  | _ :: above =>
    have := decidableCovered above
    inferInstanceAs (Decidable (_ ∧ _))

theorem covered_of_kept {layers : List OverlayLayer} (h : ∀ l ∈ layers, l.abandoned = false) :
    Covered layers := by
  induction layers with
  | nil => trivial
  | cons l layers ih =>
    refine ⟨fun ha => ?_, ih fun l' hl' => h l' (List.mem_cons_of_mem _ hl')⟩
    rw [h l List.mem_cons_self] at ha
    cases ha

/-- Layers over a covered stack, of which none is abandoned. -/
theorem Covered.append {below above : List OverlayLayer} (h : Covered below)
    (hab : ∀ l ∈ above, l.abandoned = false) : Covered (below ++ above) := by
  induction below with
  | nil => exact covered_of_kept hab
  | cons l below ih =>
    refine ⟨fun ha => ?_, ih h.2⟩
    obtain ⟨l', hl', hac⟩ := h.1 ha
    exact ⟨l', List.mem_append_left _ hl', hac⟩

/-- A covered stack with an active layer covers all layers under it. -/
theorem Covered.under {above : List OverlayLayer} (h : Covered above)
    (ha : ∃ l ∈ above, l.isActive = true) (below : List OverlayLayer) :
    Covered (below ++ above) := by
  induction below with
  | nil => exact h
  | cons l below ih =>
    obtain ⟨l', hl', ha'⟩ := ha
    exact ⟨fun _ => ⟨l', List.mem_append_right _ hl', ha'⟩, ih⟩

theorem covered_concat {layer : OverlayLayer} (ha : layer.isActive = true)
    (below : List OverlayLayer) : Covered (below ++ [layer]) := by
  have hk : layer.abandoned = false := by
    simp only [OverlayLayer.isActive, Bool.and_eq_true, Bool.not_eq_true'] at ha
    exact ha.2
  exact (covered_of_kept (by simpa using hk)).under ⟨layer, by simp, ha⟩ below

theorem Covered.of_append {below above : List OverlayLayer} (h : Covered (below ++ above)) :
    Covered above := by
  induction below with
  | nil => exact h
  | cons l below ih => exact ih h.2

namespace SessionHandle

variable {h : SessionHandle} {s : Sessions}

theorem finish_covered (hs : s.Counted) (hc : Covered s.layers) (how : Finish) :
    Covered (h.finish how s).2.2.layers := by
  refine withLayer_rule (P := fun outcome => Covered outcome.2.2.layers)
    (fun _ _ _ _ => hc) fun id below layer above _ hl => ?_
  rcases hs.finish hl how with ⟨e, hr, -⟩ | ⟨s', hr, -, -, hk, -⟩
  · rw [hr]
    exact hc
  · rw [hr]
    exact covered_of_kept hk

theorem close_covered (hs : s.Counted)
    (ho : ∀ l ∈ s.layers, h.live = some l.id → l.isActive = true)
    (hc : Covered s.layers) : Covered (h.close s).2.2.layers := by
  refine withLayer_rule (P := fun outcome => Covered outcome.2.2.layers)
    (fun _ _ _ _ => hc) fun id below layer above hli hlo => ?_
  obtain ⟨hla, hlay⟩ := locate_split hlo
  split
  · next ha =>
    have hac : layer.isActive = true :=
      ho layer (by simp [hla]) (hli.trans (congrArg some hlay.symm))
    obtain ⟨s', hr, -, -, hl'⟩ := hs.abandon hlo hac ha
    rw [hr]
    show Covered s'.layers
    have hso : ∃ l ∈ above, l.isActive = true := by simpa using ha
    have ha' : Covered above := (hla ▸ hc).of_append.2
    have hla' : Covered ({ layer with abandoned := true } :: above) := ⟨fun _ => hso, ha'⟩
    rw [hl']
    exact hla'.under (hso.imp fun l hl => ⟨List.mem_cons_of_mem _ hl.1, hl.2⟩) below
  · exact finish_covered hs hc .revoke

/-- A checkpointed commit keeps the layers covered that were covered without its own. -/
theorem commitWithCheckpoint_covered (hs : s.Counted) (hc : Covered s.layers)
    {point : CursorPoint} (hb : ∀ id below layer above, h.live = some id →
      locate id s.layers = some (below, layer, above) → Covered below) :
    Covered (h.commitWithCheckpoint point s).2.2.layers := by
  refine withLayer_rule (P := fun outcome => Covered outcome.2.2.layers)
    (fun _ _ _ _ => hc) fun id below layer above hli hlo => ?_
  rcases hs.commitWithCheckpoint hlo point with hr |
    ⟨s', hr, -, -, hla, hlay, ha⟩
  · rw [hr]
    exact hc
  · rw [hr]
    show Covered s'.layers
    rw [hla]
    refine (hb id below layer above hli hlo).append fun l hl => ?_
    rcases List.mem_cons.mp hl with rfl | hl
    · exact hlay
    · exact ha l hl

end SessionHandle

namespace SessionRun

variable {r : SessionRun} {i : Nat}

theorem opening_covered (hc : Covered r.manager.layers)
    {build : SessionM Session} (hb : r.manager.Opens (build r.manager)) :
    Covered (opening build r).2.manager.layers := by
  rw [opening]
  rcases hb with ⟨result, hr, -, -⟩ | ⟨enable, outer, hr⟩
  · rw [hr]
    cases result with
    | error e => exact hc
    | ok id => exact hc
  · rw [hr]
    exact covered_concat rfl r.manager.layers

theorem onHandle_covered (hc : Covered r.manager.layers)
    {op : SessionHandle → Sessions → Except SessionError Unit × SessionHandle × Sessions}
    (hop : ∀ h, r.handles[i]? = some h → Covered (op h r.manager).2.2.layers) :
    Covered (onHandle i op r).2.manager.layers := by
  rw [onHandle]
  split
  · exact hc
  next h hi => exact hop h hi

theorem child_covered (hc : Covered r.manager.layers) :
    Covered (child i r).2.manager.layers := by
  rw [child]
  split
  · exact hc
  · split
    · exact hc
    · exact opening_covered hc (Sessions.buildChild_opens _)

theorem pendingNew_covered (hc : Covered r.manager.layers) :
    Covered (pendingNew r).2.manager.layers := by
  have ho := opening_covered hc Sessions.buildPendingOuter_opens
  rw [pendingNew]
  split <;>
  · next hr =>
    rw [hr] at ho
    exact ho

theorem resetOuter_covered (hr : r.Inv) (hc : Covered r.manager.layers) :
    Covered (resetOuter i r).2.manager.layers := by
  rw [resetOuter]
  split
  · exact hc
  next outer _ =>
  rcases hr.counted.resetPendingOuter outer with ⟨e, hru, -⟩ |
    ⟨s, below, layer, hru, -, -, -, hl, -, ha, -⟩
  · rw [hru]
    exact hc
  · rw [hru]
    show Covered s.layers
    rw [hl]
    exact covered_concat ha below

theorem releasePendingOuter_layers (s : Sessions) (id : Nat) :
    (s.releasePendingOuter id).layers = s.layers := by
  rw [Sessions.releasePendingOuter]
  split <;> rfl

theorem takeOuter_covered (hr : r.Inv) (hc : Covered r.manager.layers) (p : Nat)
    (how : Finish) : Covered (takeOuter p i how r).2.manager.layers := by
  have hf := onHandle_covered (i := i) hc fun h _ =>
    SessionHandle.finish_covered (h := h) hr.counted hc how
  rw [takeOuter]
  split
  · exact hc
  split
  · next hru =>
    rw [hru] at hf
    rw [releasePendingOuter_layers]
    exact hf
  · next hru =>
    rw [hru] at hf
    exact hf

theorem onOuter_covered (hc : Covered r.manager.layers) (p : Nat)
    {absent : Except SessionError Unit} {f : Nat → Prog SessionRun SessionError Unit}
    (hf : ∀ i, Covered (f i r).2.manager.layers) :
    Covered (onOuter p absent f r).2.manager.layers := by
  rw [onOuter]
  split
  · exact hf _
  · exact hc

theorem dropOuter_covered (hr : r.Inv) (hc : Covered r.manager.layers) (p : Nat) :
    Covered (dropOuter p i r).2.manager.layers := by
  have ht := (hr.takeOuter (i := i) p .revoke).1
  have hl := takeOuter_covered (i := i) hr hc p .revoke
  have hd : Covered (onHandle i SessionHandle.drop
      (takeOuter p i .revoke r).2).2.manager.layers :=
    onHandle_covered hl fun h hi =>
      SessionHandle.close_covered ht.counted (ht.owned i h hi) hl
  exact hd

/-- A checkpointed commit takes no abandoned layer its last active cover. -/
def SparesCover (r : SessionRun) (c : SessionCall) : Prop :=
  ∀ point i, c = .commitWithCheckpoint point i → ∀ h id below layer above,
    r.handles[i]? = some h → h.live = some id →
    locate id r.manager.layers = some (below, layer, above) → Covered below

theorem call_covered (hr : r.Inv) (hc : Covered r.manager.layers) {c : SessionCall}
    (hs : r.SparesCover c) : Covered (call c r).2.manager.layers := by
  cases c with
  | enable => exact hc
  | disable =>
    rw [call, disable]
    split <;> exact hc
  | buildSession => exact opening_covered hc (Sessions.buildRoot_opens false)
  | buildSessionEnabled => exact opening_covered hc (Sessions.buildRoot_opens true)
  | child i => exact child_covered hc
  | finish how i =>
    exact onHandle_covered hc fun h _ =>
      SessionHandle.finish_covered hr.counted hc how
  | commitWithCheckpoint point i =>
    exact onHandle_covered hc fun h hi =>
      SessionHandle.commitWithCheckpoint_covered hr.counted hc
        fun id below layer above => hs point i rfl h id below layer above hi
  | close i =>
    exact onHandle_covered hc fun h hi =>
      SessionHandle.close_covered hr.counted (hr.owned i h hi) hc
  | drop i =>
    exact onHandle_covered hc fun h hi =>
      SessionHandle.close_covered hr.counted (hr.owned i h hi) hc
  | pendingNew => exact pendingNew_covered hc
  | pendingChild p => exact onOuter_covered hc p fun i => child_covered hc
  | pendingReset p => exact onOuter_covered hc p fun i => resetOuter_covered hr hc
  | pendingCommit p =>
    exact onOuter_covered hc p fun i => takeOuter_covered hr hc p .commit
  | pendingClose p =>
    exact onOuter_covered hc p fun i => takeOuter_covered hr hc p .revoke
  | pendingDrop p => exact onOuter_covered hc p fun i => dropOuter_covered hr hc p

/-- The runs of a new manager, by calls that meet `ok`. -/
inductive Reached (ok : SessionRun → SessionCall → Prop) (root : StateStore) : SessionRun → Prop
  | start : Reached ok root (start root)
  | call {r : SessionRun} (before : Reached ok root r) (c : SessionCall) (hok : ok r c) :
    Reached ok root (call c r).2

variable {root : StateStore}

theorem Reached.inv {ok : SessionRun → SessionCall → Prop}
    (hl : ∀ r c, ok r c → r.IdLeft c) (h : Reached ok root r) : r.Inv := by
  induction h with
  | start => exact Inv.start root
  | call before c hok ih => exact (ih.call (hl _ c hok)).1

/-- The accounting of a manager: its active layers, those abandoned, and those left when no layer
is active. -/
structure Accounted (s : Sessions) : Prop where
  active : s.active = (s.layers.filter OverlayLayer.isActive).length
  covered : Covered s.layers
  idle : s.active = 0 → ∀ l ∈ s.layers, l.committed = true ∧ l.abandoned = false

theorem Covered.idle {layers : List OverlayLayer} (h : Covered layers)
    (hi : ∀ l ∈ layers, l.isActive = false) :
    ∀ l ∈ layers, l.committed = true ∧ l.abandoned = false := by
  induction layers with
  | nil => simp
  | cons l layers ih =>
    have hr := ih h.2 fun l' hl' => hi l' (List.mem_cons_of_mem _ hl')
    have hk : l.abandoned = false := by
      by_contra hab
      obtain ⟨l', hl', ha⟩ := h.1 (by simpa using hab)
      rw [hi l' (List.mem_cons_of_mem _ hl')] at ha
      cases ha
    have hl := hi l List.mem_cons_self
    rw [OverlayLayer.isActive, hk] at hl
    intro l' hl'
    rcases List.mem_cons.mp hl' with rfl | hl'
    · exact ⟨by simpa using hl, hk⟩
    · exact hr l' hl'

/-- **Session accounting.** While ids are left, `active` counts the layers that are neither
committed nor abandoned and no call takes a `checked_sub` branch; and where every checkpointed
commit spares the cover of the abandoned layers, each has an active layer above it and none is left
once no layer is active. -/
theorem accounting (root : StateStore) (r : SessionRun) :
    (Reached IdLeft root r →
      r.manager.active = (r.manager.layers.filter OverlayLayer.isActive).length ∧
      ∀ c, r.IdLeft c → (call c r).1 ≠ .error .noActiveSession) ∧
    (Reached (fun r c => r.IdLeft c ∧ r.SparesCover c) root r → Accounted r.manager) := by
  refine ⟨fun h => ?_, fun h => ?_⟩
  · have hr := h.inv fun _ _ hleft => hleft
    exact ⟨hr.counted.active, fun c hleft => (hr.call hleft).2⟩
  · have hr := h.inv fun _ _ hok => hok.1
    have hcovered : Covered r.manager.layers := by
      induction h with
      | start => trivial
      | call before c hok ih =>
        have hbefore := before.inv fun _ _ hok => hok.1
        exact call_covered hbefore (ih hbefore) hok.2
    refine ⟨hr.counted.active, hcovered, fun hidle => Covered.idle hcovered fun l hl => ?_⟩
    have hnone : r.manager.layers.filter OverlayLayer.isActive = [] :=
      List.length_eq_zero_iff.mp (hr.counted.active.symm.trans hidle)
    simpa using List.filter_eq_nil_iff.mp hnone l hl

/-- A manager with no rows and no checkpoint. -/
def emptyStore : StateStore := ⟨∅, none, none, []⟩

/-- The manager after calls. -/
def callAll (calls : List SessionCall) (r : SessionRun) : SessionRun :=
  calls.foldl (fun r c => (call c r).2) r

/-- A session is closed under an open child, and a child of that one is committed with a checkpoint:
the layer of the first is abandoned below an active one. -/
def sparingCalls : List SessionCall :=
  [.buildSession, .child 0, .child 1, .close 0, .commitWithCheckpoint ⟨1, Hash32.zero⟩ 2]

theorem accounting_sparing :
    (callAll sparingCalls (start emptyStore)).manager.layers.map
        (fun l => (l.committed, l.abandoned)) = [(false, true), (false, false), (true, false)] ∧
      Accounted (callAll sparingCalls (start emptyStore)).manager := by
  refine ⟨by decide, (accounting emptyStore _).2 ?_⟩
  have hclosed : Reached (fun r c => r.IdLeft c ∧ r.SparesCover c) emptyStore
      (callAll (sparingCalls.take 4) (start emptyStore)) :=
    (((Reached.start.call .buildSession ⟨fun _ => by decide, nofun⟩).call (.child 0)
      ⟨fun _ => by decide, nofun⟩).call (.child 1) ⟨fun _ => by decide, nofun⟩).call (.close 0)
        ⟨nofun, nofun⟩
  refine hclosed.call (.commitWithCheckpoint ⟨1, Hash32.zero⟩ 2) ⟨nofun, ?_⟩
  -- the committed layer has the abandoned one and its cover below it
  intro point i hc h id below layer above hh hlive hl
  cases hc
  cases hh
  cases hlive
  cases hl
  decide

/-- A session is closed under its open child, and the child is committed with a checkpoint. -/
def strandingCalls : List SessionCall :=
  [.buildSession, .child 0, .close 0, .commitWithCheckpoint ⟨1, Hash32.zero⟩ 1]

/-- The abandoned layer stays, under a committed one and with no layer active. -/
theorem strandingCalls_not_accounted :
    Reached IdLeft emptyStore (callAll strandingCalls (start emptyStore)) ∧
      (callAll strandingCalls (start emptyStore)).manager.active = 0 ∧
      ¬ Covered (callAll strandingCalls (start emptyStore)).manager.layers ∧
      ¬ ∀ l ∈ (callAll strandingCalls (start emptyStore)).manager.layers,
        l.committed = true ∧ l.abandoned = false := by
  refine ⟨?_, by decide, by decide, by decide⟩
  exact (((Reached.start.call .buildSession fun _ => by decide).call (.child 0)
    fun _ => by decide).call (.close 0) nofun).call (.commitWithCheckpoint _ 1) nofun

end SessionRun

end RustTron.State
