import RustTron.State.History

/-!
# Restarts

The durable root holds the state twice: its rows, to which a flush moves the layers, and the last
publication of the layers, which a restart puts over them. A publication goes over rows that no
flush has changed since; a flush leaves the publication as it is, so that a restart may put old
layers over newer rows.

## Main definitions

* `StateStore.publication`: what a restart loads
* `DurableRun.Reached`: the runs of sessions, publications, flushes and restarts over one root

## Main results

* `DurableRun.Inv`, `DurableRun.Reached.inv`: what the root holds, over every run
* `DurableRun.restart_image`: when a restart gives back the image of the last publication or flush
-/

namespace RustTron.State

open CheckpointHistory (Chained)

/-- The publication that a restart loads: a staged one is completed first. -/
def StateStore.publication (root : StateStore) : Option CheckpointState :=
  root.staged.or root.current

/-- The writes of its layers. -/
def StateStore.publishedLayers (root : StateStore) : List Overlay :=
  (root.publication.map fun p => p.layers.map (·.values)).getD []

/-- A publication that can be loaded. -/
structure CheckpointState.Loadable (limits : CheckpointLimits) (p : CheckpointState) : Prop where
  decodes : p.decode limits = .ok p
  distinct : (p.layers.map (·.id)).Nodup
  chained : Chained p.history

theorem Sessions.Idle.loadable {s : Sessions} (h : s.Idle) (hc : Chained s.checkpoint.history)
    {limits : CheckpointLimits} (hf : s.checkpoint.encode limits = .ok s.checkpoint) :
    s.checkpoint.Loadable limits := by
  refine ⟨h.decode_checkpoint hc hf, ?_, hc⟩
  rw [Sessions.checkpoint_ids]
  exact h.distinct

/-! ## Flushes -/

namespace Sessions

variable {s t : Sessions}

/-- **A flush** writes what the head shows to the root, or fails and changes nothing else. -/
theorem Idle.flushCommitted_cases (h : s.Idle) :
    (∃ faults, flushCommitted s = (.ok s.layers.length,
        { s with root := { s.root with rows := s.readView, faults := faults }, layers := [] })) ∨
      ∃ e faults, flushCommitted s = (.error e, { s with root := { s.root with faults := faults } }) := by
  have hc : s.layers.any (fun layer => !layer.committed) = false := by
    rw [List.any_eq_false]
    intro l hl
    have hs := h.settled l hl
    rw [OverlayLayer.isSettled, Bool.and_eq_true] at hs
    simp [hs.1]
  have hm : FMap.overlay s.root.rows
      (s.layers.foldl (fun merged layer => layer.values ∪ merged) (∅ : Overlay)) = s.readView := by
    have hv : s.layers.foldl (fun merged layer => layer.values ∪ merged) (∅ : Overlay) =
        (s.layers.map (·.values)).foldl (fun merged layer => layer ∪ merged) ∅ := by
      rw [List.foldl_map]
    rw [h.readView_eq, under, hv, FMap.over_foldl_union, FMap.over_empty]
  unfold flushCommitted
  rw [Prog.bind_of_ok (Prog.get_run s), if_neg (not_not_intro h.active), hc]
  generalize hva : s.layers.foldl (fun merged layer => layer.values ∪ merged) (∅ : Overlay) = merged
  rw [hva] at hm
  rw [if_neg Bool.false_ne_true]
  by_cases he : merged.entries.card ≠ 0
  · -- the merged rows go out in one batch
    rw [if_pos he]
    dsimp only
    rcases CheckpointStack.commitBatch_cases
      (fun root => { root with rows := FMap.overlay root.rows merged }) s with
      ⟨faults, hb⟩ | ⟨e, faults, hb⟩
    · refine .inl ⟨faults, ?_⟩
      rw [Prog.bind_of_ok (Prog.mapError_of_ok hb)]
      dsimp only
      rw [hm]
      rfl
    · exact .inr ⟨_, faults, Prog.bind_of_error (Prog.mapError_of_error hb)⟩
  · have hr : s.readView = s.root.rows := by
      have hn : merged = ∅ := by
        apply Finmap.ext
        exact Multiset.card_eq_zero.mp (not_not.mp he)
      rw [← hm, hn, FMap.over_empty]
    refine .inl ⟨s.root.faults, ?_⟩
    rw [if_neg he, hr]
    rfl

theorem Idle.flushed (h : s.Idle) (root : StateStore) :
    Idle { s with root := root, layers := [] } :=
  ⟨by simp, List.nodup_nil, by simp, h.active⟩

end Sessions

/-! ## Publications that fail -/

namespace CheckpointStack

variable {s t u : Sessions} {limits : CheckpointLimits}

/-- **A publication that failed** was not staged, or was staged and not completed. -/
theorem persist_eq_error (hst : s.checkpointState = .ok s.checkpoint) {e : CheckpointError}
    (h : persist limits s = (.error e, t)) :
    (∃ faults, t = { s with root := { s.root with faults := faults } }) ∨
      s.checkpoint.encode limits = .ok s.checkpoint ∧ ∃ faults,
        t = { s with root := { s.root with staged := some s.checkpoint, faults := faults } } := by
  rw [persist, Prog.bind_of_ok (Prog.get_run s), hst,
    Prog.bind_of_ok (Prog.ofExcept_ok_run _ _ _)] at h
  unfold publish at h
  split at h
  · cases h
    exact .inl ⟨s.root.faults, rfl⟩
  · dsimp only at h
    cases he : s.checkpoint.encode limits with
    | error e' =>
      rw [he] at h
      cases h
      exact .inl ⟨s.root.faults, rfl⟩
    | ok encoded =>
      have hf := CheckpointState.encode_eq ⟨encoded, he⟩
      obtain rfl : encoded = s.checkpoint := Except.ok.inj (he.symm.trans hf)
      rw [he, Prog.bind_of_ok (Prog.ofExcept_ok_run _ _ _)] at h
      rcases commitBatch_cases (fun root => { root with staged := some s.checkpoint }) s with
        ⟨faults, hs⟩ | ⟨e', faults, hs⟩
      · rw [Prog.bind_of_ok hs] at h
        rcases commitBatch_cases
          (fun root => { root with current := some s.checkpoint, staged := none })
          { s with root := { s.root with staged := some s.checkpoint, faults := faults } } with
          ⟨faults', hc⟩ | ⟨e', faults', hc⟩
        · rw [Prog.bind_of_ok hc] at h
          cases h
        · rw [Prog.bind_of_error hc] at h
          cases h
          exact .inr ⟨rfl, faults', rfl⟩
      · rw [Prog.bind_of_error hs] at h
        cases h
        exact .inl ⟨faults, rfl⟩

/-- The load of a publication that is staged: it is completed first. -/
theorem recoverAndRelink_of_staged {p : CheckpointState} (hs : s.root.staged = some p)
    (hd : p.decode limits = .ok p)
    (hb : commitBatch (fun root => { root with current := some p, staged := none }) s =
      (.ok (), u)) :
    recoverAndRelink limits s = recoverAndRelink limits u := by
  have hst : recoverStore limits s = (.ok true, u) := by
    rw [recoverStore, Prog.bind_of_ok (Prog.get_run s)]
    simp only [hs]
    rw [hd, Prog.bind_of_ok (Prog.ofExcept_ok_run _ _ _), Prog.bind_of_ok hb]
    rfl
  have ha : recoverStore limits u = (.ok false, u) := by
    obtain ⟨faults, rfl⟩ := commitBatch_eq_ok hb
    rfl
  unfold recoverAndRelink
  rw [Prog.bind_of_ok hst, Prog.bind_of_ok ha]

theorem recoverAndRelink_of_staged_error {p : CheckpointState} (hs : s.root.staged = some p)
    (hd : p.decode limits = .ok p) {e : CheckpointError}
    (hb : commitBatch (fun root => { root with current := some p, staged := none }) s =
      (.error e, u)) :
    recoverAndRelink limits s = (.error e, u) := by
  have hst : recoverStore limits s = (.error e, u) := by
    rw [recoverStore, Prog.bind_of_ok (Prog.get_run s)]
    simp only [hs]
    rw [hd, Prog.bind_of_ok (Prog.ofExcept_ok_run _ _ _), Prog.bind_of_error hb]
  unfold recoverAndRelink
  rw [Prog.bind_of_error hst]

theorem recoverAndRelink_of_none (hs : s.root.staged = none) (hc : s.root.current = none) :
    recoverAndRelink limits s = (.ok none, s) := by
  simp only [recoverAndRelink, recoverStore, Prog.bind_run, Prog.get_run, hs, Prog.pure_run,
    hc]

end CheckpointStack

/-! ## Restarts -/

namespace StateStore

variable {root : StateStore} {limits : CheckpointLimits} {saved : Image} {flushed : Bool}

/-- What the root holds, when `saved` was the image of the head at the last publication, or at a
flush since then. -/
structure Holds (limits : CheckpointLimits) (root : StateStore) (saved : Image) (flushed : Bool) :
    Prop where
  staged : ∀ p ∈ root.staged, p.Loadable limits
  current : ∀ p ∈ root.current, p.Loadable limits
  saved : saved = if flushed then root.rows else FMap.overAll root.rows root.publishedLayers

/-- The manager of a process that has started over the root. -/
def loaded (root : StateStore) : Sessions :=
  match root.publication with
  | none => Sessions.new root
  | some p => (Sessions.new root).reloaded p

theorem Holds.withFaults (h : root.Holds limits saved flushed) (faults : List Bool) :
    ({ root with faults := faults } : StateStore).Holds limits saved flushed :=
  ⟨h.staged, h.current, h.saved⟩

theorem Holds.loadable (h : root.Holds limits saved flushed) {p : CheckpointState}
    (hp : root.publication = some p) : p.Loadable limits := by
  rcases Option.or_eq_some_iff.mp hp with hs | ⟨-, hc⟩
  · exact h.staged p hs
  · exact h.current p hc

/-- A staged publication that is completed. -/
theorem Holds.completed (h : root.Holds limits saved flushed) {p : CheckpointState}
    (hp : root.staged = some p) (faults : List Bool) :
    StateStore.Holds limits ⟨root.rows, none, some p, faults⟩ saved flushed := by
  refine ⟨?_, ?_, ?_⟩
  · rintro p' ⟨⟩
  · rintro p' ⟨⟩
    exact h.staged p hp
  · have hs := h.saved
    rwa [publishedLayers, publication, hp] at hs

theorem Holds.loaded (h : root.Holds limits saved flushed) :
    root.loaded.Idle ∧ Chained root.loaded.checkpoint.history ∧
      root.loaded.readView = FMap.overAll root.rows root.publishedLayers := by
  have hi : root.loaded.Idle ∧ Chained root.loaded.checkpoint.history := by
    unfold StateStore.loaded
    cases hp : root.publication with
    | none =>
      exact ⟨⟨by simp [Sessions.new], List.nodup_nil, by simp [Sessions.new], rfl⟩,
        CheckpointHistory.chained_nil⟩
    | some p =>
      have hl := h.loadable hp
      refine ⟨Sessions.Idle.reloaded rfl hl.distinct, ?_⟩
      have hh : ((Sessions.new root).reloaded p).checkpoint.history = p.history := by
        rw [Sessions.checkpoint_history, Sessions.reloaded, List.map_map]
        exact List.map_id _
      rw [hh]
      exact hl.chained
  refine ⟨hi.1, hi.2, ?_⟩
  rw [hi.1.readView_eq, Sessions.under]
  unfold StateStore.loaded publishedLayers
  cases root.publication with
  | none => rfl
  | some p => simp [Sessions.reloaded, Sessions.new, Function.comp_def]

/-- **A restart** loads the publication, unless the batch that completes it fails. -/
theorem Holds.restart (h : root.Holds limits saved flushed) :
    (∃ result, ∃ root' : StateStore, CheckpointStack.recoverAndRelink limits (Sessions.new root) =
        (.ok result, root'.loaded) ∧ root'.Holds limits saved flushed ∧ root'.rows = root.rows ∧
          root'.publication = root.publication) ∨
      true ∈ root.faults ∧ ∃ e t,
        CheckpointStack.recoverAndRelink limits (Sessions.new root) = (.error e, t) := by
  have hco {root : StateStore} (hs : root.staged = none)
      (h : root.Holds limits saved flushed) : ∃ result,
        CheckpointStack.recoverAndRelink limits (Sessions.new root) = (.ok result, root.loaded) := by
    cases hc : root.current with
    | none =>
      rw [StateStore.loaded, publication, hs, hc]
      exact ⟨_, CheckpointStack.recoverAndRelink_of_none hs hc⟩
    | some p =>
      rw [StateStore.loaded, publication, hs, hc]
      exact ⟨_, CheckpointStack.recoverAndRelink_eq rfl hs hc (h.current p hc).decodes⟩
  cases hs : root.staged with
  | none =>
    obtain ⟨result, hru⟩ := hco hs h
    exact .inl ⟨result, root, hru, h, rfl, rfl⟩
  | some p =>
    have hd := (h.staged p hs).decodes
    rcases hb : commitBatch (fun root => { root with current := some p, staged := none })
      (Sessions.new root) with ⟨e | _, u⟩
    · refine .inr ⟨?_, e, u, CheckpointStack.recoverAndRelink_of_staged_error hs hd hb⟩
      by_contra hr
      rw [commitBatch_of_reliable (show (Sessions.new root).root.Reliable from hr)] at hb
      cases hb
    · have hl := CheckpointStack.recoverAndRelink_of_staged hs hd hb
      obtain ⟨faults, rfl⟩ := CheckpointStack.commitBatch_eq_ok hb
      have hh := h.completed hs faults
      obtain ⟨result, hru⟩ := hco rfl hh
      refine .inl ⟨result, _, hl.trans hru, hh, rfl, ?_⟩
      rw [publication, publication, hs]
      rfl

end StateStore

/-! ## Runs -/

/-- A process over a durable root, the image of the head at the last publication or flush, and
whether that was a flush. -/
structure DurableRun where
  manager : Sessions
  saved : Image
  flushed : Bool

namespace DurableRun

/-- The runs over a new root. A publication counts once it is staged, since a restart completes it;
which batches fail is open. A restart that fails leaves nothing but the root, and is tried again. -/
inductive Reached (limits : CheckpointLimits) (root : StateStore) : DurableRun → Prop where
  | start : Reached limits root ⟨Sessions.new root, root.rows, false⟩
  | commit {r} (temporarilyEnable : Bool) (work : Work) : Reached limits root r →
    Reached limits root { r with manager := (commitSession temporarilyEnable work r.manager).2 }
  | block {r} (temporarilyEnable : Bool) (work : Work) (point : CursorPoint) :
    Reached limits root r → Reached limits root
      { r with manager := (blockSession temporarilyEnable work point r.manager).2 }
  | persist {r count t} : Reached limits root r →
    CheckpointStack.persist limits r.manager = (.ok count, t) →
    Reached limits root ⟨t, r.manager.readView, false⟩
  | persistStaged {r e t} : Reached limits root r →
    CheckpointStack.persist limits r.manager = (.error e, t) →
    t.root.staged = some r.manager.checkpoint → Reached limits root ⟨t, r.manager.readView, false⟩
  | persistFailed {r e t} : Reached limits root r →
    CheckpointStack.persist limits r.manager = (.error e, t) →
    t.root.staged = r.manager.root.staged → Reached limits root { r with manager := t }
  | flush {r count t} : Reached limits root r →
    Sessions.flushCommitted r.manager = (.ok count, t) →
    Reached limits root ⟨t, r.manager.readView, true⟩
  | flushFailed {r e t} : Reached limits root r →
    Sessions.flushCommitted r.manager = (.error e, t) → Reached limits root { r with manager := t }
  | flushBounded {r count t} : Reached limits root r →
    CheckpointStack.flushBounded limits r.manager = (.ok count, t) →
    Reached limits root ⟨t, r.manager.readView, true⟩
  | flushBoundedFailed {r e t} : Reached limits root r →
    CheckpointStack.flushBounded limits r.manager = (.error e, t) →
    Reached limits root { r with manager := t }
  | faults {r} (faults : List Bool) : Reached limits root r → Reached limits root
      { r with manager := { r.manager with root := { r.manager.root with faults := faults } } }
  | restart {r result t} : Reached limits root r →
    CheckpointStack.recoverAndRelink limits (Sessions.new r.manager.root) = (.ok result, t) →
    Reached limits root { r with manager := t }

/-- What every run keeps. -/
structure Inv (limits : CheckpointLimits) (r : DurableRun) : Prop where
  idle : r.manager.Idle
  chained : Chained r.manager.checkpoint.history
  holds : r.manager.root.Holds limits r.saved r.flushed

variable {limits : CheckpointLimits} {root : StateStore} {r : DurableRun} {t : Sessions}

theorem Inv.withFaults (h : r.Inv limits) (faults : List Bool) : Inv limits
    { r with manager := { r.manager with root := { r.manager.root with faults := faults } } } :=
  ⟨⟨h.idle.settled, h.idle.distinct, h.idle.fresh, h.idle.active⟩, h.chained,
    h.holds.withFaults faults⟩

theorem Inv.commit (h : r.Inv limits) (temporarilyEnable : Bool) (work : Work) :
    Inv limits { r with manager := (commitSession temporarilyEnable work r.manager).2 } := by
  rcases commitSession_spec h.idle temporarilyEnable work with hr | ⟨top, n, hb, hr⟩
  · rw [hr]
    exact h
  · rw [hr]
    exact ⟨h.idle.withCommitted hb, h.chained, h.holds⟩

theorem Inv.block (h : r.Inv limits) (temporarilyEnable : Bool) (work : Work) (point : CursorPoint) :
    Inv limits { r with manager := (blockSession temporarilyEnable work point r.manager).2 } := by
  rcases blockSession_spec h.idle temporarilyEnable work point with
    ⟨n, enabled, hn, hr⟩ | ⟨top, n, hb, -, hp, hr⟩
  · rw [hr]
    refine ⟨⟨h.idle.settled, h.idle.distinct, ?_, h.idle.active⟩, h.chained, h.holds⟩
    exact fun l hl => (h.idle.fresh l hl).trans_le hn
  · have hi := h.idle.withCommitted hb
    rw [hr]
    exact ⟨⟨hi.settled, hi.distinct, hi.fresh, hi.active⟩,
      Sessions.chained_committed h.chained hp, h.holds⟩

/-- A publication puts what the head shows over the rows of the root. -/
theorem Inv.published (h : r.Inv limits) (root : StateStore)
    (hr : root.rows = r.manager.root.rows)
    (hp : root.publication = some r.manager.checkpoint)
    (hs : ∀ p ∈ root.staged, p.Loadable limits)
    (hc : ∀ p ∈ root.current, p.Loadable limits) :
    Inv limits ⟨{ r.manager with root := root }, r.manager.readView, false⟩ := by
  refine ⟨⟨h.idle.settled, h.idle.distinct, h.idle.fresh, h.idle.active⟩, h.chained,
    hs, hc, ?_⟩
  have hl : root.publishedLayers = r.manager.layers.map (·.values) := by
    rw [StateStore.publishedLayers, hp]
    simp [Sessions.checkpoint, Function.comp_def]
  rw [if_neg Bool.false_ne_true, h.idle.readView_eq, Sessions.under, hl, hr]

theorem Inv.persist (h : r.Inv limits) {count : Nat}
    (hr : CheckpointStack.persist limits r.manager = (.ok count, t)) :
    Inv limits ⟨t, r.manager.readView, false⟩ := by
  obtain ⟨hf, -, faults, rfl⟩ :=
    CheckpointStack.persist_eq_ok_of_state h.idle.checkpointState_eq hr
  apply h.published ⟨r.manager.root.rows, none, some r.manager.checkpoint, faults⟩ rfl rfl
  · rintro p ⟨⟩
  · rintro p ⟨⟩
    exact h.idle.loadable h.chained hf

theorem Inv.persistStaged (h : r.Inv limits) {e : CheckpointError}
    (hr : CheckpointStack.persist limits r.manager = (.error e, t))
    (hs : t.root.staged = some r.manager.checkpoint) :
    Inv limits ⟨t, r.manager.readView, false⟩ := by
  have hp : t.root.publication = some r.manager.checkpoint := by
    rw [StateStore.publication, hs]
    rfl
  rcases CheckpointStack.persist_eq_error h.idle.checkpointState_eq hr with
    ⟨faults, rfl⟩ | ⟨hf, faults, rfl⟩
  · -- an earlier publication of the same layers was staged
    exact h.published { r.manager.root with faults := faults } rfl hp h.holds.staged
      h.holds.current
  · apply h.published
      { r.manager.root with staged := some r.manager.checkpoint, faults := faults } rfl hp
    · rintro p ⟨⟩
      exact h.idle.loadable h.chained hf
    · exact h.holds.current

theorem Inv.persistFailed (h : r.Inv limits) {e : CheckpointError}
    (hr : CheckpointStack.persist limits r.manager = (.error e, t))
    (hs : t.root.staged = r.manager.root.staged) : Inv limits { r with manager := t } := by
  rcases CheckpointStack.persist_eq_error h.idle.checkpointState_eq hr with
    ⟨faults, rfl⟩ | ⟨-, faults, rfl⟩
  · exact h.withFaults faults
  · have hsa : some r.manager.checkpoint = r.manager.root.staged := hs
    rw [hsa]
    exact h.withFaults faults

theorem Inv.flushed (h : r.Inv limits) (faults : List Bool) : Inv limits
    ⟨{ r.manager with
        root := { r.manager.root with rows := r.manager.readView, faults := faults }
        layers := [] }, r.manager.readView, true⟩ :=
  ⟨h.idle.flushed _, h.chained, h.holds.staged, h.holds.current, rfl⟩

theorem Inv.flush (h : r.Inv limits) {count : Nat}
    (hr : Sessions.flushCommitted r.manager = (.ok count, t)) :
    Inv limits ⟨t, r.manager.readView, true⟩ := by
  rcases h.idle.flushCommitted_cases with ⟨faults, hf⟩ | ⟨e, faults, hf⟩ <;>
    cases hr.symm.trans hf
  exact h.flushed faults

theorem Inv.flushFailed (h : r.Inv limits) {e : SessionError}
    (hr : Sessions.flushCommitted r.manager = (.error e, t)) :
    Inv limits { r with manager := t } := by
  rcases h.idle.flushCommitted_cases with ⟨faults, hf⟩ | ⟨e', faults, hf⟩ <;>
    cases hr.symm.trans hf
  exact h.withFaults faults

theorem flushBounded_eq_ok {s : Sessions} {count : Nat}
    (h : CheckpointStack.flushBounded limits s = (.ok count, t)) :
    Sessions.flushCommitted s = (.ok count, t) := by
  unfold CheckpointStack.flushBounded at h
  rw [Prog.bind_of_ok (Prog.get_run s)] at h
  split at h
  · cases h
  · dsimp only at h
    rcases hf : Sessions.flushCommitted s with ⟨e | count', u⟩
    · cases h.symm.trans (Prog.mapError_of_error hf)
    · cases h.symm.trans (Prog.mapError_of_ok hf)
      rfl

theorem flushBounded_eq_error {s : Sessions} {e : CheckpointError}
    (h : CheckpointStack.flushBounded limits s = (.error e, t)) :
    t = s ∨ ∃ e', Sessions.flushCommitted s = (.error e', t) := by
  unfold CheckpointStack.flushBounded at h
  rw [Prog.bind_of_ok (Prog.get_run s)] at h
  split at h
  · cases h
    exact .inl rfl
  · dsimp only at h
    rcases hf : Sessions.flushCommitted s with ⟨e' | count', u⟩
    · cases h.symm.trans (Prog.mapError_of_error hf)
      exact .inr ⟨e', rfl⟩
    · cases h.symm.trans (Prog.mapError_of_ok hf)

theorem Inv.restart (h : r.Inv limits) {result : Option Nat}
    (hru : CheckpointStack.recoverAndRelink limits (Sessions.new r.manager.root) =
      (.ok result, t)) : Inv limits { r with manager := t } := by
  rcases h.holds.restart with ⟨result', root', hl, hh, -, -⟩ | ⟨-, e, u, hl⟩ <;>
    cases hru.symm.trans hl
  obtain ⟨hi, hc, -⟩ := hh.loaded
  have hr : root'.loaded.root = root' := by
    unfold StateStore.loaded
    cases root'.publication <;> rfl
  exact ⟨hi, hc, hr.symm ▸ hh⟩

/-- **Every run** keeps the invariant. -/
theorem Reached.inv (hs : root.staged = none) (hc : root.current = none)
    (h : Reached limits root r) : r.Inv limits := by
  induction h with
  | start =>
    refine ⟨⟨by simp [Sessions.new], List.nodup_nil, by simp [Sessions.new], rfl⟩,
      CheckpointHistory.chained_nil, ?_, ?_, ?_⟩
    · intro p hp
      cases hs.symm.trans hp
    · intro p hp
      cases hc.symm.trans hp
    · have hl : root.publishedLayers = [] := by
        rw [StateStore.publishedLayers, StateStore.publication, hs, hc]
        rfl
      exact (congrArg (FMap.overAll root.rows) hl).symm
  | commit temporarilyEnable work _ ih => exact ih.commit temporarilyEnable work
  | block temporarilyEnable work point _ ih => exact ih.block temporarilyEnable work point
  | persist _ hr ih => exact ih.persist hr
  | persistStaged _ hr hs ih => exact ih.persistStaged hr hs
  | persistFailed _ hr hs ih => exact ih.persistFailed hr hs
  | flush _ hr ih => exact ih.flush hr
  | flushFailed _ hr ih => exact ih.flushFailed hr
  | flushBounded _ hr ih => exact ih.flush (flushBounded_eq_ok hr)
  | flushBoundedFailed _ hr ih =>
    rcases flushBounded_eq_error hr with rfl | ⟨e', hf⟩
    · exact ih
    · exact ih.flushFailed hf
  | faults faults _ ih => exact ih.withFaults faults
  | restart _ hr ih => exact ih.restart hr

/-- **When a restart gives back the image of the last publication or flush**: no flush has followed
the last publication, or the root holds each row that the layers of the publication write as the
topmost of them writes it. A restart comes to an end where its batch does not fail. -/
theorem restart_image (hstaged : root.staged = none) (hcurrent : root.current = none)
    (h : Reached limits root r) :
    (r.manager.root.Reliable → ∃ result t,
        CheckpointStack.recoverAndRelink limits (Sessions.new r.manager.root) = (.ok result, t)) ∧
      ∀ result t,
        CheckpointStack.recoverAndRelink limits (Sessions.new r.manager.root) = (.ok result, t) →
          (t.readView = r.saved ↔ r.flushed = false ∨
            ∀ key value, FMap.topWrite r.manager.root.publishedLayers key = some value →
              r.manager.root.rows.lookup key = value.read) := by
  have hholds := (h.inv hstaged hcurrent).holds
  constructor
  · intro hreliable
    rcases hholds.restart with ⟨result, root', hload, -, -, -⟩ | ⟨hfault, -⟩
    · exact ⟨result, _, hload⟩
    · exact absurd hfault hreliable
  · intro result t hrun
    rcases hholds.restart with ⟨result', root', hload, hholds', hrows, hsame⟩ | ⟨-, e, u, hload⟩ <;>
      cases hrun.symm.trans hload
    have hlayers : root'.publishedLayers = r.manager.root.publishedLayers := by
      rw [StateStore.publishedLayers, StateStore.publishedLayers, hsame]
    rw [hholds'.loaded.2.2, hrows, hlayers, hholds.saved]
    cases hflushed : r.flushed with
    | false => simp
    | true =>
      rw [if_pos rfl, FMap.overAll_eq_iff]
      simp

/-- A session that writes one row. -/
def sampleWork (value : UInt8) : Work := .write ⟨.account, [1]⟩ (.put [value]) .done

/-- A session is committed and published. -/
def samplePublished : Sessions :=
  (CheckpointStack.persist .default
    (commitSession false (sampleWork 1) (Sessions.new ⟨∅, none, none, []⟩)).2).2

theorem samplePublished_reached : Reached .default ⟨∅, none, none, []⟩
    ⟨samplePublished, (commitSession false (sampleWork 1) (Sessions.new ⟨∅, none, none, []⟩)).2.readView,
      false⟩ := by
  apply Reached.persist (.commit false (sampleWork 1) .start)
  exact Prod.ext (show _ = Except.ok 1 by decide) rfl

theorem restart_image_sample : ∃ result t,
    CheckpointStack.recoverAndRelink .default (Sessions.new samplePublished.root) = (.ok result, t) ∧
      t.readView =
        (commitSession false (sampleWork 1) (Sessions.new ⟨∅, none, none, []⟩)).2.readView := by
  obtain ⟨hends, himage⟩ := restart_image rfl rfl samplePublished_reached
  obtain ⟨result, t, hrun⟩ := hends (show true ∉ samplePublished.root.faults by decide)
  exact ⟨result, t, hrun, (himage result t hrun).mpr (.inl rfl)⟩

/-- Another session is committed over it. -/
def sampleNewer : Sessions := (commitSession false (sampleWork 2) samplePublished).2

/-- It is flushed. -/
def sampleFlushed : Sessions := (Sessions.flushCommitted sampleNewer).2

/-- A session is published, another one is committed and flushed, and the process restarts: the
head shows the row of the first session again. -/
theorem restart_resurrects : ¬ ∀ root r, root.staged = none → root.current = none →
    Reached .default root r → ∀ result t,
      CheckpointStack.recoverAndRelink .default (Sessions.new r.manager.root) = (.ok result, t) →
        t.readView = r.saved := by
  intro hclaim
  have hreached : Reached .default ⟨∅, none, none, []⟩ ⟨sampleFlushed, sampleNewer.readView, true⟩ := by
    apply Reached.flush (.commit false (sampleWork 2) samplePublished_reached)
    exact Prod.ext (show _ = Except.ok 2 by decide) rfl
  have hrun : CheckpointStack.recoverAndRelink .default (Sessions.new sampleFlushed.root) =
      (.ok (some 1),
        (CheckpointStack.recoverAndRelink .default (Sessions.new sampleFlushed.root)).2) :=
    Prod.ext (show _ = Except.ok (some 1) by decide) rfl
  have himage := congrArg (Finmap.lookup ⟨.account, [1]⟩)
    (hclaim _ _ rfl rfl hreached _ _ hrun)
  revert himage
  decide

end DurableRun

end RustTron.State
