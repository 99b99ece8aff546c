import RustTron.State.History

/-!
# Time travel

The manager keeps the layers and the history of checkpoints in two lists, and cuts both at either
end: a rewind and a retreat drop the newest layers with their checkpoints, a compaction moves the
oldest layers into the root and forgets the checkpoints before its anchor. Each checkpoint stays
with the layers whose image it holds, counted from the top of the stack.

## Main definitions

* `Sessions.Aligned`: each checkpoint holds the image under its layers
* `HistoryCall.run`: the calls on the history of a manager
* `Sessions.rewindBy`: repeated `rewind_checkpoint`

## Main results

* `Aligned.run`: what every call keeps
* `Sessions.time_travel`: a rewind restores the image of the checkpoint, and maintenance keeps the
  image and the points of the head
-/

namespace RustTron.State

open CheckpointHistory (Chained)

namespace Sessions

variable {s t : Sessions}

/-- The checkpoints belong to the topmost layers, in order, and each holds the image under its
layers. The lowest one may have no layer of its own. -/
structure Aligned (s : Sessions) : Prop extends Idle s where
  chained : Chained s.checkpoint.history
  bounded : s.checkpoints.length ≤ s.layers.length + 1
  views : ∀ i c, s.checkpoints[i]? = some c →
    c.view = s.under (s.layers.take (s.layers.length + i + 1 - s.checkpoints.length))

theorem Aligned.withIds (h : s.Aligned) {n : Nat} (hn : s.nextId ≤ n) (enabled : Bool) :
    Aligned { s with nextId := n, enabled := enabled } where
  settled := h.settled
  distinct := h.distinct
  fresh := fun l hl => (h.fresh l hl).trans_le hn
  active := h.active
  chained := h.chained
  bounded := h.bounded
  views := h.views

/-- The metadata of the root do not matter. -/
theorem Aligned.same (h : s.Aligned) (ht : s.SameButMetadata t) : t.Aligned := by
  obtain ⟨root, rfl, hr⟩ := ht
  refine ⟨⟨h.settled, h.distinct, h.fresh, h.active⟩, h.chained, h.bounded, ?_⟩
  intro i c hc
  rw [h.views i c hc, under, under, hr]

/-- The last layers are dropped, each with its checkpoint. -/
def cut (s : Sessions) (count : Nat) : Sessions := { s with
  layers := s.layers.take (s.layers.length - count)
  checkpoints := s.checkpoints.take (s.checkpoints.length - count) }

/-- **Dropping the newest layers.** -/
theorem Aligned.cut (h : s.Aligned) (count : Nat) : (s.cut count).Aligned where
  settled := fun l hl => h.settled l (List.mem_of_mem_take hl)
  distinct := h.distinct.sublist ((List.take_sublist _ _).map _)
  fresh := fun l hl => h.fresh l (List.mem_of_mem_take hl)
  active := h.active
  chained := by
    rw [checkpoint_history, Sessions.cut, List.map_take]
    exact h.chained.take _
  bounded := by
    have hb := h.bounded
    simp only [Sessions.cut, List.length_take]
    omega
  views := by
    intro i c hc
    have hb := h.bounded
    rw [Sessions.cut, List.getElem?_take] at hc
    split at hc
    · rename_i hi
      have hin := h.views i c hc
      simp only [Sessions.cut, under, List.length_take, List.take_take] at hin ⊢
      -- the checkpoint is `i` places above the lowest one in both stacks
      rw [hin]
      congr 3
      omega
    · cases hc

/-! ## Blocks -/

theorem Aligned.committed (h : s.Aligned) {top : OverlayLayer} {n : Nat} {point : CursorPoint}
    (hb : s.Beneath top n) (hp : ¬ s.Clashes point) :
    (s.committed top n point).Aligned := by
  have hid := h.toIdle.withCommitted hb
  have hbo := h.bounded
  refine ⟨⟨hid.settled, hid.distinct, hid.fresh, hid.active⟩, ?_, ?_, ?_⟩
  · exact chained_committed h.chained hp
  · simp only [Sessions.committed, withCommitted, List.length_append, List.length_singleton]
    omega
  · intro i c hc
    simp only [Sessions.committed, withCommitted, List.length_append,
      List.length_singleton] at hc ⊢
    by_cases hi : i < s.checkpoints.length
    · rw [List.getElem?_append_left hi] at hc
      have hin : s.layers.length + 1 + i + 1 - (s.checkpoints.length + 1) =
          s.layers.length + i + 1 - s.checkpoints.length := by omega
      rw [hin, List.take_append_of_le_length (by omega)]
      exact h.views i c hc
    · rw [List.getElem?_append_right (not_lt.mp hi), List.getElem?_singleton] at hc
      split at hc
      · cases hc
        have hin : s.layers.length + 1 + i + 1 - (s.checkpoints.length + 1) =
            (s.layers ++ [{ top with committed := true }]).length := by
          rw [List.length_append, List.length_singleton]
          omega
        rw [hin, List.take_length]
        simp [under]
      · cases hc

/-- **A block session** keeps the alignment. -/
theorem Aligned.blockSession (h : s.Aligned) (temporarilyEnable : Bool) (work : Work)
    (point : CursorPoint) : (blockSession temporarilyEnable work point s).2.Aligned := by
  rcases blockSession_spec h.toIdle temporarilyEnable work point with
    ⟨n, enabled, hn, hr⟩ | ⟨top, n, hb, -, hp, hr⟩
  · rw [hr]
    exact h.withIds hn enabled
  · rw [hr]
    exact h.committed hb hp

/-! ## Rewinds and retreats -/

theorem rewindCheckpoint_cases (expected : CheckpointIdentity) (s : Sessions) :
    (rewindCheckpoint expected s).2 = s ∨ (rewindCheckpoint expected s).2 = s.cut 1 := by
  unfold rewindCheckpoint
  repeat' split
  all_goals first
    | exact .inl rfl
    | exact .inr (by rw [cut, ← List.dropLast_eq_take, ← List.dropLast_eq_take])

/-- A rewind to the checkpoint before the head. -/
theorem Idle.rewindCheckpoint_head (h : s.Idle) {layer : OverlayLayer} {head : CommittedCheckpoint}
    (hl : s.layers.getLast? = some layer) (hh : s.checkpoints.getLast? = some head) :
    rewindCheckpoint head.point.identity s = (.ok true, s.cut 1) := by
  have hs := h.settled layer (List.mem_of_getLast? hl)
  unfold rewindCheckpoint
  simp [h.active, hl, hh, hs, cut, List.dropLast_eq_take]

theorem retreatWith_cases (limits : CheckpointLimits) (count : Nat) (s : Sessions) :
    s.SameButMetadata (CheckpointStack.retreatWith limits count s).2 ∨
      (s.cut count).SameButMetadata (CheckpointStack.retreatWith limits count s).2 := by
  unfold CheckpointStack.retreatWith
  split
  · exact .inl (.refl s)
  · dsimp only
    rw [Prog.bind_of_ok (Prog.get_run s)]
    cases hs : s.checkpointState with
    | error e => exact .inl (.refl s)
    | ok current =>
      have hcu : current = s.checkpoint := by
        unfold checkpointState at hs
        split_ifs at hs
        exact (Except.ok.inj hs).symm
      subst hcu
      rw [Prog.bind_of_ok (Prog.ofExcept_ok_run _ _ _), Prog.bind_run]
      generalize hc : CheckpointState.mk _ _ = retained
      have hsa := CheckpointStack.publish_same limits retained s
      rcases hp : CheckpointStack.publish limits retained s with ⟨e | result, s'⟩ <;>
        rw [hp] at hsa
      · exact .inl hsa
      · obtain ⟨root, rfl, hr⟩ := hsa
        refine .inr ⟨root, ?_, hr⟩
        subst hc
        simp [Prog.bind_run, Prog.modify_run, Prog.pure_run, cut, checkpoint]

/-- The head is rewound this many times. -/
def rewindBy : Nat → SessionM Unit
  | 0 => pure ()
  | count + 1 => do
    let s ← get
    match s.checkpoints.getLast? with
    | none => throw .invalidSession
    | some head =>
      let _ ← rewindCheckpoint head.point.identity
      rewindBy count

theorem cut_cut (s : Sessions) (count : Nat) : (s.cut 1).cut count = s.cut (count + 1) := by
  simp only [cut, List.length_take, List.take_take]
  congr 2 <;> omega

/-- **Repeated rewinds** drop as many layers with their checkpoints. -/
theorem Aligned.rewindBy (h : s.Aligned) {count : Nat} (hco : count < s.checkpoints.length) :
    Sessions.rewindBy count s = (.ok (), s.cut count) := by
  induction count generalizing s with
  | zero => simp [Sessions.rewindBy, Sessions.cut, Prog.pure_run]
  | succ count ih =>
    have hb := h.bounded
    have hl : s.layers ≠ [] := List.ne_nil_of_length_pos (by omega)
    have hc : s.checkpoints ≠ [] := List.ne_nil_of_length_pos (by omega)
    have hla := List.getLast?_eq_some_getLast hl
    have hh := List.getLast?_eq_some_getLast hc
    have hr : count < (s.cut 1).checkpoints.length := by
      rw [Sessions.cut, List.length_take]
      omega
    rw [Sessions.rewindBy, Prog.bind_of_ok (Prog.get_run s)]
    simp only [hh]
    rw [Prog.bind_of_ok (h.rewindCheckpoint_head hla hh), ih (h.cut 1) hr, cut_cut]

/-! ## Publication and loading -/

/-- A load of what is published changes the ids of the manager at most. -/
theorem Aligned.reloaded (h : s.Aligned) : (s.reloaded s.checkpoint).Aligned := by
  have hch : (s.reloaded s.checkpoint).checkpoints = s.checkpoints := by
    rw [Sessions.reloaded, checkpoint_history, List.map_map]
    exact List.map_id _
  have hi : (s.checkpoint.layers.map (·.id)).Nodup := by
    rw [checkpoint_ids]
    exact h.distinct
  refine ⟨Idle.reloaded h.active hi, ?_, ?_, ?_⟩
  · rw [checkpoint_history, hch]
    exact h.chained
  · rw [hch]
    simpa [Sessions.reloaded, checkpoint] using h.bounded
  · intro i c hc
    rw [hch] at hc
    rw [h.views i c hc, hch]
    simp [under, Sessions.reloaded, checkpoint, ← List.map_take, Function.comp_def]

theorem reloaded_points (s : Sessions) :
    (s.reloaded s.checkpoint).checkpointPoints = s.checkpointPoints := by
  simp [checkpointPoints, reloaded, checkpoint, CheckpointHistory.checkpoint, Function.comp_def]

theorem Aligned.reloaded_readView (h : s.Aligned) :
    (s.reloaded s.checkpoint).readView = s.readView := by
  rw [h.reloaded.readView_eq, h.readView_eq]
  simp [under, Sessions.reloaded, checkpoint, Function.comp_def]

theorem SameButMetadata.points_eq (h : s.SameButMetadata t) :
    t.checkpointPoints = s.checkpointPoints := by
  rw [checkpointPoints, checkpointPoints, h.checkpoints_eq]

/-- **A publication that succeeded can be loaded**: the load finds what the manager holds. -/
theorem Aligned.relink_persisted (h : s.Aligned) {limits : CheckpointLimits} {count : Nat}
    (hp : CheckpointStack.persist limits s = (.ok count, t)) :
    t.SameButMetadata s ∧ CheckpointStack.recoverAndRelink limits t =
      (.ok (some count), t.reloaded t.checkpoint) := by
  obtain ⟨hf, rfl, faults, rfl⟩ :=
    CheckpointStack.persist_eq_ok_of_state h.checkpointState_eq hp
  refine ⟨⟨s.root, rfl, rfl⟩, ?_⟩
  have hd := h.decode_checkpoint h.chained hf
  have hl : s.checkpoint.layers.length = s.layers.length := List.length_map _
  rw [← hl]
  exact CheckpointStack.recoverAndRelink_eq h.active rfl rfl hd

end Sessions

/-- `persist`, and `recover_and_relink` where it succeeded. -/
def CheckpointStack.persistAndRelink (limits : CheckpointLimits) :
    Prog Sessions CheckpointError (Option Nat) := do
  let _ ← persist limits
  recoverAndRelink limits

theorem Sessions.Aligned.persistAndRelink {s : Sessions} (h : s.Aligned)
    (limits : CheckpointLimits) : (CheckpointStack.persistAndRelink limits s).2.Aligned := by
  have hs := CheckpointStack.persist_same limits s
  unfold CheckpointStack.persistAndRelink
  rcases hp : CheckpointStack.persist limits s with ⟨e | count, t⟩ <;> rw [hp] at hs
  · rw [Prog.bind_of_error hp]
    exact h.same hs
  · rw [Prog.bind_of_ok hp, (h.relink_persisted hp).2]
    exact (h.same hs).reloaded

/-! ## Compaction -/

namespace Sessions

variable {s t : Sessions}

/-- The manager with its oldest layers in the root, and the history from the anchor on. -/
def compacted (s : Sessions) (count : Nat) (root : StateStore) : Sessions := { s with
  root := { root with rows := s.under (s.layers.take count) }
  layers := s.layers.drop count
  checkpoints := (CheckpointStack.orphanFirst (s.checkpoint.history.drop count)).map
    CheckpointHistory.checkpoint }

theorem orphanFirst_getElem? (history : List CheckpointHistory) (i : Nat) :
    (CheckpointStack.orphanFirst history)[i]?.map (·.image) = history[i]?.map (·.image) := by
  rcases history with _ | ⟨first, rest⟩
  · rfl
  · cases i <;> rfl

theorem orphanFirst_points (history : List CheckpointHistory) :
    (CheckpointStack.orphanFirst history).map (·.point) = history.map (·.point) := by
  cases history <;> rfl

theorem orphanFirst_length (history : List CheckpointHistory) :
    (CheckpointStack.orphanFirst history).length = history.length := by
  cases history <;> rfl

theorem compacted_checkpoint (s : Sessions) (count : Nat) (root : StateStore) :
    (s.compacted count root).checkpoint =
      ⟨s.checkpoint.layers.drop count,
        CheckpointStack.orphanFirst (s.checkpoint.history.drop count)⟩ := by
  simp [compacted, checkpoint, CheckpointHistory.checkpoint, List.map_drop, Function.comp_def]

theorem compacted_points (s : Sessions) (count : Nat) (root : StateStore) :
    (s.compacted count root).checkpointPoints = s.checkpointPoints.drop count := by
  have hp := orphanFirst_points (s.checkpoint.history.drop count)
  simp only [checkpointPoints, compacted, List.map_map, List.map_drop] at hp ⊢
  rw [show (CommittedCheckpoint.point ∘ CheckpointHistory.checkpoint) = CheckpointHistory.point
    from rfl, hp]
  simp [checkpoint, Function.comp_def]

/-- The layers above the compacted ones show what they showed. -/
theorem compacted_under (s : Sessions) (count : Nat) (root : StateStore) (above : Nat) :
    (s.compacted count root).under ((s.compacted count root).layers.take above) =
      s.under (s.layers.take (count + above)) := by
  simp only [compacted, under, List.take_add, List.map_append, FMap.overAll_append]

theorem Aligned.compacted_readView (h : s.Aligned) (count : Nat) (root : StateStore) :
    (s.compacted count root).readView = s.readView := by
  have hs : ∀ l ∈ (s.compacted count root).layers, l.isSettled = true :=
    fun l hl => h.settled l (List.mem_of_mem_drop hl)
  rw [readView, captureWhere_all _ hs, h.readView_eq]
  have hu := compacted_under s count root s.layers.length
  rw [List.take_of_length_le (by simp [compacted]), List.take_of_length_le (by omega)] at hu
  exact hu

/-- **Compaction**: the checkpoints from the anchor on keep their images. -/
theorem Aligned.compacted (h : s.Aligned) {count : Nat} (hco : count < s.checkpoints.length)
    (root : StateStore) : (s.compacted count root).Aligned where
  settled := fun l hl => h.settled l (List.mem_of_mem_drop hl)
  distinct := h.distinct.sublist ((List.drop_sublist _ _).map _)
  fresh := fun l hl => h.fresh l (List.mem_of_mem_drop hl)
  active := h.active
  chained := by
    rw [compacted_checkpoint]
    exact h.chained.orphanFirst count
  bounded := by
    have hb := h.bounded
    simp only [Sessions.compacted, List.length_map, orphanFirst_length, List.length_drop,
      checkpoint_history]
    omega
  views := by
    intro i c hc
    have hb := h.bounded
    have hle : (s.compacted count root).checkpoints.length = s.checkpoints.length - count := by
      simp [Sessions.compacted, orphanFirst_length, checkpoint_history]
    have him := orphanFirst_getElem? (s.checkpoint.history.drop count) i
    rw [Sessions.compacted, List.getElem?_map] at hc
    obtain ⟨entry, he, rfl⟩ := Option.map_eq_some_iff.mp hc
    rw [he, List.getElem?_drop, checkpoint_history, List.getElem?_map] at him
    obtain ⟨old, ho, hv⟩ : ∃ old, s.checkpoints[count + i]? = some old ∧
        old.view = entry.image := by
      cases ho : s.checkpoints[count + i]? with
      | none =>
        rw [ho] at him
        cases him
      | some old =>
        rw [ho] at him
        exact ⟨old, rfl, (Option.some.inj him).symm⟩
    have hi : count + i < s.checkpoints.length := (List.getElem?_eq_some_iff.mp ho).1
    show entry.image = _
    rw [compacted_under, hle, ← hv, h.views _ _ ho]
    congr 2
    simp only [Sessions.compacted, List.length_drop]
    omega

/-- **What a compaction does**: nothing but to the metadata where it fails, and where it succeeds
the manager holds the layers and the history from the anchor on. -/
theorem Aligned.compactFinalized_cases (h : s.Aligned) (limits : CheckpointLimits)
    (anchor : CursorPoint) :
    (∃ e t, CheckpointStack.compactFinalized limits anchor s = (.error e, t) ∧
        s.SameButMetadata t) ∨
      ∃ root count, count = s.checkpointPoints.findIdx (· = anchor) ∧
        count < s.checkpoints.length ∧ CheckpointStack.compactFinalized limits anchor s =
          (.ok count, (s.compacted count root).reloaded (s.compacted count root).checkpoint) := by
  have hfi : s.checkpoint.history.findIdx? (fun entry => entry.point = anchor) =
      s.checkpointPoints.findIdx? (· = anchor) := by
    rw [checkpoint_history, checkpointPoints, List.findIdx?_map, List.findIdx?_map]
    rfl
  unfold CheckpointStack.compactFinalized
  rw [Prog.bind_of_ok (Prog.get_run s), h.checkpointState_eq,
    Prog.bind_of_ok (Prog.ofExcept_ok_run _ _ _), hfi]
  cases hi : s.checkpointPoints.findIdx? (· = anchor) with
  | none => exact .inl ⟨_, s, rfl, .refl s⟩
  | some count =>
    obtain ⟨hlt, hco⟩ := List.findIdx?_eq_some_iff_findIdx_eq.mp hi
    rw [checkpointPoints, List.length_map] at hlt
    have hbo := h.bounded
    have hl : s.checkpoint.layers.length = s.layers.length := List.length_map _
    have hm : min count s.checkpoint.layers.length = count := by omega
    have hs : (CheckpointStack.orphanFirst (s.checkpoint.history.drop count)).isEmpty = false := by
      rw [List.isEmpty_eq_false_iff_exists_mem]
      apply List.exists_mem_of_length_pos
      rw [orphanFirst_length, List.length_drop, checkpoint_history, List.length_map]
      omega
    simp only [hm, hs, Bool.false_eq_true, if_false]
    generalize hr : CheckpointState.mk _ _ = retained
    cases he : retained.encode limits with
    | error e => exact .inl ⟨_, s, rfl, .refl s⟩
    | ok encoded =>
      have hf := CheckpointState.encode_eq ⟨encoded, he⟩
      obtain rfl : encoded = retained := Except.ok.inj (he.symm.trans hf)
      rw [Prog.bind_of_ok (Prog.ofExcept_ok_run _ _ _), Prog.bind_run]
      rcases hb : commitBatch _ s with ⟨e | _, t⟩
      · refine .inl ⟨e, t, rfl, ?_⟩
        unfold commitBatch at hb
        split at hb <;> cases hb
        exact ⟨_, rfl, rfl⟩
      · obtain ⟨faults, rfl⟩ := CheckpointStack.commitBatch_eq_ok hb
        set root : StateStore := ⟨∅, none, some encoded, faults⟩
        refine .inr ⟨root, count, hco.symm, hlt, ?_⟩
        have hc : (s.compacted count root).checkpoint = encoded :=
          (compacted_checkpoint s count root).trans hr
        have hd : encoded.decode limits = .ok encoded := by
          have ha := h.compacted hlt root
          rw [← hc] at hf ⊢
          exact ha.decode_checkpoint ha.chained hf
        have hro : (s.checkpoint.layers.take count).foldl
            (fun rows layer => FMap.overlay rows layer.values) s.root.rows =
              s.under (s.layers.take count) := by
          rw [under, FMap.overAll, List.foldl_map, checkpoint, ← List.map_take, List.foldl_map]
        have hre := CheckpointStack.relink_eq
          (s := { s with root := { root with rows := s.under (s.layers.take count) } })
          h.active rfl rfl hd
        dsimp only
        rw [hro, hc]
        exact Prog.bind_of_ok hre

/-- The points that are kept after a compaction with this result. -/
def keptPoints (anchor : CursorPoint) (points : List CursorPoint) :
    Except CheckpointError Nat → List CursorPoint
  | .ok _ => points.dropWhile (· ≠ anchor)
  | .error _ => points

/-- **A compaction keeps the head**, and the points from the anchor on. -/
theorem Aligned.compactFinalized (h : s.Aligned) (limits : CheckpointLimits) (anchor : CursorPoint) :
    (CheckpointStack.compactFinalized limits anchor s).2.Aligned ∧
      (CheckpointStack.compactFinalized limits anchor s).2.readView = s.readView ∧
      (CheckpointStack.compactFinalized limits anchor s).2.checkpointPoints =
        keptPoints anchor s.checkpointPoints
          (CheckpointStack.compactFinalized limits anchor s).1 := by
  rcases h.compactFinalized_cases limits anchor with
    ⟨e, t, hf, hs⟩ | ⟨root, count, hc, hlt, hd⟩
  · rw [hf]
    exact ⟨h.same hs, hs.readView_eq, hs.points_eq⟩
  · have ha := h.compacted hlt root
    rw [hd]
    refine ⟨ha.reloaded, ?_, ?_⟩
    · rw [ha.reloaded_readView, h.compacted_readView]
    · rw [reloaded_points, compacted_points, keptPoints, List.dropWhile_eq_drop_findIdx_not, hc]
      simp

end Sessions

/-! ## Runs -/

/-- The calls on the history of a manager. -/
inductive HistoryCall where
  | block (temporarilyEnable : Bool) (work : Work) (point : CursorPoint)
  | rewind (identity : CheckpointIdentity)
  | retreat (count : Nat)
  | persist
  | persistAndRelink
  | compact (anchor : CursorPoint)

/-- The manager after a call, whether it fails or not. -/
def HistoryCall.run (limits : CheckpointLimits) (s : Sessions) : HistoryCall → Sessions
  | block temporarilyEnable work point => (blockSession temporarilyEnable work point s).2
  | rewind identity => (Sessions.rewindCheckpoint identity s).2
  | retreat count => (CheckpointStack.retreatWith limits count s).2
  | persist => (CheckpointStack.persist limits s).2
  | persistAndRelink => (CheckpointStack.persistAndRelink limits s).2
  | compact anchor => (CheckpointStack.compactFinalized limits anchor s).2

namespace Sessions

variable {s t : Sessions}

/-- **Every call** keeps the alignment. -/
theorem Aligned.run (h : s.Aligned) (limits : CheckpointLimits) (call : HistoryCall) :
    (call.run limits s).Aligned := by
  cases call with
  | block temporarilyEnable work point => exact h.blockSession temporarilyEnable work point
  | rewind identity =>
    rcases rewindCheckpoint_cases identity s with hr | hr
    · rw [HistoryCall.run, hr]
      exact h
    · rw [HistoryCall.run, hr]
      exact h.cut 1
  | retreat count =>
    rcases retreatWith_cases limits count s with hs | hs
    · exact h.same hs
    · exact (h.cut count).same hs
  | persist => exact h.same (CheckpointStack.persist_same limits s)
  | persistAndRelink => exact h.persistAndRelink limits
  | compact anchor => exact (h.compactFinalized limits anchor).1

theorem Aligned.runAll (h : s.Aligned) (limits : CheckpointLimits) (calls : List HistoryCall) :
    (calls.foldl (HistoryCall.run limits) s).Aligned := by
  induction calls generalizing s with
  | nil => exact h
  | cons call rest ih => exact ih (h.run limits call)

/-- No session is active, and no checkpoint is recorded but the one of the state as it is. -/
structure Begins (s : Sessions) : Prop extends Idle s where
  checkpoints : s.checkpoints = [] ∨
    ∃ point, s.checkpoints = [⟨point, none, s.readView⟩]

theorem Begins.aligned (h : s.Begins) : s.Aligned := by
  rcases h.checkpoints with hn | ⟨point, ho⟩
  · refine ⟨h.toIdle, ?_, ?_, ?_⟩
    · rw [checkpoint_history, hn]
      exact CheckpointHistory.chained_nil
    · simp [hn]
    · simp [hn]
  · refine ⟨h.toIdle, ?_, ?_, ?_⟩
    · rw [checkpoint_history, ho]
      refine ⟨?_, List.isChain_singleton _, List.nodup_singleton _⟩
      intro first hf
      cases hf
      rfl
    · simp [ho]
    · intro i c hc
      rw [ho, List.getElem?_singleton] at hc
      split at hc
      · cases hc
        rename_i hi
        rw [h.readView_eq, ho, hi]
        simp
      · cases hc

/-- **Time travel**, over every run of block sessions, rewinds, retreats, publications, loads of
what was just published and compactions, with batches that fail: to rewind to a checkpoint restores
the image it holds, and neither a publication nor the load after it nor a compaction changes the
image of the head or the points of the checkpoints that are kept. -/
theorem time_travel (limits : CheckpointLimits) (h : s.Begins) (calls : List HistoryCall)
    (ht : t = calls.foldl (HistoryCall.run limits) s) :
    (∀ kept c later, t.checkpoints = kept ++ c :: later → ∃ u,
        rewindBy later.length t = (.ok (), u) ∧ u.checkpoints = kept ++ [c] ∧
          u.readView = c.view) ∧
      (∀ r t', CheckpointStack.persist limits t = (r, t') →
        t'.readView = t.readView ∧ t'.checkpointPoints = t.checkpointPoints ∧
          ∀ count, r = .ok count → ∃ u,
            CheckpointStack.recoverAndRelink limits t' = (.ok (some count), u) ∧
              u.readView = t.readView ∧ u.checkpointPoints = t.checkpointPoints) ∧
      ∀ anchor r t', CheckpointStack.compactFinalized limits anchor t = (r, t') →
        t'.readView = t.readView ∧
          t'.checkpointPoints = keptPoints anchor t.checkpointPoints r := by
  have halign : t.Aligned := ht ▸ h.aligned.runAll limits calls
  refine ⟨?_, ?_, ?_⟩
  · intro kept c later hsplit
    have hlength : t.checkpoints.length = kept.length + 1 + later.length := by
      rw [hsplit, List.length_append, List.length_cons]
      omega
    refine ⟨t.cut later.length, halign.rewindBy (by omega), ?_, ?_⟩
    · rw [cut, hlength, Nat.add_sub_cancel, hsplit, List.append_cons]
      apply List.take_left'
      simp
    · have hview := halign.views kept.length c (by simp [hsplit])
      rw [(halign.cut later.length).readView_eq, hview]
      simp only [cut, under]
      congr 3
      omega
  · intro r t' hpersist
    have hsame := CheckpointStack.persist_same limits t
    rw [hpersist] at hsame
    refine ⟨hsame.readView_eq, hsame.points_eq, ?_⟩
    rintro count rfl
    have halign' := halign.same hsame
    refine ⟨_, (halign.relink_persisted hpersist).2, ?_, ?_⟩
    · rw [halign'.reloaded_readView, hsame.readView_eq]
    · rw [reloaded_points, hsame.points_eq]
  · intro anchor r t' hcompact
    have hkept := (halign.compactFinalized limits anchor).2
    rw [hcompact] at hkept
    exact hkept

/-- A new manager is a start. -/
theorem begins_new (root : StateStore) : (new root).Begins :=
  ⟨⟨by simp [new], List.nodup_nil, by simp [new], rfl⟩, .inl rfl⟩

/-- A row of the account store. -/
def sampleRow : RowKey := ⟨.account, [1]⟩

/-- The point of a block. -/
def samplePoint (number : Nat) (marker : UInt8) : CursorPoint :=
  ⟨number, ⟨marker :: List.replicate 31 0, by simp⟩⟩

/-- A block that writes the row. -/
def sampleBlockCall (value : UInt8) (number : Nat) : HistoryCall :=
  .block false (.write sampleRow (.put [value]) .done) (samplePoint number value)

/-- Three blocks, and a compaction at the second. -/
def sampleTravel : Sessions :=
  [sampleBlockCall 1 1, sampleBlockCall 2 2, sampleBlockCall 3 3, .compact (samplePoint 2 2)].foldl
    (HistoryCall.run .default) (new ⟨∅, none, none, []⟩)

theorem sampleTravel_length : sampleTravel.checkpoints.length = 2 := by decide

/-- The checkpoints that are left. -/
def sampleKept (i : Fin 2) : CommittedCheckpoint :=
  sampleTravel.checkpoints.get (i.cast sampleTravel_length.symm)

theorem sampleTravel_checkpoints : sampleTravel.checkpoints = [] ++ sampleKept 0 :: [sampleKept 1] := by
  apply List.ext_getElem
  · exact sampleTravel_length
  · intro i hi _
    rw [sampleTravel_length] at hi
    rcases i with _ | _ | i
    · rfl
    · rfl
    · omega

/-- The third block is rewound: the row is that of the second again. -/
theorem time_travel_sample : ∃ u, rewindBy 1 sampleTravel = (.ok (), u) ∧
    u.checkpointPoints = [samplePoint 2 2] ∧ u.readView.lookup sampleRow = some [2] := by
  obtain ⟨u, hrewind, hcheckpoints, hview⟩ := (time_travel .default (begins_new ⟨∅, none, none, []⟩) _
    (show sampleTravel = _ from rfl)).1 _ _ _ sampleTravel_checkpoints
  refine ⟨u, hrewind, ?_, ?_⟩
  · rw [checkpointPoints, hcheckpoints]
    decide
  · rw [hview]
    decide

end Sessions

end RustTron.State
