import RustTron.State.Maintenance
import RustTron.State.BlockSession
import Mathlib

/-!
# The history of a publication

A publication is decoded again only where its history is one chain: each entry names the one before
it as its parent and has a larger number, and no identity stands twice. The histories the manager
writes are such chains, so that what was published can be loaded.

## Main definitions

* `CheckpointHistory.Chained`: a history that is one chain
* `Sessions.reloaded`: a manager after the load of a publication

## Main results

* `Chained.concat`, `Chained.take`, `Chained.orphanFirst`: what keeps a chain
* `decode_of_chained`: a publication that fits and is a chain can be decoded
* `recoverAndRelink_eq`: the load of a publication
* `Idle.reloaded`: a manager is idle after it
-/

namespace RustTron.State

/-- The history entry of a checkpoint. -/
def CommittedCheckpoint.entry (c : CommittedCheckpoint) : CheckpointHistory :=
  ⟨c.point, c.parent, c.view⟩

namespace CheckpointHistory

/-- The checkpoint of a history entry. -/
def checkpoint (entry : CheckpointHistory) : CommittedCheckpoint :=
  ⟨entry.point, entry.parent, entry.image⟩

/-- An entry that names the one before it as its parent, with a larger number. -/
def Succeeds (previous entry : CheckpointHistory) : Prop :=
  entry.parent = some previous.point.identity ∧ previous.point.block < entry.point.block

/-- A history that is one chain. -/
structure Chained (history : List CheckpointHistory) : Prop where
  rooted : ∀ first ∈ history.head?, first.parent = none
  linked : history.IsChain Succeeds
  distinct : (history.map (·.point.identity)).Nodup

variable {history : List CheckpointHistory}

theorem chained_nil : Chained [] := ⟨by simp, List.isChain_nil, List.nodup_nil⟩

/-- A new entry on a chain. -/
theorem Chained.concat (h : Chained history) {entry : CheckpointHistory}
    (hp : entry.parent = history.getLast?.map (·.point.identity))
    (hb : ∀ head ∈ history.getLast?, head.point.block < entry.point.block)
    (hn : ∀ e ∈ history, e.point.identity ≠ entry.point.identity) :
    Chained (history ++ [entry]) where
  rooted := by
    intro first hf
    cases history with
    | nil =>
      obtain rfl : entry = first := by simpa using hf
      exact hp
    | cons e rest => exact h.rooted first hf
  linked := by
    apply h.linked.append (List.isChain_singleton entry)
    intro last hl e he
    obtain rfl : entry = e := by simpa using he
    refine ⟨?_, hb last hl⟩
    rw [hp, Option.mem_def.mp hl, Option.map_some]
  distinct := by
    rw [List.map_append, List.nodup_append]
    refine ⟨h.distinct, List.nodup_singleton _, ?_⟩
    intro identity hi other ho
    obtain ⟨e, he, rfl⟩ := List.mem_map.mp hi
    rw [List.mem_singleton.mp ho]
    exact hn e he

theorem Chained.take (h : Chained history) (count : Nat) : Chained (history.take count) where
  rooted := by
    intro first hf
    cases count with
    | zero => simp at hf
    | succ count =>
      rw [List.head?_take, if_neg (Nat.succ_ne_zero count)] at hf
      exact h.rooted first hf
  linked := h.linked.take count
  distinct := h.distinct.sublist ((List.take_sublist count history).map _)

/-- The first entry of the rest of a chain loses its parent. -/
theorem Chained.orphanFirst (h : Chained history) (count : Nat) :
    Chained (CheckpointStack.orphanFirst (history.drop count)) := by
  have hl := h.linked.drop count
  have hd := h.distinct.sublist ((List.drop_sublist count history).map _)
  cases hr : history.drop count with
  | nil => exact chained_nil
  | cons first rest =>
    rw [hr] at hl hd
    refine ⟨?_, ?_, hd⟩
    · intro e he
      obtain rfl : { first with parent := none } = e := by
        simpa [CheckpointStack.orphanFirst] using he
      rfl
    · -- the next entry looks at the point of the first one only
      rw [List.isChain_cons] at hl
      exact List.isChain_cons.mpr hl

end CheckpointHistory

/-! ## Decoding -/

namespace CheckpointState

open CheckpointHistory

theorem linked_of_isChain {history : List CheckpointHistory} (h : history.IsChain Succeeds) :
    linked history = true := by
  induction h with
  | nil => rfl
  | singleton e => rfl
  | cons_cons hs _ ih =>
    rw [linked, ih, Bool.and_true, Bool.and_eq_true, decide_eq_true_eq, decide_eq_true_eq]
    exact hs

/-- **A publication that fits and is one chain** can be decoded. -/
theorem decode_of_chained {checkpoint : CheckpointState} {limits : CheckpointLimits}
    (hf : checkpoint.encode limits = .ok checkpoint)
    (hco : ∀ layer ∈ checkpoint.layers, layer.committed = true)
    (hi : (checkpoint.layers.map (·.id)).Nodup) (hch : Chained checkpoint.history) :
    checkpoint.decode limits = .ok checkpoint := by
  have hp : checkpoint.history.head?.any (·.parent.isSome) = false := by
    cases hfi : checkpoint.history.head? with
    | none => rfl
    | some first =>
      rw [Option.any_some, hch.rooted first hfi]
      rfl
  have ho : checkpoint.layers.any (fun layer => !layer.committed) = false := by
    rw [List.any_eq_false]
    intro layer hl
    simp [hco layer hl]
  unfold encode at hf
  unfold decode
  split_ifs at hf with hc _ _ hb
  rw [Bool.or_eq_true, decide_eq_true_eq, decide_eq_true_eq, not_or] at hc
  rw [if_neg hb, if_neg hc.1, ho, if_neg Bool.false_ne_true, if_neg (not_not_intro hi),
    if_neg hc.2, if_neg (not_not_intro hch.distinct), linked_of_isChain hch.linked, hp]
  rfl

end CheckpointState

/-! ## Loading -/

namespace Sessions

/-- A manager after the load of a publication. -/
def reloaded (s : Sessions) (checkpoint : CheckpointState) : Sessions := { s with
  nextId := (checkpoint.layers.map (·.id)).foldl max 0 + 1
  layers := checkpoint.layers.map fun layer => ⟨layer.values, true, false, false, layer.id⟩
  checkpoints := checkpoint.history.map CheckpointHistory.checkpoint }

theorem foldl_max_ge (ids : List Nat) (start : Nat) :
    start ≤ ids.foldl max start ∧ ∀ id ∈ ids, id ≤ ids.foldl max start := by
  induction ids generalizing start with
  | nil => simp
  | cons first rest ih =>
    obtain ⟨hs, hr⟩ := ih (max start first)
    rw [List.foldl_cons]
    refine ⟨(le_max_left _ _).trans hs, ?_⟩
    intro id hid
    rcases List.mem_cons.mp hid with rfl | hid
    · exact (le_max_right _ _).trans hs
    · exact hr id hid

/-- **A manager is idle after the load** of layers with different ids. -/
theorem Idle.reloaded {s : Sessions} (h : s.active = 0) {checkpoint : CheckpointState}
    (hi : (checkpoint.layers.map (·.id)).Nodup) : (s.reloaded checkpoint).Idle where
  settled := by
    intro l hl
    obtain ⟨layer, -, rfl⟩ := List.mem_map.mp hl
    rfl
  distinct := by
    rw [Sessions.reloaded, List.map_map]
    exact hi
  fresh := by
    intro l hl
    obtain ⟨layer, hla, rfl⟩ := List.mem_map.mp hl
    exact Nat.lt_succ_of_le ((foldl_max_ge _ 0).2 layer.id (List.mem_map_of_mem hla))
  active := h

/-- The publication of an idle manager. -/
theorem Idle.checkpointState_eq {s : Sessions} (h : s.Idle) :
    s.checkpointState = .ok s.checkpoint := by
  have hs : s.layers.any (fun layer => !layer.isSettled) = false := by
    rw [List.any_eq_false]
    intro l hl
    simp [h.settled l hl]
  simp [checkpointState, h.active, hs, checkpoint]

theorem checkpoint_ids (s : Sessions) : s.checkpoint.layers.map (·.id) = s.layers.map (·.id) := by
  simp [checkpoint, Function.comp_def]

theorem checkpoint_history (s : Sessions) :
    s.checkpoint.history = s.checkpoints.map CommittedCheckpoint.entry := rfl

/-- A new checkpoint goes on with the chain. -/
theorem chained_concat {s : Sessions} (h : CheckpointHistory.Chained s.checkpoint.history)
    {point : CursorPoint} (hp : ¬ s.Clashes point) (view : Image) :
    CheckpointHistory.Chained
      (s.checkpoint.history ++ [⟨point, s.checkpoints.getLast?.map (·.point.identity), view⟩]) := by
  rw [Clashes, not_or, Bool.not_eq_true, Bool.not_eq_true] at hp
  apply h.concat
  · rw [checkpoint_history, List.getLast?_map, Option.map_map]
    rfl
  · intro head hh
    rw [checkpoint_history, List.getLast?_map] at hh
    obtain ⟨c, hc, rfl⟩ := Option.map_eq_some_iff.mp (Option.mem_def.mp hh)
    have hb := hp.2
    rw [hc, Option.any_some, decide_eq_false_iff_not, not_le] at hb
    exact hb
  · intro e he
    obtain ⟨c, hc, rfl⟩ := List.mem_map.mp he
    have hn := List.any_eq_false.mp hp.1 c hc
    rw [decide_eq_true_eq] at hn
    exact hn

/-- A block that can be committed goes on with the chain. -/
theorem chained_committed {s : Sessions} (h : CheckpointHistory.Chained s.checkpoint.history)
    {point : CursorPoint} (hp : ¬ s.Clashes point) {top : OverlayLayer} {n : Nat} :
    CheckpointHistory.Chained (s.committed top n point).checkpoint.history := by
  rw [checkpoint_history, committed, List.map_append]
  exact chained_concat h hp _

/-- What an idle manager with a chain of checkpoints has published can be decoded. -/
theorem Idle.decode_checkpoint {s : Sessions} (h : s.Idle)
    (hc : CheckpointHistory.Chained s.checkpoint.history) {limits : CheckpointLimits}
    (hf : s.checkpoint.encode limits = .ok s.checkpoint) :
    s.checkpoint.decode limits = .ok s.checkpoint := by
  refine CheckpointState.decode_of_chained hf ?_ ?_ hc
  · intro layer hl
    obtain ⟨l, -, rfl⟩ := List.mem_map.mp hl
    rfl
  · rw [checkpoint_ids]
    exact h.distinct

end Sessions

/-- **The load of a publication.** -/
theorem CheckpointStack.recoverAndRelink_eq {s : Sessions} {checkpoint : CheckpointState}
    {limits : CheckpointLimits} (ha : s.active = 0) (hs : s.root.staged = none)
    (hcu : s.root.current = some checkpoint)
    (hd : checkpoint.decode limits = .ok checkpoint) :
    recoverAndRelink limits s = (.ok (some checkpoint.layers.length), s.reloaded checkpoint) := by
  obtain ⟨-, hc⟩ := CheckpointState.decode_eq_ok hd
  have hr : Sessions.replaceCheckpointState checkpoint s =
      (.ok checkpoint.layers.length, s.reloaded checkpoint) := by
    unfold Sessions.replaceCheckpointState
    rw [if_neg (not_not_intro ha), hc]
    rfl
  simp only [recoverAndRelink, recoverStore, Prog.bind_run, Prog.get_run, hs, Prog.pure_run,
    hcu, ha, ne_eq, not_true_eq_false, if_false, hd, Prog.ofExcept_ok_run,
    Prog.mapError_of_ok hr]

theorem CheckpointStack.relink_eq {s : Sessions} {checkpoint : CheckpointState}
    {limits : CheckpointLimits} (ha : s.active = 0) (hs : s.root.staged = none)
    (hc : s.root.current = some checkpoint)
    (hd : checkpoint.decode limits = .ok checkpoint) :
    relink limits s = (.ok checkpoint.layers.length, s.reloaded checkpoint) := by
  rw [relink, Prog.bind_of_ok (recoverAndRelink_eq ha hs hc hd)]
  rfl

end RustTron.State
