import RustTron.State.Session.Handles

/-!
# The ids of the layers

Layers and handles are tied to each other by ids alone. A call on the sessions takes at most one
id, the next of the counter, and gives it to the layer it opens and to the handle of that layer;
all other calls leave layers and handles the ids they have.

## Main definitions

* `Sessions.Within`: the next id, and the ids that the layers may have
* `SessionRun.Names`: the same of a run, with the ids that the handles name

## Main results

* `Session.finish_within`, `commitWithCheckpoint_within`, `close_within`, `mutate_within`
* `SessionRun.call_advances`: a call on the sessions takes the next id, or leaves the ids
-/

namespace RustTron.State

/-! ## The ids of the layers -/

namespace Sessions

variable {s t : Sessions} {ids : Set Nat} {next : Nat}

/-- The next id is `next`, and the layers have ids of the set. -/
structure Within (ids : Set Nat) (next : Nat) (s : Sessions) : Prop where
  next : s.nextId = next
  layers : ∀ l ∈ s.layers, l.id ∈ ids

theorem Within.of_subset (h : s.Within ids next) (hn : t.nextId = s.nextId)
    (hla : ∀ l ∈ t.layers, ∃ l' ∈ s.layers, l'.id = l.id) : t.Within ids next := by
  refine ⟨hn.trans h.next, ?_⟩
  intro l hl
  obtain ⟨l', hl', hid⟩ := hla l hl
  exact hid ▸ h.layers l' hl'

theorem Within.withLayers (h : s.Within ids next) {layers : List OverlayLayer}
    (hl : ∀ l ∈ layers, ∃ l' ∈ s.layers, l'.id = l.id) :
    Within ids next { s with layers := layers } := h.of_subset rfl hl

theorem subActive_within (count : Nat) : Prog.Keeps (Within ids next) (subActive count) := by
  apply Prog.Keeps.of_state
  intro s hs
  unfold subActive
  split <;> exact ⟨hs.next, hs.layers⟩

theorem sweep_within (disableOnExit : Bool) : Prog.Keeps (Within ids next) (sweep disableOnExit) := by
  refine .of_eq fun s hs => .get_bind (.bind (.set ?_) fun _ => .bind (subActive_within _) fun _ => ?_)
  · exact hs.of_subset rfl fun l hl => ⟨l, (List.takeWhile_sublist _).subset hl, rfl⟩
  · exact .ite (fun _ => .modify fun t ht => ⟨ht.next, ht.layers⟩) fun _ => Prog.Keeps.pure

end Sessions

namespace Session

open Sessions (Within subActive_within sweep_within)

variable {ids : Set Nat} {next : Nat}

theorem finish_within (how : Finish) (session : Session) :
    Prog.Keeps (Within ids next) (finish how session) := by
  cases session with
  | none => exact .pure
  | some id =>
    refine .of_eq fun s hs => .get_bind ?_
    have he {e : SessionError} : Prog.Triple (· = s) (throw e : SessionM Unit)
        (fun _ => Within ids next) (Within ids next) := .throw fun t ht => ht ▸ hs
    rcases hlo : locate id s.layers with _ | ⟨below, layer, above⟩
    · exact he
    · obtain ⟨hla, -⟩ := locate_split hlo
      have hb : ∀ l ∈ below, l ∈ s.layers := fun l hl => hla ▸ List.mem_append_left _ hl
      -- whatever stack is left, the counters and the sweep take no new id
      have hle {layers : List OverlayLayer} (hsu : ∀ l ∈ layers, ∃ l' ∈ s.layers, l'.id = l.id)
          (count : Nat) (disableOnExit : Bool) : Prog.Triple (· = s) (do
            set { s with layers := layers }
            Sessions.subActive count
            Sessions.sweep disableOnExit : SessionM Unit)
          (fun _ => Within ids next) (Within ids next) :=
        .bind (.set (hs.withLayers hsu)) fun _ => .bind (subActive_within count) fun _ =>
          sweep_within disableOnExit
      dsimp only
      refine .ite (fun _ => he) fun _ => .ite (fun _ => he) fun _ => ?_
      cases how with
      | commit =>
        apply hle
        intro l hl
        rcases List.mem_append.mp hl with hl | hl
        · exact ⟨l, hb l hl, rfl⟩
        · rcases List.mem_cons.mp hl with rfl | hl
          · exact ⟨layer, by simp [hla], rfl⟩
          · exact ⟨l, by simp [hla, hl], rfl⟩
      | merge =>
        dsimp only
        split
        · exact he
        · next predecessor hlas =>
          apply hle
          intro l hl
          rcases List.mem_append.mp hl with hl | hl
          · exact ⟨l, hb l (List.mem_of_mem_dropLast hl), rfl⟩
          · rw [List.mem_singleton.mp hl]
            exact ⟨predecessor, hb _ (List.mem_of_getLast? hlas), rfl⟩
      | revoke =>
        apply hle
        exact fun l hl => ⟨l, hb l hl, rfl⟩

theorem commitWithCheckpoint_within (session : Session) (point : CursorPoint) :
    Prog.Keeps (Within ids next) (commitWithCheckpoint session point) := by
  cases session with
  | none => exact .pure
  | some id =>
    refine .of_eq fun s hs => .get_bind ?_
    have he {e : SessionError} : Prog.Triple (· = s) (throw e : SessionM Unit)
        (fun _ => Within ids next) (Within ids next) := .throw fun t ht => ht ▸ hs
    rcases hlo : locate id s.layers with _ | ⟨below, layer, above⟩
    · exact he
    · obtain ⟨hla, -⟩ := locate_split hlo
      dsimp only
      refine .ite (fun _ => he) fun _ => .bind (.set (hs.withLayers ?_)) fun _ =>
        .bind (subActive_within 1) fun _ => .modify fun t ht => ⟨ht.next, ht.layers⟩
      intro l hl
      rcases List.mem_append.mp hl with hl | hl
      · exact ⟨l, by simp [hla, hl], rfl⟩
      · rcases List.mem_cons.mp hl with rfl | hl
        · exact ⟨layer, by simp [hla], rfl⟩
        · exact ⟨l, by simp [hla, hl], rfl⟩

theorem close_within (session : Session) : Prog.Keeps (Within ids next) (close session) := by
  cases session with
  | none => exact .pure
  | some id =>
    refine .of_eq fun s hs => .get_bind ?_
    rcases hlo : locate id s.layers with _ | ⟨below, layer, above⟩
    · exact .throw fun t ht => ht ▸ hs
    · obtain ⟨hla, -⟩ := locate_split hlo
      dsimp only
      refine .ite (fun _ => .bind (.set (hs.withLayers ?_)) fun _ =>
        .bind (subActive_within 1) fun _ => Prog.Keeps.throw) fun _ => ?_
      · intro l hl
        rcases List.mem_append.mp hl with hl | hl
        · exact ⟨l, by simp [hla, hl], rfl⟩
        · rcases List.mem_cons.mp hl with rfl | hl
          · exact ⟨layer, by simp [hla], rfl⟩
          · exact ⟨l, by simp [hla, hl], rfl⟩
      · exact (finish_within .revoke (some id)).conseq (fun t ht => ht ▸ hs) (fun _ _ h => h)
          fun _ h => h

theorem mutate_within (session : Session) (key : RowKey) (value : Write Bytes) :
    Prog.Keeps (Within ids next) (mutate session key value) := by
  apply Prog.Keeps.of_state
  intro s hs
  unfold mutate
  split
  · next layer hla =>
    split
    · refine hs.of_subset rfl ?_
      intro l hl
      rcases List.mem_append.mp hl with hl | hl
      · exact ⟨l, List.mem_of_mem_dropLast hl, rfl⟩
      · rw [List.mem_singleton.mp hl]
        exact ⟨layer, List.mem_of_getLast? hla, rfl⟩
    · exact hs
  · exact hs

end Session

theorem Sessions.resetPendingOuter_within {ids : Set Nat} {next : Nat} (outer : SessionHandle) :
    Prog.Triple (Within ids next) (resetPendingOuter outer)
      (fun id t => id = some next ∧ t.Within (insert next ids) (next + 1)) (Within ids next) := by
  unfold resetPendingOuter
  cases outer.id with
  | none => exact .throw fun t ht => ht
  | some id =>
    refine .of_eq fun s hs => .get_bind ?_
    have he {e : SessionError} : Prog.Triple (· = s) (throw e : SessionM Session)
        (fun id t => id = some next ∧ t.Within (insert next ids) (next + 1)) (Within ids next) :=
      .throw fun t ht => ht ▸ hs
    dsimp only
    refine .ite (fun _ => he) fun _ => ?_
    rcases hlo : locate id s.layers with _ | ⟨below, layer, above⟩
    · exact he
    · obtain ⟨hla, -⟩ := locate_split hlo
      dsimp only
      refine .ite (fun _ => he) fun _ => .ite (fun _ => he) fun _ => ?_
      refine .bind (.set (hs.withLayers ?_)) fun _ => .bind (subActive_within _) fun _ => ?_
      · exact fun l hl => ⟨l, hla ▸ List.mem_append_left _ hl, rfl⟩
      · refine .of_eq fun t ht => .modify_bind (.pure ?_)
        rintro _ rfl
        refine ⟨congrArg some hs.next, congrArg (· + 1) ht.next, ?_⟩
        intro l hl
        rcases List.mem_append.mp hl with hl | hl
        · exact .inr (ht.layers l hl)
        · rw [List.mem_singleton.mp hl]
          exact .inl ht.next

namespace SessionHandle

open Sessions (Within)

variable {ids : Set Nat} {next : Nat} {s : Sessions}

/-- A call on a handle leaves it its layer, and takes no new id. -/
structure Leaves (ids : Set Nat) (next : Nat) (h : SessionHandle)
    (outcome : Except SessionError Unit × SessionHandle × Sessions) : Prop where
  id : outcome.2.1.id = h.id
  manager : outcome.2.2.Within ids next

theorem Leaves.settle {h : SessionHandle} {outcome : Except SessionError Unit × Sessions}
    (ho : outcome.2.Within ids next) : Leaves ids next h (h.settle outcome) := by
  unfold SessionHandle.settle
  split <;> exact ⟨rfl, ho⟩

theorem Leaves.withLayer {h : SessionHandle} (hs : s.Within ids next)
    {f : Session → List OverlayLayer → Except SessionError Unit × SessionHandle × Sessions}
    (hf : ∀ session above, Leaves ids next h (f session above)) :
    Leaves ids next h (h.withLayer s f) := by
  apply withLayer_rule
  · rintro h' result (rfl | rfl) -
    · exact ⟨rfl, hs⟩
    · exact ⟨rfl, hs⟩
  · exact fun id below layer above _ _ => hf (some id) above

theorem finish_leaves (how : Finish) (h : SessionHandle) (hs : s.Within ids next) :
    Leaves ids next h (h.finish how s) :=
  .withLayer hs fun session _ => .settle ((Session.finish_within how session).state hs)

theorem commitWithCheckpoint_leaves (point : CursorPoint) (h : SessionHandle)
    (hs : s.Within ids next) : Leaves ids next h (h.commitWithCheckpoint point s) :=
  .withLayer hs fun session _ => .settle ((Session.commitWithCheckpoint_within session point).state hs)

theorem close_leaves (h : SessionHandle) (hs : s.Within ids next) :
    Leaves ids next h (h.close s) := by
  refine .withLayer hs fun session above => ?_
  split
  · have hc := (Session.close_within session).state hs
    split <;> next hr => rw [hr] at hc; exact ⟨rfl, hc⟩
  · exact finish_leaves .revoke h hs

theorem drop_leaves (h : SessionHandle) (hs : s.Within ids next) : Leaves ids next h (h.drop s) := by
  have hc := close_leaves h hs
  exact ⟨hc.id, hc.manager⟩

end SessionHandle

/-! ## The ids of a run of sessions -/

namespace SessionRun

open Sessions (Within)
open SessionHandle (Leaves)

variable {ids held : Set Nat} {next : Nat} {r : SessionRun}

/-- The next id is `next`, the layers have ids of `ids`, and the handles name ids of `held`. -/
structure Names (ids held : Set Nat) (next : Nat) (r : SessionRun) : Prop where
  manager : r.manager.Within ids next
  handles : ∀ h ∈ r.handles, ∀ id, h.id = some id → id ∈ held

/-- The ids after a call that may take the next one. -/
def Advances (ids held : Set Nat) (next : Nat) (r : SessionRun) : Prop :=
  Names ids held next r ∨
    next + 1 < 2 ^ 64 ∧ Names (insert next ids) (insert next held) (next + 1) r

theorem onHandle_names {i : Nat}
    {op : SessionHandle → Sessions → Except SessionError Unit × SessionHandle × Sessions}
    (hop : ∀ h s, s.Within ids next → Leaves ids next h (op h s)) :
    Prog.Keeps (Names ids held next) (onHandle i op) := by
  apply Prog.Keeps.of_state
  intro r hr
  unfold onHandle
  split
  · exact hr
  · next h hi =>
    obtain ⟨hid, hm⟩ := hop h r.manager hr.manager
    refine ⟨hm, ?_⟩
    intro h' hh' id hn
    rcases List.mem_or_eq_of_mem_set hh' with hme | rfl
    · exact hr.handles h' hme id hn
    · exact hr.handles h (List.mem_of_getElem? hi) id (hid.symm.trans hn)

theorem takeOuter_names (p i : Nat) (how : Finish) :
    Prog.Keeps (Names ids held next) (takeOuter p i how) := by
  have hfi : Prog.Keeps (Names ids held next) (onHandle i (SessionHandle.finish how)) :=
    onHandle_names fun h s hs => SessionHandle.finish_leaves how h hs
  apply Prog.Keeps.of_state
  intro r hr
  have hf := hfi.state hr
  unfold takeOuter
  split
  · exact hr
  · next id _ =>
    split
    · next r' hru =>
      rw [hru] at hf
      refine ⟨⟨?_, ?_⟩, hf.handles⟩
      · unfold Sessions.releasePendingOuter
        split <;> exact hf.manager.next
      · rw [releasePendingOuter_layers]
        exact hf.manager.layers
    · next e r' hru =>
      rw [hru] at hf
      exact hf

theorem dropOuter_names (p i : Nat) : Prog.Keeps (Names ids held next) (dropOuter p i) := by
  apply Prog.Keeps.of_state
  intro r hr
  have ht := (takeOuter_names p i .revoke).state hr
  have hd := (onHandle_names (i := i) fun h s hs => SessionHandle.drop_leaves h hs).state ht
  exact ⟨hd.manager, hd.handles⟩

theorem onOuter_names {p : Nat} {absent : Except SessionError Unit}
    {f : Nat → Prog SessionRun SessionError Unit} {Q : SessionRun → Prop} (ha : Q r)
    (hf : ∀ i, Q (f i r).2) : Q (onOuter p absent f r).2 := by
  unfold onOuter
  split
  · exact hf _
  · exact ha

/-- **Opening a layer** takes the next id, or leaves the ids. -/
theorem opening_advances (hr : r.Names ids held next) (hp : 1 ≤ next) (hlt : next + 1 < 2 ^ 64)
    {build : SessionM Session} (hb : r.manager.Opens (build r.manager)) :
    Advances ids held next (opening build r).2 := by
  have hne := hr.manager.next
  unfold opening
  rcases hb with ⟨result, hru, -, hno⟩ | ⟨enable, outer, hru⟩
  · rw [hru]
    cases result with
    | error e => exact .inl hr
    | ok id =>
      dsimp only
      rw [Sessions.wrapNextId_eq (by omega) (by omega)]
      refine .inl ⟨hr.manager, ?_⟩
      intro h hh id' hn
      rcases List.mem_append.mp hh with hh | hh
      · exact hr.handles h hh id' hn
      · rw [List.mem_singleton.mp hh, hno id rfl] at hn
        cases hn
  · rw [hru]
    dsimp only
    rw [Sessions.wrapNextId_eq (Nat.le_add_left _ _) (show r.manager.nextId + 1 < _ by omega)]
    refine .inr ⟨hlt, ⟨congrArg (· + 1) hne, ?_⟩, ?_⟩
    · intro l hl
      rcases List.mem_append.mp hl with hl | hl
      · exact .inr (hr.manager.layers l hl)
      · rw [List.mem_singleton.mp hl]
        exact .inl hne
    · intro h hh id hn
      rcases List.mem_append.mp hh with hh | hh
      · exact .inr (hr.handles h hh id hn)
      · rw [List.mem_singleton.mp hh] at hn
        cases hn
        exact .inl hne

theorem child_advances (hr : r.Names ids held next) (hp : 1 ≤ next) (hlt : next + 1 < 2 ^ 64)
    (i : Nat) : Advances ids held next (child i r).2 := by
  unfold child
  split
  · exact .inl hr
  · split
    · exact .inl hr
    · exact opening_advances hr hp hlt (Sessions.buildChild_opens _)

theorem pendingNew_advances (hr : r.Names ids held next) (hp : 1 ≤ next)
    (hlt : next + 1 < 2 ^ 64) : Advances ids held next (pendingNew r).2 := by
  have ho := opening_advances hr hp hlt Sessions.buildPendingOuter_opens
  unfold pendingNew
  split <;> next hru =>
    rw [hru] at ho
    exact ho.imp (fun h => ⟨h.manager, h.handles⟩) fun h => ⟨h.1, h.2.manager, h.2.handles⟩

/-- **Replacing the outer layer** takes the next id, or leaves the ids. -/
theorem resetOuter_advances (hr : r.Names ids held next) (hlt : next + 1 < 2 ^ 64) (i : Nat) :
    Advances ids held next (resetOuter i r).2 := by
  unfold resetOuter
  split
  · exact .inl hr
  · next outer hi =>
    have hre := @Sessions.resetPendingOuter_within ids next outer
    split
    · next hru =>
      obtain ⟨rfl, hw⟩ := hre.of_run hr.manager hru
      have hne := hw.next
      dsimp only
      rw [Sessions.wrapNextId_eq (by omega) (by omega)]
      refine .inr ⟨hlt, hw, ?_⟩
      intro h hh id hn
      rcases List.mem_or_eq_of_mem_set hh with hm | rfl
      · exact .inr (hr.handles h hm id hn)
      · cases hn
        exact .inl rfl
    · next hru => exact .inl ⟨hre.of_run_error hr.manager hru, hr.handles⟩

/-- **A call on the sessions** takes the next id, or leaves the ids. -/
theorem call_advances (hr : r.Names ids held next) (hp : 1 ≤ next) {c : SessionCall}
    (hl : r.IdLeft c) : Advances ids held next (call c r).2 := by
  have hlt (ho : c.opens = true) : next + 1 < 2 ^ 64 := hr.manager.next ▸ hl ho
  cases c with
  | enable => exact .inl ⟨⟨hr.manager.next, hr.manager.layers⟩, hr.handles⟩
  | disable =>
    show Advances ids held next (disable r).2
    unfold disable
    split
    · exact .inl hr
    · exact .inl ⟨⟨hr.manager.next, hr.manager.layers⟩, hr.handles⟩
  | buildSession => exact opening_advances hr hp (hlt rfl) (Sessions.buildRoot_opens false)
  | buildSessionEnabled => exact opening_advances hr hp (hlt rfl) (Sessions.buildRoot_opens true)
  | child i => exact child_advances hr hp (hlt rfl) i
  | finish how i =>
    exact .inl ((onHandle_names fun h s hs => SessionHandle.finish_leaves how h hs).state hr)
  | commitWithCheckpoint point i =>
    exact .inl ((onHandle_names fun h s hs =>
      SessionHandle.commitWithCheckpoint_leaves point h hs).state hr)
  | close i => exact .inl ((onHandle_names fun h s hs => SessionHandle.close_leaves h hs).state hr)
  | drop i => exact .inl ((onHandle_names fun h s hs => SessionHandle.drop_leaves h hs).state hr)
  | pendingNew => exact pendingNew_advances hr hp (hlt rfl)
  | pendingChild p => exact onOuter_names (.inl hr) fun i => child_advances hr hp (hlt rfl) i
  | pendingReset p => exact onOuter_names (.inl hr) fun i => resetOuter_advances hr (hlt rfl) i
  | pendingCommit p => exact onOuter_names (.inl hr) fun i => .inl ((takeOuter_names p i .commit).state hr)
  | pendingClose p => exact onOuter_names (.inl hr) fun i => .inl ((takeOuter_names p i .revoke).state hr)
  | pendingDrop p => exact onOuter_names (.inl hr) fun i => .inl ((dropOuter_names p i).state hr)

end SessionRun

end RustTron.State
