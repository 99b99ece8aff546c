import RustTron.State.Session.Capabilities
import RustTron.State.Restart
import RustTron.State.TimeTravel
import Mathlib

/-!
# Stale capabilities

A session and the stores taken from it name their layer by its id, and go on doing so after the
layer is gone. That is harmless as long as no later layer has the id. A load of a publication brings
layers with ids of their own and sets the counter right above them, so that ids that were handed
out since the publication come again.

## Main definitions

* `CapabilityRun`, `CapabilityRun.call`: a manager with its handles and stores, and every call on
  them, the calls of the checkpoint stack included
* `CapabilityRun.Clear`: a load that brings back no id that was handed out
* `Powerless`: an id by which nothing is read or changed

## Main results

* `CapabilityRun.Inv.call`: what a call keeps, and that no layer comes back
* `CapabilityRun.isolation`: what is stale is powerless, over every run of clear loads
-/

namespace RustTron.State

namespace Sessions

def injectCommittedPendingOuter : SessionM Unit := do
  let s ← get
  match s.pendingOuter with
  | none => throw .invalidSession
  | some id =>
    match locate id s.layers with
    | none => throw .invalidSession
    | some (below, layer, above) =>
      if layer.committed || layer.abandoned then throw .invalidSession
      else
        set { s with layers := below ++ { layer with committed := true } :: above }
        subActive 1

/-- The publication that `recover_and_relink` loads, where it comes to that: no session is active,
the batch that completes a staged publication does not fail, and the bytes can be decoded. -/
def loads (limits : CheckpointLimits) (s : Sessions) : Option CheckpointState := do
  let p ← s.root.publication
  guard (s.active = 0 ∧ (s.root.staged = none ∨ s.root.faults.head? ≠ some true))
  (p.decode limits).toOption

/-- The publication that `compact_finalized` loads, where it comes to that. -/
def compacts (limits : CheckpointLimits) (s : Sessions) (anchor : CursorPoint) :
    Option CheckpointState := do
  let current ← s.checkpointState.toOption
  let anchorIndex ← current.history.findIdx? fun entry => entry.point = anchor
  guard (s.root.faults.head? ≠ some true)
  let retained : CheckpointState :=
    ⟨current.layers.drop (min anchorIndex current.layers.length),
      CheckpointStack.orphanFirst (current.history.drop anchorIndex)⟩
  let encoded ← (retained.encode limits).toOption
  (encoded.decode limits).toOption

end Sessions

/-! ## Calls -/

/-- The calls on a manager and its checkpoint stack that load no publication. The root may change
in between: its rows are written to, and other batches fail. -/
inductive ManagerCall where
  | record (point : CursorPoint)
  | rewind (identity : CheckpointIdentity)
  | pop
  | destroy
  | shutdown
  | flush
  | flushBounded
  | forceReset
  | injectCommitted
  | persist
  | retreat (count : Nat)
  | recover
  | durable (root : StateStore)

/-- The calls that load one. -/
inductive LoadCall where
  | recoverAndRelink
  | relink
  | compact (anchor : CursorPoint)

/-- The manager after a call, whether it fails or not. -/
def ManagerCall.run (limits : CheckpointLimits) (s : Sessions) : ManagerCall → Sessions
  | record point => (Sessions.recordCheckpoint point s).2
  | rewind identity => (Sessions.rewindCheckpoint identity s).2
  | pop => (Sessions.popLayer s).2
  | destroy => (Sessions.destroy s).2
  | shutdown => (Sessions.shutdownUnflushed s).2
  | flush => (Sessions.flushCommitted s).2
  | flushBounded => (CheckpointStack.flushBounded limits s).2
  | forceReset => s.forceResetPendingOuter
  | injectCommitted => (Sessions.injectCommittedPendingOuter s).2
  | persist => (CheckpointStack.persist limits s).2
  | retreat count => (CheckpointStack.retreatWith limits count s).2
  | recover => (CheckpointStack.recoverStore limits s).2
  | durable root => { s with root := root }

/-- The manager after a load. The counter wraps as it does where an id is taken. -/
def LoadCall.run (limits : CheckpointLimits) (s : Sessions) : LoadCall → Sessions
  | recoverAndRelink => (CheckpointStack.recoverAndRelink limits s).2.wrapNextId
  | relink => (CheckpointStack.relink limits s).2.wrapNextId
  | compact anchor => (CheckpointStack.compactFinalized limits anchor s).2.wrapNextId

/-- The publication that a call loads. -/
def LoadCall.loads (limits : CheckpointLimits) (s : Sessions) : LoadCall → Option CheckpointState
  | recoverAndRelink => s.loads limits
  | relink => s.loads limits
  | compact anchor => s.compacts limits anchor

open Sessions (Within)

section Within

variable {ids : Set Nat} {next : Nat} {s t : Sessions} {limits : CheckpointLimits}

theorem commitBatch_within (write : StateStore → StateStore) :
    Prog.Keeps (Within ids next) (commitBatch write) := by
  apply Prog.Keeps.of_state
  intro s hs
  rcases CheckpointStack.commitBatch_cases write s with ⟨faults, hr⟩ | ⟨e, faults, hr⟩ <;>
    rw [hr] <;> exact ⟨hs.next, hs.layers⟩

theorem publish_within (checkpoint : CheckpointState) :
    Prog.Keeps (Within ids next) (CheckpointStack.publish limits checkpoint) := by
  refine .ite (fun _ => Prog.Keeps.throw_bind) fun _ => ?_
  exact .bind .ofExcept fun _ => .bind (commitBatch_within _) fun _ =>
    .bind (commitBatch_within _) fun _ => .pure

theorem flushCommitted_within : Prog.Keeps (Within ids next) Sessions.flushCommitted := by
  refine .bind .get fun s => .ite (fun _ => .throw_bind) fun _ =>
    .ite (fun _ => .throw_bind) fun _ => ?_
  have hc : Prog.Keeps (Within ids next) (do
      modify fun s => { s with layers := [] }
      pure s.layers.length : SessionM Nat) :=
    .bind (.modify fun t ht => ⟨ht.next, by simp⟩) fun _ => .pure
  exact .ite (fun _ => .bind (.mapError (commitBatch_within _)) fun _ => hc) fun _ => hc

theorem retreatWith_within (count : Nat) :
    Prog.Keeps (Within ids next) (CheckpointStack.retreatWith limits count) := by
  refine .ite (fun _ => .throw_bind) fun _ => .bind .get fun s =>
    .bind .ofExcept fun current => .bind (publish_within _) fun _ =>
      .bind (.modify fun t ht => ?_) fun _ => .pure
  exact ⟨ht.next, fun l hl => ht.layers l (List.mem_of_mem_take hl)⟩

theorem recoverStore_within : Prog.Keeps (Within ids next) (CheckpointStack.recoverStore limits) := by
  refine .bind .get fun s => ?_
  split
  · exact .pure
  · exact .bind .ofExcept fun _ => .bind (commitBatch_within _) fun _ => .pure

theorem injectCommitted_within :
    Prog.Keeps (Within ids next) Sessions.injectCommittedPendingOuter := by
  refine .of_eq fun s hs => .get_bind ?_
  have he {e : SessionError} : Prog.Triple (· = s) (throw e : SessionM Unit)
      (fun _ => Within ids next) (Within ids next) := .throw fun t ht => ht ▸ hs
  split
  · exact he
  · next id _ =>
    rcases hlo : locate id s.layers with _ | ⟨below, layer, above⟩
    · exact he
    · obtain ⟨hla, -⟩ := locate_split hlo
      dsimp only
      refine .ite (fun _ => he) fun _ => .bind (.set (hs.withLayers ?_)) fun _ =>
        Sessions.subActive_within 1
      intro l hl
      rcases List.mem_append.mp hl with hl | hl
      · exact ⟨l, by simp [hla, hl], rfl⟩
      · rcases List.mem_cons.mp hl with rfl | hl
        · exact ⟨layer, by simp [hla], rfl⟩
        · exact ⟨l, by simp [hla, hl], rfl⟩

theorem forceReset_within (h : s.Within ids next) : s.forceResetPendingOuter.Within ids next := by
  unfold Sessions.forceResetPendingOuter
  split
  · exact h
  · next id _ =>
    dsimp only
    rcases hlo : locate id s.layers with _ | ⟨below, layer, above⟩
    · exact ⟨h.next, h.layers⟩
    · obtain ⟨hla, -⟩ := locate_split hlo
      exact ⟨h.next, fun l hl => h.layers l (hla ▸ List.mem_append_left _ hl)⟩

/-- **A call that loads nothing** takes no id. -/
theorem ManagerCall.run_within (h : s.Within ids next) (c : ManagerCall) :
    (c.run limits s).Within ids next := by
  cases c with
  | record point =>
    show (Sessions.recordCheckpoint point s).2.Within ids next
    unfold Sessions.recordCheckpoint
    split_ifs <;> exact ⟨h.next, h.layers⟩
  | rewind identity =>
    rcases Sessions.rewindCheckpoint_cases identity s with hr | hr <;>
      rw [ManagerCall.run, hr]
    · exact h
    · exact ⟨h.next, fun l hl => h.layers l (List.mem_of_mem_take hl)⟩
  | pop =>
    show (Sessions.popLayer s).2.Within ids next
    unfold Sessions.popLayer
    split
    · exact h
    · split
      · split
        · exact ⟨h.next, fun l hl => h.layers l (List.mem_of_mem_dropLast hl)⟩
        · exact h
      · exact h
  | destroy =>
    show (Sessions.destroy s).2.Within ids next
    unfold Sessions.destroy
    split
    · exact h
    · exact ⟨h.next, by simp⟩
  | shutdown =>
    show (Sessions.shutdownUnflushed s).2.Within ids next
    unfold Sessions.shutdownUnflushed
    split
    · exact h
    · exact ⟨h.next, by simp⟩
  | flush => exact flushCommitted_within.state h
  | flushBounded =>
    have hk : Prog.Keeps (Within ids next) (CheckpointStack.flushBounded limits) :=
      .bind .get fun s => .ite (fun _ => .throw_bind) fun _ =>
        .mapError flushCommitted_within
    exact hk.state h
  | forceReset => exact forceReset_within h
  | injectCommitted => exact injectCommitted_within.state h
  | persist =>
    obtain ⟨root, hr, -⟩ := CheckpointStack.persist_same limits s
    rw [ManagerCall.run, hr]
    exact ⟨h.next, h.layers⟩
  | retreat count => exact (retreatWith_within count).state h
  | recover => exact recoverStore_within.state h
  | durable root => exact ⟨h.next, h.layers⟩

end Within

/-! ## Loads -/

section Loads

variable {limits : CheckpointLimits} {s : Sessions}

/-- A call that has changed the root only, or has loaded this publication. -/
def Sessions.Reloads (s : Sessions) (loaded : Option CheckpointState) (t : Sessions) : Prop :=
  (∃ root, t = { s with root := root }) ∨
    ∃ p root, loaded = some p ∧ t = Sessions.reloaded { s with root := root } p

theorem commitBatch_head {write : StateStore → StateStore} {t : Sessions}
    (h : commitBatch write s = (.ok (), t)) : s.root.faults.head? ≠ some true := by
  intro hh
  unfold commitBatch at h
  split at h
  · cases h
  · next hf =>
    rw [hf] at hh
    cases hh
  · next hf =>
    rw [hf] at hh
    cases hh

theorem recoverAndRelink_reloads (limits : CheckpointLimits) (s : Sessions) :
    s.Reloads (s.loads limits) (CheckpointStack.recoverAndRelink limits s).2 := by
  -- the load of a publication that is current, from any state of the root
  have hc {t : Sessions} {loaded : Option CheckpointState} (hs : t.root.staged = none)
      (hro : t = { s with root := t.root })
      (hl : ∀ p, t.root.current = some p → t.active = 0 → p.decode limits = .ok p →
        loaded = some p) :
      s.Reloads loaded (CheckpointStack.recoverAndRelink limits t).2 := by
    have hsa : s.Reloads loaded t := .inl ⟨t.root, hro⟩
    cases hp : t.root.current with
    | none => rwa [CheckpointStack.recoverAndRelink_of_none hs hp]
    | some p =>
      by_cases ha : t.active = 0
      · cases hd : p.decode limits with
        | error e =>
          have hr : CheckpointStack.recoverAndRelink limits t = (.error e, t) := by
            simp only [CheckpointStack.recoverAndRelink, CheckpointStack.recoverStore, Prog.bind_run,
              Prog.get_run, hs, Prog.pure_run, hp, ha, ne_eq, not_true_eq_false, if_false,
              hd, Prog.ofExcept_error_run, id]
          rwa [hr]
        | ok decoded =>
          obtain rfl := (CheckpointState.decode_eq_ok hd).1
          rw [CheckpointStack.recoverAndRelink_eq ha hs hp hd]
          exact .inr ⟨decoded, t.root, hl decoded hp ha hd, by rw [← hro]⟩
      · have hr : (CheckpointStack.recoverAndRelink limits t).2 = t := by
          simp only [CheckpointStack.recoverAndRelink, CheckpointStack.recoverStore, Prog.bind_run,
            Prog.get_run, hs, Prog.pure_run, hp, ne_eq, ha, not_false_eq_true, if_true,
            Prog.throw_run]
        rwa [hr]
  cases hs : s.root.staged with
  | none =>
    refine hc hs rfl fun p hp ha hd => ?_
    simp [Sessions.loads, StateStore.publication, hs, hp, ha, hd, Except.toOption, guard]
  | some p =>
    cases hd : p.decode limits with
    | error e =>
      have hr : CheckpointStack.recoverAndRelink limits s = (.error e, s) := by
        simp only [CheckpointStack.recoverAndRelink, CheckpointStack.recoverStore, Prog.bind_run,
          Prog.get_run, hs, hd, Prog.ofExcept_error_run, id]
      rw [hr]
      exact .inl ⟨s.root, rfl⟩
    | ok decoded =>
      obtain rfl := (CheckpointState.decode_eq_ok hd).1
      rcases hb : commitBatch (fun root => { root with current := some decoded, staged := none }) s
        with ⟨e | _, t⟩
      · rw [CheckpointStack.recoverAndRelink_of_staged_error hs hd hb]
        rcases CheckpointStack.commitBatch_cases
          (fun root => { root with current := some decoded, staged := none }) s with
          ⟨faults, hr⟩ | ⟨e', faults, hr⟩ <;> cases hb.symm.trans hr
        exact .inl ⟨_, rfl⟩
      · rw [CheckpointStack.recoverAndRelink_of_staged hs hd hb]
        have hf := commitBatch_head hb
        obtain ⟨faults, rfl⟩ := CheckpointStack.commitBatch_eq_ok hb
        refine hc rfl rfl fun q hq ha _ => ?_
        obtain rfl : decoded = q := Option.some.inj hq
        have ha : s.active = 0 := ha
        simp [Sessions.loads, StateStore.publication, hs, ha, hd, Except.toOption,
          guard, hf]

theorem relink_state (limits : CheckpointLimits) (s : Sessions) :
    (CheckpointStack.relink limits s).2 = (CheckpointStack.recoverAndRelink limits s).2 := by
  unfold CheckpointStack.relink
  rw [Prog.bind_run]
  rcases CheckpointStack.recoverAndRelink limits s with ⟨_ | _ | _, t⟩ <;> rfl

theorem compactFinalized_reloads (limits : CheckpointLimits) (s : Sessions) (anchor : CursorPoint) :
    s.Reloads (s.compacts limits anchor) (CheckpointStack.compactFinalized limits anchor s).2 := by
  have hs {loaded : Option CheckpointState} : s.Reloads loaded s := .inl ⟨s.root, rfl⟩
  unfold CheckpointStack.compactFinalized Sessions.compacts
  rw [Prog.bind_of_ok (Prog.get_run s)]
  cases hst : s.checkpointState with
  | error e => exact hs
  | ok current =>
    have ha : s.active = 0 := by
      unfold Sessions.checkpointState at hst
      split_ifs at hst with ha
      exact not_not.mp ha
    rw [Prog.bind_of_ok (Prog.ofExcept_ok_run _ _ _)]
    simp only [Except.toOption, Option.bind_eq_bind, Option.bind_some]
    cases hi : current.history.findIdx? fun entry => entry.point = anchor with
    | none => exact hs
    | some anchorIndex =>
      dsimp only
      split
      · exact hs
      · cases he : CheckpointState.encode _ limits with
        | error e => exact hs
        | ok encoded =>
          rw [Prog.bind_of_ok (Prog.ofExcept_ok_run _ _ _), Prog.bind_run]
          rcases hb : commitBatch _ s with ⟨e | _, t⟩
          · unfold commitBatch at hb
            split at hb <;> cases hb
            exact .inl ⟨_, rfl⟩
          · have hf := commitBatch_head hb
            obtain ⟨faults, rfl⟩ := CheckpointStack.commitBatch_eq_ok hb
            -- the rest is the load of what was written in the batch
            generalize hro : List.foldl _ s.root.rows _ = rows
            have hl := recoverAndRelink_reloads limits
              { s with root := ⟨rows, none, some encoded, faults⟩ }
            have hlo : Sessions.loads limits { s with root := ⟨rows, none, some encoded, faults⟩ } =
                (encoded.decode limits).toOption := by
              simp [Sessions.loads, StateStore.publication, ha, guard]
            rw [← relink_state, hlo] at hl
            dsimp only
            rw [Prog.bind_pure_state]
            rcases hl with ⟨root, hr⟩ | ⟨p, root, hp, hr⟩
            · exact .inl ⟨root, hr⟩
            · refine .inr ⟨p, root, ?_, hr⟩
              simpa [hf, guard, he, Except.toOption] using hp

/-- **A load** has changed the root only, or has loaded its publication. -/
theorem LoadCall.run_reloads (limits : CheckpointLimits) (s : Sessions) (c : LoadCall) :
    ∃ t, s.Reloads (c.loads limits s) t ∧ c.run limits s = t.wrapNextId := by
  cases c with
  | recoverAndRelink => exact ⟨_, recoverAndRelink_reloads limits s, rfl⟩
  | relink =>
    refine ⟨_, ?_, rfl⟩
    rw [relink_state]
    exact recoverAndRelink_reloads limits s
  | compact anchor => exact ⟨_, compactFinalized_reloads limits s anchor, rfl⟩

end Loads

/-! ## Stale handles -/

/-- By this id nothing is read but the root, and nothing is changed. -/
structure Powerless (id : Nat) (s : Sessions) : Prop where
  rows : Session.rows (some id) s = ∅
  view : Session.view (some id) s = s.root.rows
  mutate : ∀ key value, Session.mutate (some id) key value s = (.error .invalidSession, s)
  child : Sessions.buildChild (some id) s = (.error .invalidSession, s)
  finish : ∀ how finalized, (SessionHandle.finish how ⟨some id, finalized⟩ s).2.2 = s
  commitWithCheckpoint : ∀ point finalized,
    (SessionHandle.commitWithCheckpoint point ⟨some id, finalized⟩ s).2.2 = s
  close : ∀ finalized, (SessionHandle.close ⟨some id, finalized⟩ s).2.2 = s
  drop : ∀ finalized, (SessionHandle.drop ⟨some id, finalized⟩ s).2.2 = s
  reset : ∀ finalized, Sessions.resetPendingOuter ⟨some id, finalized⟩ s = (.error .invalidSession, s)

theorem locate_eq_none {id : Nat} {layers : List OverlayLayer} (h : ∀ l ∈ layers, l.id ≠ id) :
    locate id layers = none := by
  induction layers with
  | nil => rfl
  | cons layer above ih =>
    rw [locate, if_neg (h layer List.mem_cons_self),
      ih fun l hl => h l (List.mem_cons_of_mem _ hl)]
    rfl

/-- **An id without a layer** is powerless. -/
theorem powerless_of_gone {id : Nat} {s : Sessions} (h : ∀ l ∈ s.layers, l.id ≠ id) :
    Powerless id s := by
  have hl := locate_eq_none h
  have hh (finalized : Bool)
      (f : Session → List OverlayLayer → Except SessionError Unit × SessionHandle × Sessions) :
      (SessionHandle.withLayer ⟨some id, finalized⟩ s f).2.2 = s := by
    unfold SessionHandle.withLayer
    cases finalized <;> simp [hl]
  have ho : Session.ownsTop (some id) s = false := by
    unfold Session.ownsTop
    cases hla : s.layers.getLast? with
    | none => rfl
    | some layer => simp [h layer (List.mem_of_getLast? hla)]
  refine ⟨?_, ?_, ?_, ?_, fun how finalized => hh finalized _,
    fun point finalized => hh finalized _, fun finalized => hh finalized _,
    fun finalized => ?_, ?_⟩
  · rw [Session.rows, ho]
    rfl
  · simp only [Session.view, Option.bind_some, hl]
  · intro key value
    unfold Session.mutate
    rw [ho]
    cases s.layers.getLast? <;> rfl
  · unfold Sessions.buildChild
    cases hla : s.layers.getLast? with
    | none => rfl
    | some layer => simp [h layer (List.mem_of_getLast? hla)]
  · show (SessionHandle.close ⟨some id, finalized⟩ s).2.2 = s
    exact hh finalized _
  · intro finalized
    simp only [Sessions.resetPendingOuter, Prog.bind_run, Prog.get_run, hl]
    split <;> rfl

/-! ## Runs -/

/-- A manager with its handles, the stores taken from them, and the ids handed out. -/
structure CapabilityRun where
  sessions : SessionRun
  stores : List Session
  issued : List Nat

/-- The calls on them. -/
inductive CapabilityCall where
  | session (call : SessionCall)
  | store (handle : Nat)
  | mutate (store : Nat) (key : RowKey) (value : Write Bytes)
  | manager (call : ManagerCall)
  | load (call : LoadCall)

namespace CapabilityRun

/-- A new manager. -/
def start (root : StateStore) : CapabilityRun := ⟨SessionRun.start root, [], []⟩

/-- The run with another state of the manager. -/
def withManager (r : CapabilityRun) (s : Sessions) : CapabilityRun :=
  { r with sessions := { r.sessions with manager := s } }

/-- The run after a call. A call on the sessions that moves the counter has handed out an id. -/
def call (limits : CheckpointLimits) (r : CapabilityRun) : CapabilityCall → CapabilityRun
  | .session c =>
    let sessions := (SessionRun.call c r.sessions).2
    { r with
      sessions := sessions
      issued :=
        if sessions.manager.nextId = r.sessions.manager.nextId then r.issued
        else r.issued ++ [r.sessions.manager.nextId] }
  | .store i =>
    match r.sessions.handles[i]? with
    | some h => { r with stores := r.stores ++ [h.id] }
    | none => r
  | .mutate i key value =>
    match r.stores[i]? with
    | some session => r.withManager (Session.mutate session key value r.sessions.manager).2
    | none => r
  | .manager c => r.withManager (c.run limits r.sessions.manager)
  | .load c => r.withManager (c.run limits r.sessions.manager)

/-- The largest id of a publication. -/
def maxId (p : CheckpointState) : Nat := (p.layers.map (·.id)).foldl max 0

/-- The call takes no id past the last one before the counter wraps. -/
def IdsLeft (limits : CheckpointLimits) (r : CapabilityRun) : CapabilityCall → Prop
  | .session c => r.sessions.IdLeft c
  | .load c => ∀ p ∈ c.loads limits r.sessions.manager, maxId p + 1 < 2 ^ 64
  | _ => True

/-- A load leaves the counter above all ids handed out, and brings back no layer with one of them. -/
def Clear (limits : CheckpointLimits) (r : CapabilityRun) : CapabilityCall → Prop
  | .load c => ∀ p ∈ c.loads limits r.sessions.manager, ∀ id ∈ r.issued,
    id ≤ maxId p ∧ (id ∈ p.layers.map (·.id) → id ∈ r.sessions.manager.layers.map (·.id))
  | _ => True

/-- The id is the one of a handle or of a store. -/
def Held (r : CapabilityRun) (id : Nat) : Prop :=
  (∃ h ∈ r.sessions.handles, h.id = some id) ∨ some id ∈ r.stores

/-- What every call keeps. -/
structure Inv (r : CapabilityRun) : Prop where
  distinct : r.issued.Nodup
  below : ∀ id ∈ r.issued, id < r.sessions.manager.nextId
  positive : 1 ≤ r.sessions.manager.nextId
  bounded : r.sessions.manager.nextId < 2 ^ 64
  held : ∀ id, r.Held id → id ∈ r.issued

/-- An id that was handed out and has no layer. -/
def Gone (r : CapabilityRun) (id : Nat) : Prop :=
  id ∈ r.issued ∧ ∀ l ∈ r.sessions.manager.layers, l.id ≠ id

variable {limits : CheckpointLimits} {root : StateStore} {r r' : CapabilityRun}

theorem Inv.start (root : StateStore) : (start root).Inv where
  distinct := List.nodup_nil
  below := by simp [CapabilityRun.start]
  positive := le_rfl
  bounded := by
    show 1 < 2 ^ 64
    omega
  held := by
    intro id hid
    simp [Held, CapabilityRun.start, SessionRun.start] at hid

theorem Inv.withManager (h : r.Inv) {s : Sessions} (hs : s.Within
    {id | ∃ l ∈ r.sessions.manager.layers, l.id = id} r.sessions.manager.nextId) :
    (r.withManager s).Inv ∧ ∀ id, r.Gone id → (r.withManager s).Gone id := by
  refine ⟨⟨h.distinct, ?_, ?_, ?_, h.held⟩, ?_⟩
  · exact fun id hid => hs.next ▸ h.below id hid
  · exact hs.next ▸ h.positive
  · exact hs.next ▸ h.bounded
  · rintro id ⟨hi, hg⟩
    refine ⟨hi, ?_⟩
    rintro l hl rfl
    obtain ⟨l', hl', hid⟩ := hs.layers l hl
    exact hg l' hl' hid

theorem within_self (s : Sessions) : s.Within {id | ∃ l ∈ s.layers, l.id = id} s.nextId :=
  ⟨rfl, fun l hl => ⟨l, hl, rfl⟩⟩

theorem Inv.session (h : r.Inv) {c : SessionCall} (hle : r.sessions.IdLeft c) :
    (r.call limits (.session c)).Inv ∧ ∀ id, r.Gone id → (r.call limits (.session c)).Gone id := by
  have hna : r.sessions.Names {id | ∃ l ∈ r.sessions.manager.layers, l.id = id}
      {id | id ∈ r.issued} r.sessions.manager.nextId :=
    ⟨within_self _, fun handle hh id hid => h.held id (.inl ⟨handle, hh, hid⟩)⟩
  rcases SessionRun.call_advances hna h.positive hle with hs | ⟨hlt, hn⟩
  · have hi : (r.call limits (.session c)).issued = r.issued := if_pos hs.manager.next
    refine ⟨⟨hi ▸ h.distinct, ?_, ?_, ?_, ?_⟩, ?_⟩
    · intro id hid
      exact hs.manager.next ▸ h.below id (hi ▸ hid)
    · exact hs.manager.next ▸ h.positive
    · exact hs.manager.next ▸ h.bounded
    · rintro id (⟨handle, hh, hid⟩ | hst)
      · exact hi ▸ hs.handles handle hh id hid
      · exact hi ▸ h.held id (.inr hst)
    · rintro id ⟨hid, hg⟩
      refine ⟨hi ▸ hid, ?_⟩
      rintro l hl rfl
      obtain ⟨l', hl', hs'⟩ := hs.manager.layers l hl
      exact hg l' hl' hs'
  · have hne := hn.manager.next
    have hi : (r.call limits (.session c)).issued =
        r.issued ++ [r.sessions.manager.nextId] := if_neg (by omega)
    have hf : r.sessions.manager.nextId ∉ r.issued := fun hid => (h.below _ hid).false
    refine ⟨⟨?_, ?_, ?_, ?_, ?_⟩, ?_⟩
    · rw [hi, List.nodup_append]
      refine ⟨h.distinct, List.nodup_singleton _, ?_⟩
      rintro id hid _ hla rfl
      exact hf (List.mem_singleton.mp hla ▸ hid)
    · intro id hid
      show id < (SessionRun.call c r.sessions).2.manager.nextId
      rw [hi] at hid
      rcases List.mem_append.mp hid with hid | hid
      · have := h.below id hid
        omega
      · have := List.mem_singleton.mp hid
        omega
    · show 1 ≤ (SessionRun.call c r.sessions).2.manager.nextId
      omega
    · show (SessionRun.call c r.sessions).2.manager.nextId < 2 ^ 64
      omega
    · rintro id (⟨handle, hh, hid⟩ | hst) <;> rw [hi]
      · rcases hn.handles handle hh id hid with rfl | hid
        · exact List.mem_append_right _ (List.mem_singleton_self _)
        · exact List.mem_append_left _ hid
      · exact List.mem_append_left _ (h.held id (.inr hst))
    · rintro id ⟨hid, hg⟩
      refine ⟨hi ▸ List.mem_append_left _ hid, ?_⟩
      rintro l hl rfl
      rcases hn.manager.layers l hl with hl' | ⟨l', hl', hs⟩
      · exact hf (hl' ▸ hid)
      · exact hg l' hl' hs

/-- **A clear load** brings back nothing that is gone. -/
theorem Inv.load (h : r.Inv) {c : LoadCall} (hle : r.IdsLeft limits (.load c))
    (hc : r.Clear limits (.load c)) :
    (r.call limits (.load c)).Inv ∧ ∀ id, r.Gone id → (r.call limits (.load c)).Gone id := by
  obtain ⟨t, hr, hru⟩ := c.run_reloads limits r.sessions.manager
  show (r.withManager (c.run limits r.sessions.manager)).Inv ∧
    ∀ id, r.Gone id → (r.withManager (c.run limits r.sessions.manager)).Gone id
  rw [hru]
  rcases hr with ⟨root, rfl⟩ | ⟨p, root, hp, rfl⟩
  · have hw := Sessions.wrapNextId_eq (s := { r.sessions.manager with root := root })
      h.positive h.bounded
    rw [hw]
    exact h.withManager ⟨rfl, (within_self _).layers⟩
  · have hn : (Sessions.reloaded { r.sessions.manager with root := root } p).nextId =
        maxId p + 1 := rfl
    have hlt : maxId p + 1 < 2 ^ 64 := hle p hp
    rw [Sessions.wrapNextId_eq (hn ▸ Nat.le_add_left 1 _) (hn ▸ hlt)]
    refine ⟨⟨h.distinct, ?_, ?_, ?_, h.held⟩, ?_⟩
    · exact fun id hid => Nat.lt_succ_of_le (hc p hp id hid).1
    · exact Nat.le_add_left 1 _
    · exact hlt
    · rintro id ⟨hid, hg⟩
      refine ⟨hid, ?_⟩
      rintro l hl rfl
      obtain ⟨layer, hla, rfl⟩ := List.mem_map.mp hl
      obtain ⟨l', hl', hs⟩ := List.mem_map.mp
        ((hc p hp _ hid).2 (List.mem_map_of_mem hla))
      exact hg l' hl' hs

/-- **Every call** keeps the invariant, and what is gone stays gone. -/
theorem Inv.call (h : r.Inv) {c : CapabilityCall} (hl : r.IdsLeft limits c)
    (hc : r.Clear limits c) :
    (r.call limits c).Inv ∧ ∀ id, r.Gone id → (r.call limits c).Gone id := by
  cases c with
  | session c => exact h.session hl
  | load c => exact h.load hl hc
  | manager c => exact h.withManager (c.run_within (within_self _))
  | mutate i key value =>
    cases hs : r.stores[i]? with
    | none =>
      have hr : r.call limits (.mutate i key value) = r := by simp only [CapabilityRun.call, hs]
      rw [hr]
      exact ⟨h, fun id hid => hid⟩
    | some session =>
      have hr : r.call limits (.mutate i key value) =
          r.withManager (Session.mutate session key value r.sessions.manager).2 := by
        simp only [CapabilityRun.call, hs]
      rw [hr]
      exact h.withManager ((Session.mutate_within session key value).state (within_self _))
  | store i =>
    cases hh : r.sessions.handles[i]? with
    | none =>
      have hr : r.call limits (.store i) = r := by simp only [CapabilityRun.call, hh]
      rw [hr]
      exact ⟨h, fun id hid => hid⟩
    | some handle =>
      have hr : r.call limits (.store i) = { r with stores := r.stores ++ [handle.id] } := by
        simp only [CapabilityRun.call, hh]
      rw [hr]
      refine ⟨⟨h.distinct, h.below, h.positive, h.bounded, ?_⟩, fun id hid => hid⟩
      rintro id (hid | hs)
      · exact h.held id (.inl hid)
      · rcases List.mem_append.mp hs with hs | hs
        · exact h.held id (.inr hs)
        · exact h.held id (.inl ⟨handle, List.mem_of_getElem? hh,
            (List.mem_singleton.mp hs).symm⟩)

/-- A call that meets a condition. -/
def Next (limits : CheckpointLimits) (ok : CapabilityRun → CapabilityCall → Prop)
    (r r' : CapabilityRun) : Prop :=
  ∃ c, ok r c ∧ r' = r.call limits c

/-- Ids are left, and loads are clear. -/
def Isolated (limits : CheckpointLimits) (r : CapabilityRun) (c : CapabilityCall) : Prop :=
  r.IdsLeft limits c ∧ r.Clear limits c

theorem Inv.leads (h : r.Inv) (hl : Relation.ReflTransGen (Next limits (Isolated limits)) r r') :
    r'.Inv ∧ ∀ id, r.Gone id → r'.Gone id := by
  induction hl with
  | refl => exact ⟨h, fun id hid => hid⟩
  | tail _ hn ih =>
    obtain ⟨c, hok, rfl⟩ := hn
    obtain ⟨hi, hg⟩ := ih.1.call hok.1 hok.2
    exact ⟨hi, fun id hid => hg id (ih.2 id hid)⟩

/-- **Stale handles and stores are powerless**, in every run whose loads are clear: no id is handed
out twice, and one whose layer is gone never has a layer again. -/
theorem isolation (h : Relation.ReflTransGen (Next limits (Isolated limits)) (start root) r)
    (hlater : Relation.ReflTransGen (Next limits (Isolated limits)) r r') :
    r'.issued.Nodup ∧ ∀ id, r.Held id → (∀ l ∈ r.sessions.manager.layers, l.id ≠ id) →
      Powerless id r'.sessions.manager := by
  have hinv := ((Inv.start root).leads h).1
  obtain ⟨hinv', hgone⟩ := hinv.leads hlater
  refine ⟨hinv'.distinct, ?_⟩
  intro id hheld hlayers
  exact powerless_of_gone (hgone id ⟨hinv.held id hheld, hlayers⟩).2

instance (limits : CheckpointLimits) (r : CapabilityRun) (c : CapabilityCall) :
    Decidable (r.IdsLeft limits c) :=
  match c with
  | .session c =>
    inferInstanceAs (Decidable (c.opens = true → r.sessions.manager.nextId + 1 < 2 ^ 64))
  | .load c =>
    inferInstanceAs (Decidable (∀ p ∈ c.loads limits r.sessions.manager, maxId p + 1 < 2 ^ 64))
  | .store _ | .mutate _ _ _ | .manager _ => .isTrue trivial

instance (limits : CheckpointLimits) (r : CapabilityRun) (c : CapabilityCall) :
    Decidable (r.Clear limits c) :=
  match c with
  | .load c => inferInstanceAs (Decidable (∀ p ∈ c.loads limits r.sessions.manager, ∀ id ∈ r.issued,
      id ≤ maxId p ∧ (id ∈ p.layers.map (·.id) → id ∈ r.sessions.manager.layers.map (·.id))))
  | .session _ | .store _ | .mutate _ _ _ | .manager _ => .isTrue trivial

instance (limits : CheckpointLimits) (r : CapabilityRun) (c : CapabilityCall) :
    Decidable (Isolated limits r c) := inferInstanceAs (Decidable (_ ∧ _))

/-- The run after some calls. -/
def callAll (limits : CheckpointLimits) (r : CapabilityRun) (calls : List CapabilityCall) :
    CapabilityRun := calls.foldl (call limits) r

/-- Each of some calls meets a condition. -/
def meets (limits : CheckpointLimits) (ok : CapabilityRun → CapabilityCall → Bool) :
    CapabilityRun → List CapabilityCall → Bool
  | _, [] => true
  | r, c :: calls => ok r c && meets limits ok (r.call limits c) calls

theorem leads_of_meets {ok : CapabilityRun → CapabilityCall → Prop}
    [∀ r c, Decidable (ok r c)] {calls : List CapabilityCall} {r : CapabilityRun}
    (h : meets limits (fun r c => decide (ok r c)) r calls = true) :
    Relation.ReflTransGen (Next limits ok) r (callAll limits r calls) := by
  induction calls generalizing r with
  | nil => exact .refl
  | cons c calls ih =>
    rw [meets, Bool.and_eq_true, decide_eq_true_eq] at h
    exact .head ⟨c, h.1, rfl⟩ (ih h.2)

/-- A session is opened, a store is taken from it, and it is revoked; the next one is committed and
published. -/
def sampleStale : CapabilityRun := callAll .default (start SessionRun.emptyStore)
  [.load .recoverAndRelink, .session .buildSession, .store 0, .session (.finish .revoke 0),
    .session .buildSession, .session (.finish .commit 1), .manager .persist]

/-- The store is powerless after the load of the publication, while a third session is open. -/
theorem isolation_sample :
    (sampleStale.sessions.manager.root.publication.map maxId) = some 2 ∧
      Powerless 1 (callAll .default sampleStale
        [.load .relink, .session .buildSession]).sessions.manager := by
  refine ⟨by decide, ?_⟩
  have hlater := leads_of_meets (show meets .default (fun r c => decide (Isolated .default r c))
    sampleStale [.load .relink, .session .buildSession] = true by decide)
  refine (isolation (leads_of_meets ?_) hlater).2 1 ?_ ?_
  · decide
  · exact .inr (show some 1 ∈ sampleStale.stores by decide)
  · show ∀ l ∈ sampleStale.sessions.manager.layers, l.id ≠ 1
    decide

/-- A session is committed and published; the next one is opened, a store is taken from it, and it
is revoked. -/
def sampleRevoked : CapabilityRun := callAll .default (start SessionRun.emptyStore)
  [.session .buildSession, .session (.finish .commit 0), .manager .persist,
    .session .buildSession, .store 1, .session (.finish .revoke 1)]

/-- After a load, the third session has the id of the second, and the stale store writes to it. -/
theorem stale_store_writes : ¬ ∀ root r r',
    Relation.ReflTransGen (Next .default (IdsLeft .default)) (start root) r →
      Relation.ReflTransGen (Next .default (IdsLeft .default)) r r' →
        r'.issued.Nodup ∧ ∀ id, r.Held id → (∀ l ∈ r.sessions.manager.layers, l.id ≠ id) →
          Powerless id r'.sessions.manager := by
  intro hclaim
  have hlater := leads_of_meets (show meets .default (fun r c => decide (IdsLeft .default r c))
    sampleRevoked [.load .relink, .session .buildSession] = true by decide)
  have hreached : Relation.ReflTransGen (Next .default (IdsLeft .default))
      (start SessionRun.emptyStore) sampleRevoked := leads_of_meets (by decide)
  have hpowerless := (hclaim SessionRun.emptyStore _ _ hreached hlater).2 2 (.inr (show some 2 ∈ sampleRevoked.stores by decide))
    (show ∀ l ∈ sampleRevoked.sessions.manager.layers, l.id ≠ 2 by decide)
  have hwrite := congrArg Prod.fst (hpowerless.mutate ⟨.account, [1]⟩ .delete)
  revert hwrite
  decide

end CapabilityRun

end RustTron.State
