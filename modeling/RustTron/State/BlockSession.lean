import RustTron.State.Session.Stack

/-!
# Whole sessions

A block is applied in a session of its own: its writes, and those of the sessions opened and closed
within it, go to its layer, and the layer is committed, under the checkpoint of the block if it has
one. A session that cannot be committed is dropped.

## Main definitions

* `Work`, `Work.run`: what is done in a session, child sessions included
* `commitSession`, `blockSession`: `build_session`, the work, and the commit
* `Sessions.opened`: a stack with the open layer of a session on top

## Main results

* `Work.run_opened`: the work changes the values of its layer and takes ids, nothing else
* `commitSession_spec`, `blockSession_spec`: the layer is committed on top, or nothing but ids and
  the switch has changed
-/

namespace RustTron.State

/-- What is done in a session: a write, or a child session that is merged or revoked. -/
inductive Work where
  | done
  | write (key : RowKey) (value : Write Bytes) (rest : Work)
  | child (inner : Work) (merged : Bool) (rest : Work)

/-- The work of a session. -/
def Work.run : Work → Session → SessionM Unit
  | done, _ => pure ()
  | write key value rest, session => do
    Session.mutate session key value
    rest.run session
  | child inner merged rest, session => do
    let child ← Sessions.buildChild session
    inner.run child
    if merged then Session.merge child else Session.revoke child
    rest.run session

/-- The end of a session: it is closed, and dropped where that fails. -/
def closeOrDrop (close : Session → SessionM Unit) (applied : SessionM Unit) (session : Session) :
    SessionM Unit := do
  let closed : SessionM Unit := do
    applied
    close session
  match ← (Prog.attempt closed : SessionM (Except SessionError Unit)) with
  | .ok () => pure ()
  | .error e =>
    Session.drop session
    throw e

/-- A session: `build_session` or `build_session_enabled`, the work, and its end. -/
def sessionWith (close : Session → SessionM Unit) (temporarilyEnable : Bool) (work : Work) :
    SessionM Unit := do
  let session ← Sessions.buildRoot temporarilyEnable
  closeOrDrop close (work.run session) session

/-- A session that is committed. -/
def commitSession (temporarilyEnable : Bool) (work : Work) : SessionM Unit :=
  sessionWith (Session.finish .commit) temporarilyEnable work

/-- The session of a block, which ends with `commit_with_checkpoint`. -/
def blockSession (temporarilyEnable : Bool) (work : Work) (point : CursorPoint) : SessionM Unit :=
  sessionWith (fun session => Session.commitWithCheckpoint session point) temporarilyEnable work

namespace Sessions

/-- The stack of `s` with an open layer on top, in an enabled manager. -/
def opened (s : Sessions) (top : OverlayLayer) (nextId : Nat) : Sessions := { s with
  layers := s.layers ++ [top]
  active := s.active + 1
  nextId := nextId
  enabled := true }

variable {s : Sessions} {top : OverlayLayer} {n : Nat}

theorem opened_locate (hid : ∀ l ∈ s.layers, l.id ≠ top.id) :
    locate top.id (s.opened top n).layers = some (s.layers, top, []) := locate_append hid rfl

theorem opened_getLast? : (s.opened top n).layers.getLast? = some top := by
  rw [opened, List.getLast?_concat]

/-- A sweep of a stack without abandoned layers. -/
theorem sweep_kept (h : ∀ l ∈ s.layers, l.abandoned = false) (disableOnExit : Bool) :
    sweep disableOnExit s = (.ok (), { s with enabled := s.enabled && !disableOnExit }) := by
  have hd : s.layers.dropWhile (fun l => !l.abandoned) = [] := by
    rw [List.dropWhile_eq_nil_iff]
    intro l hl
    simp [h l hl]
  cases disableOnExit <;>
    simp [sweep, Prog.bind_run, Prog.get_run, Prog.set_run, hd, takeWhile_kept h, subActive,
      Prog.pure_run, Prog.modify_run]

theorem buildChild_opened (ha : top.isActive = true) :
    buildChild (some top.id) (s.opened top n) =
      (.ok (some n), (s.opened top n).opened ⟨∅, false, false, false, n⟩ (n + 1)) := by
  have hl : top.committed = false ∧ top.abandoned = false := by
    simpa [OverlayLayer.isActive] using ha
  unfold buildChild
  rw [opened_getLast?]
  simp [hl, pushLayer, opened]

theorem mutate_opened (ha : top.isActive = true) (key : RowKey) (value : Write Bytes) :
    Session.mutate (some top.id) key value (s.opened top n) =
      (.ok (), s.opened { top with values := top.values.insert key value } n) := by
  unfold Session.mutate Session.ownsTop
  rw [opened_getLast?]
  simp [ha, opened]

/-- A child session that is revoked leaves its parent. -/
theorem revoke_opened (n : Nat) (hk : ∀ l ∈ s.layers, l.abandoned = false)
    (hid : ∀ l ∈ s.layers, l.id ≠ top.id) (ha : top.isActive = true) :
    Session.revoke (some top.id) (s.opened top n) =
      (.ok (), { s with nextId := n, enabled := !top.disableOnExit }) := by
  have hl : top.committed = false ∧ top.abandoned = false := by
    simpa [OverlayLayer.isActive] using ha
  simp only [Session.revoke, Session.finish, Prog.bind_run, Prog.get_run, opened_locate hid]
  have hs := sweep_kept (s := { s with nextId := n, enabled := true }) hk top.disableOnExit
  simpa [Prog.bind_run, Prog.set_run, subActive, ha, hl, opened] using hs

/-- A child session that is merged leaves its writes to its parent. -/
theorem merge_opened (n m : Nat) (child : OverlayLayer)
    (hk : ∀ l ∈ s.layers, l.abandoned = false)
    (hid : ∀ l ∈ s.layers, l.id ≠ child.id) (hne : top.id ≠ child.id)
    (ht : top.isActive = true) (hc : child.isActive = true)
    (hd : child.disableOnExit = false) :
    Session.merge (some child.id) ((s.opened top n).opened child m) =
      (.ok (), s.opened { top with values := child.values ∪ top.values } m) := by
  have hli : child.committed = false ∧ child.abandoned = false := by
    simpa [OverlayLayer.isActive] using hc
  have hb : ∀ l ∈ (s.opened top n).layers, l.id ≠ child.id := by
    intro l hl
    rcases List.mem_append.mp hl with hl | hl
    · exact hid l hl
    · rw [List.mem_singleton.mp hl]
      exact hne
  have hk' : ∀ l ∈ (s.opened { top with values := child.values ∪ top.values } m).layers,
      l.abandoned = false := by
    intro l hl
    rcases List.mem_append.mp hl with hl | hl
    · exact hk l hl
    · rw [List.mem_singleton.mp hl]
      have hli : top.committed = false ∧ top.abandoned = false := by
        simpa [OverlayLayer.isActive] using ht
      exact hli.2
  simp only [Session.merge, Session.finish, Prog.bind_run, Prog.get_run, opened_locate hb]
  have hs := sweep_kept hk' false
  simpa [Prog.bind_run, Prog.set_run, subActive, hli, hd, opened] using hs

/-- The layers of a stack and the next id, seen from the open layer on top. -/
structure Beneath (s : Sessions) (top : OverlayLayer) (n : Nat) : Prop where
  kept : ∀ l ∈ s.layers, l.abandoned = false
  fresh : ∀ l ∈ s.layers, l.id < n
  other : ∀ l ∈ s.layers, l.id ≠ top.id
  topFresh : top.id < n
  topActive : top.isActive = true

theorem Beneath.child (h : s.Beneath top n) :
    (s.opened top n).Beneath ⟨∅, false, false, false, n⟩ (n + 1) := by
  have hli : top.committed = false ∧ top.abandoned = false := by
    simpa [OverlayLayer.isActive] using h.topActive
  have ha : ∀ l ∈ (s.opened top n).layers, l.abandoned = false ∧ l.id < n := by
    intro l hl
    rcases List.mem_append.mp hl with hl | hl
    · exact ⟨h.kept l hl, h.fresh l hl⟩
    · rw [List.mem_singleton.mp hl]
      exact ⟨hli.2, h.topFresh⟩
  exact ⟨fun l hl => (ha l hl).1, fun l hl => (ha l hl).2.trans (Nat.lt_succ_self n),
    fun l hl => (ha l hl).2.ne, Nat.lt_succ_self n, rfl⟩

theorem Beneath.mono (h : s.Beneath top n) (values : Overlay) {m : Nat} (hle : n ≤ m) :
    s.Beneath { top with values := values } m :=
  ⟨h.kept, fun l hl => (h.fresh l hl).trans_le hle, h.other, h.topFresh.trans_le hle, h.topActive⟩

end Sessions

/-- **The work of a session** changes the values of its layer and takes ids, nothing else. -/
theorem Work.run_opened (work : Work) {s : Sessions} {top : OverlayLayer} {n : Nat}
    (h : s.Beneath top n) :
    ∃ values m, n ≤ m ∧ work.run (some top.id) (s.opened top n) =
      (.ok (), s.opened { top with values := values } m) := by
  induction work generalizing s top n with
  | done => exact ⟨top.values, n, le_rfl, rfl⟩
  | write key value rest ih =>
    rw [Work.run, Prog.bind_of_ok (Sessions.mutate_opened h.topActive key value)]
    exact ih (h.mono (top.values.insert key value) le_rfl)
  | child inner merged rest ihInner ihRest =>
    have hc := h.child
    rw [Work.run, Prog.bind_of_ok (Sessions.buildChild_opened h.topActive)]
    obtain ⟨writes, m, hm, hi⟩ := ihInner hc
    rw [Prog.bind_of_ok hi]
    have hle : n ≤ m := (Nat.le_succ n).trans hm
    cases merged with
    | true =>
      have hme := Sessions.merge_opened n m ⟨writes, false, false, false, n⟩ h.kept
        (fun l hl => (h.fresh l hl).ne) h.topFresh.ne h.topActive rfl rfl
      rw [if_pos rfl, Prog.bind_of_ok hme]
      obtain ⟨values, k, hk, hr⟩ := ihRest (h.mono (writes ∪ top.values) hle)
      exact ⟨values, k, hle.trans hk, hr⟩
    | false =>
      have hb := hc.mono writes (Nat.le_refl (n + 1))
      have hre := Sessions.revoke_opened m hb.kept hb.other rfl
      rw [if_neg Bool.false_ne_true, Prog.bind_of_ok hre]
      obtain ⟨values, k, hk, hr⟩ := ihRest (h.mono top.values hle)
      exact ⟨values, k, hle.trans hk, hr⟩

/-- Work in a session of a disabled manager changes nothing. -/
theorem Work.run_none (work : Work) (s : Sessions) : ∃ r, work.run none s = (r, s) := by
  cases work with
  | done => exact ⟨_, rfl⟩
  | write key value rest =>
    have hm : Session.mutate none key value s = (.error .invalidSession, s) := by
      unfold Session.mutate Session.ownsTop
      split <;> rfl
    rw [Work.run, Prog.bind_of_error hm]
    exact ⟨_, rfl⟩
  | child inner merged rest =>
    have hc : Sessions.buildChild none s = (.error .invalidSession, s) := rfl
    rw [Work.run, Prog.bind_of_error hc]
    exact ⟨_, rfl⟩

namespace Sessions

variable {s : Sessions} {top : OverlayLayer} {n : Nat}

/-- No session is active: all layers are committed. -/
structure Idle (s : Sessions) : Prop where
  settled : ∀ l ∈ s.layers, l.isSettled = true
  distinct : (s.layers.map (·.id)).Nodup
  fresh : ∀ l ∈ s.layers, l.id < s.nextId
  active : s.active = 0

/-- The rows of the root under some layers. -/
def under (s : Sessions) (layers : List OverlayLayer) : Image :=
  FMap.overAll s.root.rows (layers.map (·.values))

theorem Idle.kept (h : s.Idle) {l : OverlayLayer} (hl : l ∈ s.layers) : l.abandoned = false := by
  have hs := h.settled l hl
  rw [OverlayLayer.isSettled, Bool.and_eq_true, Bool.not_eq_true'] at hs
  exact hs.2

theorem captureWhere_all (root : StateStore) {layers : List OverlayLayer}
    {keep : OverlayLayer → Bool} (h : ∀ l ∈ layers, keep l = true) :
    captureWhere root layers keep = FMap.overAll root.rows (layers.map (·.values)) := by
  rw [captureWhere, List.filter_eq_self.mpr h, FMap.overAll, List.foldl_map]

theorem Idle.readView_eq (h : s.Idle) : s.readView = s.under s.layers :=
  captureWhere_all s.root h.settled

/-- The stack with its open layer committed. -/
def withCommitted (s : Sessions) (top : OverlayLayer) (n : Nat) : Sessions := { s with
  layers := s.layers ++ [{ top with committed := true }]
  nextId := n
  enabled := !top.disableOnExit }

/-- The stack with its open layer committed under a checkpoint. -/
def committed (s : Sessions) (top : OverlayLayer) (n : Nat) (point : CursorPoint) : Sessions :=
  { s.withCommitted top n with
    checkpoints := s.checkpoints ++ [⟨point, s.checkpoints.getLast?.map (·.point.identity),
      s.under (s.layers ++ [top])⟩] }

theorem Idle.withCommitted (h : s.Idle) (hb : s.Beneath top n) :
    (s.withCommitted top n).Idle := by
  have hli : top.committed = false ∧ top.abandoned = false := by
    simpa [OverlayLayer.isActive] using hb.topActive
  have hla {P : OverlayLayer → Prop} (hbe : ∀ l ∈ s.layers, P l)
      (ht : P { top with committed := true }) : ∀ l ∈ (s.withCommitted top n).layers, P l := by
    intro l hl
    rcases List.mem_append.mp hl with hl | hl
    · exact hbe l hl
    · rw [List.mem_singleton.mp hl]
      exact ht
  refine ⟨?_, ?_, hla hb.fresh hb.topFresh, h.active⟩
  · apply hla h.settled
    simp [OverlayLayer.isSettled, hli.2]
  · rw [Sessions.withCommitted, List.map_append, List.nodup_append]
    refine ⟨h.distinct, List.nodup_singleton _, ?_⟩
    intro id hid other ho
    obtain ⟨l, hl, rfl⟩ := List.mem_map.mp hid
    rw [List.mem_singleton.mp ho]
    exact hb.other l hl

theorem commit_opened (h : s.Beneath top n) :
    Session.finish .commit (some top.id) (s.opened top n) = (.ok (), s.withCommitted top n) := by
  have hli : top.committed = false ∧ top.abandoned = false := by
    simpa [OverlayLayer.isActive] using h.topActive
  have hk : ∀ l ∈ (s.withCommitted top n).layers, l.abandoned = false := by
    intro l hl
    rcases List.mem_append.mp hl with hl | hl
    · exact h.kept l hl
    · rw [List.mem_singleton.mp hl]
      exact hli.2
  simp only [Session.finish, Prog.bind_run, Prog.get_run, opened_locate h.other]
  have hs := sweep_kept (s := { s.withCommitted top n with enabled := true }) hk
    top.disableOnExit
  simpa [Prog.bind_run, Prog.set_run, subActive, hli, opened, withCommitted] using hs

theorem commitWithCheckpoint_opened (h : s.Beneath top n) {point : CursorPoint}
    (hp : ¬ s.Clashes point) :
    Session.commitWithCheckpoint (some top.id) point (s.opened top n) =
      (.ok (), s.committed top n point) := by
  have hli : top.committed = false ∧ top.abandoned = false := by
    simpa [OverlayLayer.isActive] using h.topActive
  have hv : captureWhere (s.opened top n).root (s.opened top n).layers (fun l => !l.abandoned) =
      s.under (s.layers ++ [top]) := by
    refine captureWhere_all s.root fun l hl => ?_
    rcases List.mem_append.mp hl with hl | hl
    · simp [h.kept l hl]
    · rw [List.mem_singleton.mp hl]
      simp [hli.2]
  rw [Clashes, not_or] at hp
  simp only [Session.commitWithCheckpoint, Prog.bind_run, Prog.get_run, opened_locate h.other, hv]
  simp [Prog.bind_run, Prog.set_run, Prog.modify_run, subActive, hp, hli, opened, committed,
    withCommitted]

theorem commitWithCheckpoint_opened_clash (h : s.Beneath top n) {point : CursorPoint}
    (hp : s.Clashes point) :
    Session.commitWithCheckpoint (some top.id) point (s.opened top n) =
      (.error .invalidSession, s.opened top n) := by
  simp only [Session.commitWithCheckpoint, Prog.bind_run, Prog.get_run, opened_locate h.other]
  rcases hp with hp | hp <;> simp [hp, Prog.throw_run, opened]

theorem drop_opened (h : s.Beneath top n) :
    Session.drop (some top.id) (s.opened top n) =
      (.ok (), { s with nextId := n, enabled := !top.disableOnExit }) := by
  have hc : Session.close (some top.id) (s.opened top n) =
      (.ok (), { s with nextId := n, enabled := !top.disableOnExit }) := by
    simp only [Session.close, Prog.bind_run, Prog.get_run, opened_locate h.other]
    simpa using revoke_opened n h.kept h.other h.topActive
  rw [Session.drop, Prog.bind_of_ok (Prog.attempt_of_eq hc)]
  rfl

/-- The end of a session that can be closed. -/
theorem closeOrDrop_of_ok {close : Session → SessionM Unit} {applied : SessionM Unit}
    {session : Session} {s t u : Sessions} (ha : applied s = (.ok (), t))
    (hc : close session t = (.ok (), u)) : closeOrDrop close applied session s = (.ok (), u) := by
  unfold closeOrDrop
  rw [Prog.bind_of_ok (Prog.attempt_of_eq ((Prog.bind_of_ok ha).trans hc))]
  rfl

/-- The end of a session that cannot be closed. -/
theorem closeOrDrop_of_error {close : Session → SessionM Unit} {applied : SessionM Unit}
    {session : Session} {s t : Sessions} {e : SessionError} (ha : applied s = (.ok (), t))
    (hc : close session t = (.error e, t)) :
    (closeOrDrop close applied session s).2 = (Session.drop session t).2 := by
  unfold closeOrDrop
  rw [Prog.bind_of_ok (Prog.attempt_of_eq ((Prog.bind_of_ok ha).trans hc))]
  dsimp only
  rw [Prog.bind_run]
  rcases Session.drop session t with ⟨_ | _, _⟩ <;> rfl

end Sessions

/-- **A session** of an idle manager: without a layer it changes nothing, and else it comes to its
end with its layer on top. -/
theorem sessionWith_spec {s : Sessions} (h : s.Idle) (close : Session → SessionM Unit)
    (hno : close none s = (.ok (), s)) (temporarilyEnable : Bool) (work : Work) :
    (sessionWith close temporarilyEnable work s).2 = s ∨
      ∃ top n, s.Beneath top n ∧ s.nextId ≤ n ∧ ∃ applied : SessionM Unit, ∃ t,
        applied t = (.ok (), s.opened top n) ∧ sessionWith close temporarilyEnable work s =
          closeOrDrop close applied (some top.id) t := by
  unfold sessionWith
  by_cases hd : (!s.enabled && !temporarilyEnable) = true
  · have hbu : Sessions.buildRoot temporarilyEnable s = (.ok none, s) := by
      simp [Sessions.buildRoot, h.active, hd]
    refine .inl ?_
    rw [Prog.bind_of_ok hbu]
    unfold closeOrDrop
    obtain ⟨r, hr⟩ := work.run_none s
    cases r with
    | ok _ =>
      rw [Prog.bind_of_ok (Prog.attempt_of_eq ((Prog.bind_of_ok hr).trans hno))]
      rfl
    | error e =>
      rw [Prog.bind_of_ok (Prog.attempt_of_eq (Prog.bind_of_error hr))]
      rfl
  · set layer : OverlayLayer := ⟨∅, false, false, temporarilyEnable && !s.enabled, s.nextId⟩
    have hbu : Sessions.buildRoot temporarilyEnable s =
        (.ok (some layer.id), s.opened layer (s.nextId + 1)) := by
      have he : (s.enabled || temporarilyEnable) = true := by
        cases hs : s.enabled <;> cases ht : temporarilyEnable <;> simp_all
      simp [Sessions.buildRoot, h.active, hd, Sessions.pushLayer, Sessions.opened, he,
        layer]
    have hb : s.Beneath layer (s.nextId + 1) :=
      ⟨fun l hl => h.kept hl, fun l hl => (h.fresh l hl).trans (Nat.lt_succ_self _),
        fun l hl => (h.fresh l hl).ne, Nat.lt_succ_self _, rfl⟩
    obtain ⟨values, n, hn, hw⟩ := work.run_opened hb
    refine .inr ⟨{ layer with values := values }, n, hb.mono values hn,
      (Nat.le_succ _).trans hn, work.run (some layer.id), s.opened layer (s.nextId + 1), hw, ?_⟩
    rw [Prog.bind_of_ok hbu]

/-- **A session that is committed**: its layer is on top, or nothing has changed. -/
theorem commitSession_spec {s : Sessions} (h : s.Idle) (temporarilyEnable : Bool) (work : Work) :
    (commitSession temporarilyEnable work s).2 = s ∨
      ∃ top n, s.Beneath top n ∧
        commitSession temporarilyEnable work s = (.ok (), s.withCommitted top n) := by
  rcases sessionWith_spec h (Session.finish .commit) rfl temporarilyEnable work with
    hs | ⟨top, n, hb, -, applied, t, ha, hr⟩
  · exact .inl hs
  · exact .inr ⟨top, n, hb,
      hr.trans (Sessions.closeOrDrop_of_ok ha (Sessions.commit_opened hb))⟩

/-- **The session of a block**: the block is committed on top, or nothing but ids and the switch of
the manager has changed. -/
theorem blockSession_spec {s : Sessions} (h : s.Idle) (temporarilyEnable : Bool) (work : Work)
    (point : CursorPoint) :
    (∃ n enabled, s.nextId ≤ n ∧ (blockSession temporarilyEnable work point s).2 =
      { s with nextId := n, enabled := enabled }) ∨
    ∃ top n, s.Beneath top n ∧ s.nextId ≤ n ∧ ¬ s.Clashes point ∧
      blockSession temporarilyEnable work point s = (.ok (), s.committed top n point) := by
  rcases sessionWith_spec h (fun session => Session.commitWithCheckpoint session point) rfl
    temporarilyEnable work with hs | ⟨top, n, hb, hn, applied, t, ha, hr⟩
  · exact .inl ⟨s.nextId, s.enabled, le_rfl, hs⟩
  · by_cases hp : s.Clashes point
    · refine .inl ⟨n, !top.disableOnExit, hn, ?_⟩
      have hc := Sessions.commitWithCheckpoint_opened_clash hb hp
      rw [blockSession, hr, Sessions.closeOrDrop_of_error ha hc,
        Sessions.drop_opened hb]
    · exact .inr ⟨top, n, hb, hn, hp, hr.trans
        (Sessions.closeOrDrop_of_ok ha (Sessions.commitWithCheckpoint_opened hb hp))⟩

end RustTron.State
