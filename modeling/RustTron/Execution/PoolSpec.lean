import RustTron.Execution.Node

/-!
# The sessions of a full node

The pool and the block manager share one session manager. Between two operations of a full node
the stack is quiescent, or its top layer is that of the pool's session and the rest is. Every
operation of the pool and of the fork manager keeps it so, whether it succeeds or fails.

## Main definitions

* `Held s session`: the stack `s` of a pool with this session
* `NodeOk`: what holds of a full node between two operations
* `InChild`: inside a child of the session of the pool

## Main results

* `openSession_run`, `suspendForFork_run`, `discardForkRebuild_run`: the session of the pool
* `replaySpeculative_keeps`, `admit_keeps`: transactions in children of that session
* `switch_keeps`: the fork manager keeps the invariant, on its error paths too
-/

namespace RustTron.Execution

open State

variable {H ε : Type} {env : Environment H}

/-- The stack of a pool with this session: the committed layers, and over them the layer of the
session. -/
def Held (s : Sessions) : Option Nat → Prop
  | none => s.Quiescent
  | some id => ∃ q values, q.Quiescent ∧ Opened q id ∧ s = (q.reserve id).withTop id values

/-- What holds of the cache and of Khaos at all times. -/
def Sound (b : BlockManager H) : Prop := b.cache.Valid ∧ b.khaos.All Numbered

/-- What holds of a full node between two operations. -/
structure NodeOk (node : FullNode H) : Prop where
  sound : Sound node.blocks
  held : Held node.blocks.sessions node.pool.session

theorem NodeOk.cache {node : FullNode H} (h : NodeOk node) : node.blocks.cache.Valid := h.sound.1

theorem NodeOk.numbered {node : FullNode H} (h : NodeOk node) : node.blocks.khaos.All Numbered :=
  h.sound.2

/-! ## Opening and closing the session of the pool -/

section Pool

variable {node : FullNode H} {q : Sessions} {id : Nat} {values : Overlay}

/-- The node with these sessions, and this session of the pool. -/
def FullNode.withSession (node : FullNode H) (s : Sessions) (session : Option Nat) : FullNode H :=
  { node with
    blocks := { node.blocks with sessions := s }
    pool := { node.pool with session := session } }

theorem onNodeSessions_of_ok {α : Type} {x : SessionM α} {a : α} {t : Sessions}
    (h : x node.blocks.sessions = (.ok a, t)) :
    onNodeSessions x node =
      (.ok a, { node with blocks := { node.blocks with sessions := t } }) := by
  rw [onNodeSessions, onBlocks, Prog.zoom_of_ok (onSessions_of_ok h)]

theorem onNodeSessions_of_error {α : Type} {x : SessionM α} {e : SessionError} {t : Sessions}
    (h : x node.blocks.sessions = (.error e, t)) :
    onNodeSessions x node =
      (.error e, { node with blocks := { node.blocks with sessions := t } }) := by
  rw [onNodeSessions, onBlocks, Prog.zoom_of_error (onSessions_of_error h)]

/-- The errors of a session operation do not matter where it succeeds. -/
theorem onBlocks_of_onNodeSessions {α : Type} {x : SessionM α} {a : α} {node' : FullNode H}
    (f : SessionError → ε) (h : onNodeSessions x node = (.ok a, node')) :
    onBlocks f (onSessions (fun e => e) x) node = (.ok a, node') := by
  simp only [onNodeSessions, onBlocks, onSessions, Prog.zoom] at h ⊢
  rcases hx : x node.blocks.sessions with ⟨e | a', t⟩ <;> rw [hx] at h
  · cases h
  · cases h
    rfl

theorem modifyPool_run (f : PendingPool → PendingPool) (node : FullNode H) :
    (modifyPool f : Prog (FullNode H) ε Unit) node = (.ok (), { node with pool := f node.pool }) :=
  rfl

/-- The stack with a new session of the pool. -/
def opened (s : Sessions) : Sessions := (s.bump.reserve s.nextId).withTop s.nextId ∅

/-- **Opening the session** of a pool that has none. -/
theorem openSession_run (h : node.blocks.sessions.Quiescent) :
    PendingPool.openSession node = (.ok (), node.withSession (opened node.blocks.sessions)
      (some node.blocks.sessions.nextId)) := by
  rw [PendingPool.openSession,
    Prog.bind_of_ok (onNodeSessions_of_ok (Sessions.buildPendingOuter_eq h))]
  rfl

/-- The pool that is resumed with these transactions of abandoned blocks. -/
def PendingPool.resumed (pool : PendingPool) (abandoned : List PendingTransaction) (now : Int) :
    PendingPool :=
  recount { pool with
    popped := (pool.popped ++ abandoned).map fun item => { item with receivedAt := now } }

theorem resumeAfterFork_run (abandoned : List PendingTransaction) (now : Int)
    (h : node.blocks.sessions.Quiescent) (hs : node.pool.session = none) :
    PendingPool.resumeAfterFork abandoned now node = (.ok (),
      ({ node with pool := node.pool.resumed abandoned now } : FullNode H).withSession
        (opened node.blocks.sessions) (some node.blocks.sessions.nextId)) := by
  rw [PendingPool.resumeAfterFork, Prog.bind_of_ok (Prog.get_run node), hs,
    if_neg (by simp)]
  show PendingPool.openSession { node with pool := node.pool.resumed abandoned now } = _
  exact openSession_run h

theorem PendingPool.new_run {limits : PendingLimits} {s : Sessions} (hs : s.Quiescent)
    (hl : ¬ (limits.maximum = 0 || limits.timeoutMillis ≤ 0 ||
      limits.maximum < limits.shieldedMaximum) = true) :
    PendingPool.new limits s = (.ok ⟨limits, [], [], [], 0, some s.nextId⟩, opened s) := by
  rw [PendingPool.new, if_neg hl]
  dsimp only
  rw [Prog.bind_of_ok (Sessions.buildPendingOuter_eq hs)]
  rfl

theorem PendingPool.new_eq_ok {limits : PendingLimits} {pool : PendingPool} {s t : Sessions}
    (hs : s.Quiescent) (h : PendingPool.new limits s = (.ok pool, t)) :
    pool = ⟨limits, [], [], [], 0, some s.nextId⟩ ∧ t = opened s := by
  by_cases hl : (limits.maximum = 0 || limits.timeoutMillis ≤ 0 ||
      limits.maximum < limits.shieldedMaximum) = true
  · rw [PendingPool.new, if_pos hl] at h
    cases h
  · rw [PendingPool.new_run hs hl] at h
    cases h
    exact ⟨rfl, rfl⟩

/-- **Closing the session** of the pool leaves the committed layers. -/
theorem suspendForFork_run (hq : q.Quiescent) (hid : Opened q id)
    (hs : node.blocks.sessions = (q.reserve id).withTop id values)
    (hse : node.pool.session = some id) :
    PendingPool.suspendForFork node = (.ok ⟨node.pool.pending, node.pool.popped, node.pool.smart,
      node.pool.shielded⟩, node.withSession q none) := by
  have hc : PendingSession.close id node.blocks.sessions = (.ok (), q) := by
    rw [hs]
    exact Sessions.closePending_eq hq hid.fresh
  rw [PendingPool.suspendForFork, Prog.bind_of_ok (Prog.get_run node), hse]
  dsimp only
  rw [Prog.bind_of_ok (onNodeSessions_of_ok hc)]
  rfl

theorem discardForkRebuild_run (hq : q.Quiescent) (hid : Opened q id)
    (hs : node.blocks.sessions = (q.reserve id).withTop id values)
    (hse : node.pool.session = some id) :
    PendingPool.discardForkRebuild node = (.ok (), { node.withSession q none with
      pool := { node.pool.clear with session := none } }) := by
  have hc : PendingSession.close id node.blocks.sessions = (.ok (), q) := by
    rw [hs]
    exact Sessions.closePending_eq hq hid.fresh
  simp only [PendingPool.discardForkRebuild, Prog.bind_run, Prog.get_run, hse, modifyPool,
    Prog.modify_run, Prog.attempt, onNodeSessions, onBlocks, onSessions, Prog.zoom, hc]
  rfl

theorem Held.active_ne_zero {s : Sessions} (h : Held s (some id)) : s.active ≠ 0 := by
  obtain ⟨q, values, -, -, rfl⟩ := h
  exact Nat.succ_ne_zero _

theorem Held.pendingOuter {s : Sessions} (h : Held s (some id)) : s.pendingOuter.isSome = true := by
  obtain ⟨q, values, -, -, rfl⟩ := h
  rfl

theorem openSession_keeps : Prog.Keeps (NodeOk (H := H)) PendingPool.openSession := by
  refine .of_state fun node h => ?_
  obtain ⟨hso, hh⟩ := h
  cases hs : node.pool.session with
  | none =>
    rw [hs] at hh
    rw [openSession_run hh]
    exact ⟨hso, _, _, hh.bump, .of_bump hh.toTidy, rfl⟩
  | some id =>
    rw [hs] at hh
    have hr := onNodeSessions_of_error (Sessions.buildPendingOuter_of_held hh.pendingOuter)
    rw [PendingPool.openSession, Prog.bind_of_error hr]
    exact ⟨hso, hs ▸ hh⟩

theorem suspendForFork_keeps : Prog.Keeps (NodeOk (H := H)) PendingPool.suspendForFork := by
  refine .of_state fun node h => ?_
  obtain ⟨hso, hh⟩ := h
  cases hs : node.pool.session with
  | none =>
    have hr : (PendingPool.suspendForFork node).2 = node := by
      rw [PendingPool.suspendForFork, Prog.bind_of_ok (Prog.get_run node), hs]
      rfl
    rw [hr]
    exact ⟨hso, hh⟩
  | some id =>
    rw [hs] at hh
    obtain ⟨q, values, hq, hid, hse⟩ := hh
    rw [suspendForFork_run hq hid hse hs]
    exact ⟨hso, hq⟩

theorem discardForkRebuild_keeps : Prog.Keeps (NodeOk (H := H)) PendingPool.discardForkRebuild := by
  refine .of_state fun node h => ?_
  obtain ⟨hso, hh⟩ := h
  cases hs : node.pool.session with
  | none =>
    have hr : PendingPool.discardForkRebuild node =
        (.ok (), { node with pool := node.pool.clear }) := by
      rw [PendingPool.discardForkRebuild, Prog.bind_of_ok (Prog.get_run node), hs]
      rfl
    rw [hr]
    exact ⟨hso, hh⟩
  | some id =>
    rw [hs] at hh
    obtain ⟨q, values, hq, hid, hse⟩ := hh
    rw [discardForkRebuild_run hq hid hse hs]
    exact ⟨hso, hq⟩

theorem forceDiscardForkRebuild_keeps :
    Prog.Keeps NodeOk (PendingPool.forceDiscardForkRebuild : Prog (FullNode H) ε Unit) := by
  refine .of_state fun node h => ?_
  obtain ⟨hso, hh⟩ := h
  refine ⟨hso, ?_⟩
  show node.blocks.sessions.forceResetPendingOuter.Quiescent
  cases hs : node.pool.session with
  | none =>
    rw [hs] at hh
    have hq : node.blocks.sessions.Quiescent := hh
    rwa [Sessions.forceResetPendingOuter, hq.pendingOuter]
  | some id =>
    rw [hs] at hh
    obtain ⟨q, values, hq, hid, hse⟩ := hh
    rw [hse, Sessions.forceResetPendingOuter_eq hq hid.fresh]
    exact hq

/-- A change of the pool other than of its session. -/
theorem NodeOk.withPool (h : NodeOk node) {pool : PendingPool}
    (hs : pool.session = node.pool.session) : NodeOk { node with pool := pool } := by
  refine ⟨h.sound, ?_⟩
  show Held node.blocks.sessions pool.session
  rw [hs]
  exact h.held

theorem modifyPool_keeps {f : PendingPool → PendingPool}
    (h : ∀ pool, (f pool).session = pool.session) :
    Prog.Keeps NodeOk (modifyPool f : Prog (FullNode H) ε Unit) :=
  .modify fun node hn => hn.withPool (h node.pool)

end Pool

/-! ## Children of the session of the pool -/

section Child

variable {outer child : Nat} {node : FullNode H}

/-- A child of the pending session `outer` can be opened and closed over `q`. -/
structure ChildOpen (q : Sessions) (outer child : Nat) : Prop where
  quiescent : q.Quiescent
  opened : Opened q outer
  fresh : ∀ l ∈ q.layers, l.id ≠ child
  ne : outer ≠ child

/-- The node is inside the child `child` of the pending session `outer`. -/
structure InChild (outer child : Nat) (node : FullNode H) : Prop where
  sound : Sound node.blocks
  session : node.pool.session = some outer
  sessions : ∃ q values writes, ChildOpen q outer child ∧
    node.blocks.sessions = ((q.reserve outer).withTop outer values).withTop child writes

/-- The node between two operations, with the session of its pool open. -/
structure NodeOpen (outer : Nat) (node : FullNode H) : Prop extends NodeOk node where
  session : node.pool.session = some outer

theorem ChildOpen.of_bump {q : Sessions} (hq : q.Quiescent) (ho : Opened q outer) :
    ChildOpen q.bump outer q.nextId where
  quiescent := hq.bump
  opened := ⟨hq.toTidy.bump, ho.fresh, Nat.lt_succ_of_lt ho.taken⟩
  fresh := hq.ne_nextId
  ne := ho.taken.ne

theorem NodeOpen.mk' {q : Sessions} {values : Overlay} (hso : Sound node.blocks)
    (hs : node.pool.session = some outer) (hq : q.Quiescent) (ho : Opened q outer)
    (hse : node.blocks.sessions = (q.reserve outer).withTop outer values) :
    NodeOpen outer node :=
  ⟨⟨hso, by rw [hs]; exact ⟨q, values, hq, ho, hse⟩⟩, hs⟩

theorem buildChild_eq {q : Sessions} {values : Overlay} (hq : q.Quiescent) :
    Sessions.buildChild (some outer) ((q.reserve outer).withTop outer values) =
      (.ok (some q.nextId), (((q.bump.reserve outer).withTop outer values).withTop q.nextId ∅)) :=
  Sessions.buildChild_withTop (s := q.reserve outer) hq.enabled

theorem merge_eq {q : Sessions} (h : ChildOpen q outer child) (values writes : Overlay) :
    Session.merge (some child)
        (((q.reserve outer).withTop outer values).withTop child writes) =
      (.ok (), (q.reserve outer).withTop outer (writes ∪ values)) :=
  Sessions.merge_withTop (h.quiescent.toTidy.reserve outer) h.fresh h.ne h.opened.taken

theorem discard_eq {q : Sessions} (h : ChildOpen q outer child) (values writes : Overlay) :
    Session.discard (some child)
        (((q.reserve outer).withTop outer values).withTop child writes) =
      (.ok (), (q.reserve outer).withTop outer values) := by
  refine Sessions.discard_withTop
    ((h.quiescent.toTidy.reserve outer).withTop h.opened.taken) fun l hl => ?_
  rcases List.mem_append.mp hl with hl | hl
  · exact h.fresh l hl
  · rw [List.mem_singleton.mp hl]
    exact h.ne

/-- **Opening a child** of the session of the pool. -/
theorem buildChild_spec (h : NodeOpen outer node) :
    ∃ child node', onNodeSessions (Sessions.buildChild (some outer)) node =
      (.ok (some child), node') ∧ InChild outer child node' := by
  obtain ⟨⟨hso, hh⟩, hs⟩ := h
  rw [hs] at hh
  obtain ⟨q, values, hq, ho, hse⟩ := hh
  have hr : Sessions.buildChild (some outer) node.blocks.sessions = _ :=
    (congrArg _ hse).trans (buildChild_eq hq)
  exact ⟨_, _, onNodeSessions_of_ok hr, hso, hs, _, _, _, .of_bump hq ho, rfl⟩

/-- **Merging a child** into the session of the pool. -/
theorem merge_spec (h : InChild outer child node) :
    ∃ node', onNodeSessions (Session.merge (some child)) node = (.ok (), node') ∧
      NodeOpen outer node' := by
  obtain ⟨hso, hse, q, values, writes, hq, hs⟩ := h
  have hr : Session.merge (some child) node.blocks.sessions = _ :=
    (congrArg _ hs).trans (merge_eq hq values writes)
  exact ⟨_, onNodeSessions_of_ok hr, .mk' hso hse hq.quiescent hq.opened rfl⟩

/-- **Discarding a child** of the session of the pool. -/
theorem discard_spec (h : InChild outer child node) :
    ∃ node', onNodeSessions (Session.discard (some child)) node = (.ok (), node') ∧
      NodeOpen outer node' := by
  obtain ⟨hso, hse, q, values, writes, hq, hs⟩ := h
  have hr : Session.discard (some child) node.blocks.sessions = _ :=
    (congrArg _ hs).trans (discard_eq hq values writes)
  exact ⟨_, onNodeSessions_of_ok hr, .mk' hso hse hq.quiescent hq.opened rfl⟩

/-- What stays inside the session of a block stays inside a child. -/
theorem InChild.of_keeps {α ε' : Type} {x : Prog (BlockManager H) ε' α} {f : ε' → ε}
    (hx : ∀ s k, Prog.Keeps (InBody s child k TransactionCache.Valid) x) :
    Prog.Keeps (InChild outer child) (onBlocks f x) := by
  refine .zoom fun node hno => ?_
  obtain ⟨hso, hse, q, values, writes, hq, hs⟩ := hno
  have hb := (hx ((q.reserve outer).withTop outer values) node.blocks.khaos).state
    (s := node.blocks) ⟨⟨writes, hs⟩, hso.1, rfl⟩
  obtain ⟨writes', hs'⟩ := hb.sessions
  have hn : (x node.blocks).2.khaos.All Numbered := by
    rw [hb.khaos]
    exact hso.2
  exact ⟨⟨hb.cache, hn⟩, hse, q, values, writes', hq, hs'⟩

theorem processInSession_inChild (env : Environment H) (tx : RawWireTransaction) (context : ProcessContext) :
    Prog.Keeps (InChild outer child)
      (onBlocks (fun e : ProcessError => e) (processInSession env (some child) tx context)) :=
  InChild.of_keeps fun _ _ => .conseq (processInSession_spec tx context) (fun _ h => h)
    (fun _ _ h => ⟨h.sessions, h.cache.1, h.khaos⟩) fun _ h => h

@[simp] theorem pushBack_session (pool : PendingPool) (queue : Queue) (item : PendingTransaction) :
    (pool.pushBack queue item).session = pool.session := by
  cases queue <;> rfl

@[simp] theorem enqueue_session (pool : PendingPool) (item : PendingTransaction) :
    (pool.enqueue item).session = pool.session :=
  pushBack_session _ _ _

@[simp] theorem restoreReplay_session (pool : PendingPool)
    (replay : List (Queue × PendingTransaction)) :
    (pool.restoreReplay replay).session = pool.session := by
  show (replay.foldl (fun pool entry => pool.pushBack entry.1 entry.2) pool).session = pool.session
  induction replay generalizing pool with
  | nil => rfl
  | cons entry rest ih => rw [List.foldl_cons, ih, pushBack_session]

theorem modifyPool_keeps_open {f : PendingPool → PendingPool}
    (h : ∀ pool, (f pool).session = pool.session) :
    Prog.Keeps (NodeOpen outer) (modifyPool f : Prog (FullNode H) ε Unit) := by
  exact .modify fun node hn =>
    ⟨hn.toNodeOk.withPool (h node.pool), (h node.pool).trans hn.session⟩

theorem replayItem_spec (env : Environment H) (context : ProcessContext) (item : PendingTransaction)
    (h : InChild outer child node) :
    ∃ result left node', PendingPool.replayItem env context (some child) item node =
      (.ok (result, left), node') ∧ InChild outer child node' := by
  have hk := (processInSession_inChild env item.transaction.clearSignatureVerificationCache context).state h
  rw [PendingPool.replayItem, Prog.bind_of_ok (Prog.get_run node)]
  rcases hr : onBlocks (fun e : ProcessError => e) (processInSession env (some child)
    item.transaction.clearSignatureVerificationCache context) node with ⟨e | output, node'⟩ <;>
    rw [hr] at hk <;> rw [Prog.bind_of_ok (Prog.attempt_of_eq hr)] <;>
    exact ⟨_, _, node', rfl, hk⟩

theorem replayLoop_keeps (strict : Bool) (context : ProcessContext)
    (items retained : List (Queue × PendingTransaction)) :
    Prog.Keeps (NodeOpen outer) (PendingPool.replayLoop env strict context outer items retained) := by
  induction items generalizing retained with
  | nil => exact modifyPool_keeps_open (restoreReplay_session · _)
  | cons entry rest ih =>
    obtain ⟨queue, item⟩ := entry
    refine .of_state fun node hn => ?_
    obtain ⟨child, node₁, hb, hc⟩ := buildChild_spec hn
    rw [PendingPool.replayLoop, Prog.bind_of_ok (Prog.attempt_of_eq hb)]
    obtain ⟨result, left, node₂, hi, hc⟩ := replayItem_spec env context item hc
    dsimp only
    rw [Prog.bind_of_ok hi]
    cases result with
    | ok _ =>
      obtain ⟨node₃, hm, ho⟩ := merge_spec hc
      dsimp only
      rw [Prog.bind_of_ok (Prog.attempt_of_eq hm)]
      exact (ih _).state ho
    | error e =>
      obtain ⟨node₃, hd, ho⟩ := discard_spec hc
      dsimp only
      rw [Prog.bind_of_ok hd]
      refine (Prog.Keeps.ite (fun _ => ?_) fun _ => ih _).state ho
      exact .bind (modifyPool_keeps_open (restoreReplay_session · _)) fun _ => .throw

/-- **A replay** leaves the session of the pool open. -/
theorem replaySpeculative_keeps_open (strict : Bool) (context : ProcessContext) :
    Prog.Keeps (NodeOpen outer) (PendingPool.replaySpeculative env strict context) := by
  refine .of_state fun node hn => ?_
  rw [PendingPool.replaySpeculative, Prog.bind_of_ok (Prog.get_run node), hn.session]
  refine Prog.Keeps.state (.bind (modifyPool_keeps_open fun _ => rfl) fun _ => ?_) hn
  exact replayLoop_keeps strict context _ _

theorem replaySpeculative_keeps (strict : Bool) (context : ProcessContext) :
    Prog.Keeps NodeOk (PendingPool.replaySpeculative env strict context) := by
  refine .of_state fun node hn => ?_
  cases hs : node.pool.session with
  | none =>
    rw [PendingPool.replaySpeculative, Prog.bind_of_ok (Prog.get_run node), hs]
    exact hn
  | some outer => exact ((replaySpeculative_keeps_open strict context).state ⟨hn, hs⟩).toNodeOk

/-- **An admission** keeps the invariant, whatever becomes of the transaction. -/
theorem admit_keeps (item : PendingTransaction) (now : Int) (f : SessionError → ε)
    {execute : Session → Prog (BlockManager H) ε Unit}
    (he : ∀ outer child,
      Prog.Keeps (InChild outer child) (onBlocks (fun e : ε => e) (execute (some child)))) :
    Prog.Keeps NodeOk (PendingPool.admitItem item now f execute) := by
  refine .of_state fun node hn => ?_
  rw [PendingPool.admitItem, Prog.bind_of_ok (Prog.get_run node)]
  cases hr : node.pool.refusal item now with
  | some reason => exact hn
  | none =>
    have hso : node.pool.session.isSome = true := by
      by_contra hc
      rw [Bool.not_eq_true, Option.isSome_eq_false_iff] at hc
      simp [PendingPool.refusal, hc] at hr
    obtain ⟨outer, hs⟩ := Option.isSome_iff_exists.mp hso
    obtain ⟨child, node₁, hb, hch⟩ := buildChild_spec ⟨hn, hs⟩
    rw [← hs] at hb
    dsimp only
    rw [Prog.bind_of_ok (onBlocks_of_onNodeSessions f hb)]
    have hc₂ := (he outer child).state hch
    rcases hru : onBlocks (fun e : ε => e) (execute (some child)) node₁ with ⟨e | _, node₂⟩ <;>
      rw [hru] at hc₂ <;> rw [Prog.bind_of_ok (Prog.attempt_of_eq hru)] <;> dsimp only
    · obtain ⟨node₃, hd, ho⟩ := discard_spec hc₂
      rw [Prog.bind_of_ok (onBlocks_of_onNodeSessions f hd)]
      exact ho.toNodeOk
    · obtain ⟨node₃, hm, ho⟩ := merge_spec hc₂
      rw [Prog.bind_of_ok (Prog.attempt_of_eq hm)]
      exact ho.toNodeOk.withPool (enqueue_session node₃.pool item)

end Child

/-! ## Blocks and forks -/

section Fork

/-- Where a session of the pool is open, no block is applied and none is taken back. -/
theorem applyBlockMode_of_active (env : Environment H) (block : RawBlock) (now : Int) (retained : Bool)
    {b : BlockManager H} (h : b.sessions.active ≠ 0) :
    ∃ e, BlockManager.applyBlockMode env block now retained b = (.error e, b) := by
  rw [BlockManager.applyBlockMode, Prog.bind_of_ok (Prog.get_run b)]
  rcases hc : b.checkBlock env block now retained with e | ⟨bid, raw⟩
  · exact ⟨_, rfl⟩
  · rw [Prog.bind_of_ok (Prog.ofExcept_ok_run _ (bid, raw) b)]
    dsimp only
    have hb : Sessions.buildSessionEnabled b.sessions = _ :=
      Sessions.buildRoot_of_active h true
    rw [Prog.bind_of_error (onSessions_of_error hb)]
    exact ⟨_, rfl⟩

theorem Failed.quiescent {b b' : BlockManager H} {block : RawBlock} {retained : Bool}
    (h : Failed env b b' block retained) (hq : b.sessions.Quiescent) : b'.sessions.Quiescent := by
  rcases h.sessions with hs | hs <;> rw [hs]
  · exact hq
  · exact hq.bump

theorem KhaosAfterFailure.numbered {db db' : KhaosDatabase ManagedBlock} {left : RawBlock}
    {bid : BlockId} {raw : RawHeader} {retained : Bool}
    (h : KhaosAfterFailure db left bid raw retained db') (hr : left.rawHeader = some raw)
    (ha : db.All Numbered) : db'.All Numbered := by
  cases h with
  | untouched => exact ha
  | @refused parent now _ _ _ _ hp =>
    have := ha.push (numbered_khaosData bid parent hr now)
    rwa [hp] at this
  | @removed parent now _ _ _ hp =>
    have := ha.push (numbered_khaosData bid parent hr now)
    rw [hp] at this
    exact this.removeBlk bid

theorem Failed.numbered {b b' : BlockManager H} {block : RawBlock} {retained : Bool}
    (h : Failed env b b' block retained) (hal : b.khaos.All Numbered) :
    b'.khaos.All Numbered := by
  rcases h.khaos with hs | ⟨left, bid, raw, -, hr, -, ha⟩
  · rwa [hs]
  · exact ha.numbered hr hal

theorem applyBlockMode_keeps (block : RawBlock) (now : Int) (retained : Bool)
    (f : BlockApplyError → ε) :
    Prog.Keeps NodeOk (onBlocks f (BlockManager.applyBlockMode env block now retained)) := by
  refine .zoom fun node hn => ?_
  obtain ⟨hso, hh⟩ := hn
  cases hs : node.pool.session with
  | some id =>
    rw [hs] at hh
    obtain ⟨e, hr⟩ := applyBlockMode_of_active env block now retained
      hh.active_ne_zero
    rw [hr]
    exact ⟨hso, hs ▸ hh⟩
  | none =>
    rw [hs] at hh
    have hsp := applyBlockMode_spec env hh hso.1 block now retained
    rcases hr : BlockManager.applyBlockMode env block now retained node.blocks with
      ⟨e | bid, b'⟩ <;> rw [hr] at hsp
    · refine ⟨⟨hsp.cache, hsp.numbered hso.2⟩, ?_⟩
      show Held b'.sessions node.pool.session
      rw [hs]
      exact hsp.quiescent hh
    · obtain ⟨raw, ha⟩ := hsp
      refine ⟨⟨ha.cache, ha.numbered hso.2⟩, ?_⟩
      show Held b'.sessions node.pool.session
      rw [hs]
      exact ha.quiescent hh

theorem rewindCheckpoint_keeps (id : BlockId) :
    Prog.Keeps (NodeOk (H := H)) (onNodeSessions (Sessions.rewindCheckpoint id)) := by
  refine .zoom fun node hn => ?_
  obtain ⟨hso, hh⟩ := hn
  have hsa : (onSessions (fun e : SessionError => e) (Sessions.rewindCheckpoint id)
      node.blocks).2 =
        { node.blocks with sessions := (Sessions.rewindCheckpoint id node.blocks.sessions).2 } := by
    rw [onSessions, Prog.zoom]
    rcases Sessions.rewindCheckpoint id node.blocks.sessions with ⟨_ | _, _⟩ <;> rfl
  rw [hsa]
  refine ⟨hso, ?_⟩
  show Held (Sessions.rewindCheckpoint id node.blocks.sessions).2 node.pool.session
  cases hs : node.pool.session with
  | some outer =>
    rw [hs] at hh
    rwa [Sessions.rewindCheckpoint_of_active hh.active_ne_zero]
  | none =>
    rw [hs] at hh
    exact Sessions.Quiescent.rewindCheckpoint hh id

open ForkManager

theorem onKhaos_keeps {α : Type} (f : KhaosError → ε)
    {x : Prog (KhaosDatabase ManagedBlock) KhaosError α}
    (hx : ∀ db, db.All Numbered → (x db).2.All Numbered) :
    Prog.Keeps (NodeOk (H := H)) (onBlocks (fun e : ε => e) (onKhaos f x)) := by
  refine .zoom fun node hn => ?_
  have hs : (onKhaos f x node.blocks).2 =
      { node.blocks with khaos := (x node.blocks.khaos).2 } := by
    rw [onKhaos, Prog.zoom]
    rcases x node.blocks.khaos with ⟨_ | _, _⟩ <;> rfl
  rw [hs]
  exact ⟨⟨hn.cache, hx _ hn.numbered⟩, hn.held⟩

theorem onNodeKhaos_setHead_keeps (id : BlockId) :
    Prog.Keeps (NodeOk (H := H)) (onNodeKhaos (KhaosDatabase.setHead id)) :=
  onKhaos_keeps _ fun _ h => h.setHead id

theorem onNodeKhaos_removeBlk_keeps (id : BlockId) :
    Prog.Keeps (NodeOk (H := H)) (onNodeKhaos (KhaosDatabase.removeBlk id)) :=
  onKhaos_keeps _ fun _ h => h.removeBlk id

/-- A change that leaves the sessions, the cache and the pool alone. -/
theorem set_khaos_keeps {node : FullNode H} (hn : NodeOk node)
    {khaos : KhaosDatabase ManagedBlock} (hk : khaos.All Numbered) :
    NodeOk { node with blocks := { node.blocks with khaos := khaos } } :=
  ⟨⟨hn.cache, hk⟩, hn.held⟩

theorem fork_publish_keeps (event : ChainEvent) :
    Prog.Keeps (NodeOk (H := H)) (ForkManager.publish event) :=
  .modify fun _ hn => ⟨hn.sound, hn.held⟩

theorem fork_publishContracts_keeps (id : BlockId) (removed : Bool) (index : Nat)
    (txs : List Bytes) :
    Prog.Keeps NodeOk (ForkManager.publishContracts env id removed index txs) := by
  induction txs generalizing index with
  | nil => exact .pure
  | cons bytes rest ih =>
    exact .bind .ofExcept fun tx => .bind (fork_publish_keeps _) fun _ => ih (index + 1)

theorem publishRemoved_keeps (block : ManagedBlock) :
    Prog.Keeps NodeOk (publishRemoved env block) :=
  .bind (fork_publishContracts_keeps _ _ _ _) fun _ =>
    .bind (fork_publish_keeps _) fun _ => fork_publish_keeps _

theorem publishReapplied_keeps (branch : List ManagedBlock) :
    Prog.Keeps NodeOk (publishReapplied env branch) :=
  .forM fun _ _ => .bind (fork_publishContracts_keeps _ _ _ _) fun _ =>
    .bind (fork_publish_keeps _) fun _ => .bind (fork_publish_keeps _) fun _ =>
    fork_publish_keeps _

theorem fork_replayPending_keeps (strict : Bool) (now : Int) :
    Prog.Keeps NodeOk (ForkManager.replayPending env strict now) := by
  refine .bind .get fun node => ?_
  cases node.blocks.khaos.getHead with
  | none => exact .throw
  | some head =>
    dsimp only
    cases head.value.raw.rawHeader with
    | none => exact .throw
    | some raw => exact .mapError (replaySpeculative_keeps _ _)

theorem retract_keeps (block : ManagedBlock) : Prog.Keeps (NodeOk (H := H)) (retract block) := by
  refine .bind (.mapError (rewindCheckpoint_keeps _)) fun rewound => ?_
  refine .ite (fun _ => .throw_bind) fun _ => .of_state fun node hn => ?_
  dsimp only
  rw [Prog.bind_of_ok (Prog.get_run node)]
  exact (Prog.Keeps.ite (fun _ => .throw_bind) fun _ =>
    .of_state fun _ _ => set_khaos_keeps hn hn.numbered.pop).state hn

theorem applyFork_keeps (block : ManagedBlock) : Prog.Keeps NodeOk (applyFork env block) :=
  .bind (applyBlockMode_keeps _ _ _ _) fun _ => .pure

theorem setCache_keeps {f : TransactionCache → TransactionCache} (h : ∀ c, c.Valid → (f c).Valid) :
    Prog.Keeps (NodeOk (H := H)) (setCache f) :=
  .modify fun _ hn => ⟨⟨h _ hn.cache, hn.numbered⟩, hn.held⟩

theorem restoreAfterFailedFork_keeps (snapshot : ForkPendingSnapshot) :
    Prog.Keeps (NodeOk (H := H)) (PendingPool.restoreAfterFailedFork snapshot) :=
  .bind (modifyPool_keeps fun _ => rfl) fun _ => openSession_keeps

/-- A pool that was resumed has a session. -/
theorem resumeAfterFork_spec (abandoned : List PendingTransaction) (now : Int) :
    Prog.Triple (NodeOk (H := H)) (PendingPool.resumeAfterFork abandoned now)
      (fun _ node => ∃ outer, NodeOpen outer node) fun _ => True := by
  rintro node ⟨hso, hh⟩
  cases hs : node.pool.session with
  | some id =>
    rw [PendingPool.resumeAfterFork, Prog.bind_of_ok (Prog.get_run node), hs]
    trivial
  | none =>
    rw [hs] at hh
    rw [resumeAfterFork_run abandoned now hh hs]
    exact ⟨_, .mk' hso rfl hh.bump (.of_bump hh.toTidy) rfl⟩

theorem resumeAfterFork_keeps (abandoned : List PendingTransaction) (now : Int) :
    Prog.Keeps (NodeOk (H := H)) (PendingPool.resumeAfterFork abandoned now) := by
  refine .bind .get fun node => .ite (fun _ => .throw_bind) fun _ => ?_
  exact .bind (modifyPool_keeps fun _ => rfl) fun _ => openSession_keeps

/-- **The restoration of the old branch** keeps the invariant wherever it stops. -/
theorem restore_keeps (env : Environment H) (oldHead ancestor : BlockId) (newBranch oldBranch : List ManagedBlock)
    (appliedCount : Nat) {cacheBefore : TransactionCache} (hc : cacheBefore.Valid)
    (snapshot : ForkPendingSnapshot) (now : Int) :
    Prog.Keeps NodeOk (restore env oldHead ancestor newBranch oldBranch appliedCount cacheBefore
      snapshot now) := by
  refine .bind (.forM fun _ _ => retract_keeps _) fun _ => ?_
  refine .bind (.forM fun _ _ => .bind (.attempt (onNodeKhaos_removeBlk_keeps _)) fun _ => .pure) fun _ => ?_
  refine .bind (onNodeKhaos_setHead_keeps _) fun _ => .bind (setCache_keeps fun _ h => h.clear) fun _ => ?_
  refine .bind (.forM fun _ _ => applyFork_keeps _) fun _ => .bind (onNodeKhaos_setHead_keeps _) fun _ => ?_
  exact .bind (setCache_keeps fun _ _ => hc) fun _ =>
    .bind (.mapError (restoreAfterFailedFork_keeps _)) fun _ => fork_replayPending_keeps _ _

theorem failSwitch_keeps {α : Type} (original : ForkSwitchError) (discard : Option SessionError)
    {restoration : ForkM H Unit} (hr : Prog.Keeps NodeOk restoration)
    (reapplied : List ManagedBlock) :
    Prog.Keeps NodeOk
      (failSwitch env original discard restoration reapplied : ForkM H α) := by
  refine .bind (.attempt hr) fun result => ?_
  cases result with
  | error e => exact .throw
  | ok _ =>
    refine .bind (publishReapplied_keeps _) fun _ => ?_
    cases discard <;> exact .throw

theorem rewindOld_keeps (oldHead : BlockId) (newBranch : List ManagedBlock)
    {cacheBefore : TransactionCache} (hc : cacheBefore.Valid) (snapshot : ForkPendingSnapshot)
    (now : Int) (blocks done : List ManagedBlock) :
    Prog.Keeps NodeOk (rewindOld env oldHead newBranch cacheBefore snapshot now blocks done) := by
  induction blocks generalizing done with
  | nil => exact .pure
  | cons block rest ih =>
    refine .bind (publishRemoved_keeps _) fun _ =>
      .bind (.attempt (rewindCheckpoint_keeps _)) fun rewound => .of_state fun node hn => ?_
    rw [Prog.bind_of_ok (Prog.get_run node)]
    rcases rewound with e | _ | _
    · exact (failSwitch_keeps _ _ (restore_keeps env _ _ _ _ _ hc _ _) _).state hn
    · exact (failSwitch_keeps _ _ (restore_keeps env _ _ _ _ _ hc _ _) _).state hn
    · refine (Prog.Keeps.ite (fun _ => ?_) fun _ => ?_).state hn
      · exact .bind (.of_state fun _ _ => set_khaos_keeps hn hn.numbered.pop) fun _ => ih _
      · exact failSwitch_keeps _ _ (restore_keeps env _ _ _ _ _ hc _ _) _

theorem applyNew_keeps (blocks : List ManagedBlock) (applied : Nat) :
    Prog.Keeps NodeOk (applyNew env blocks applied) := by
  induction blocks generalizing applied with
  | nil => exact .pure
  | cons block rest ih =>
    refine .bind (.attempt (applyFork_keeps _)) fun result => ?_
    cases result with
    | error e => exact .pure
    | ok _ => exact ih _

theorem failRebuild_keeps {α : Type} (original : ForkSwitchError) {restoration : ForkM H Unit}
    (hr : Prog.Keeps NodeOk restoration) (oldBranch : List ManagedBlock) :
    Prog.Keeps NodeOk (failRebuild env original restoration oldBranch : ForkM H α) := by
  refine .bind (.attempt discardForkRebuild_keeps) fun result => ?_
  cases result with
  | error e =>
    exact .bind forceDiscardForkRebuild_keeps fun _ => failSwitch_keeps _ _ hr _
  | ok _ => exact failSwitch_keeps _ _ hr _

theorem finishForkRequeue_session (pool : PendingPool) :
    pool.finishForkRequeue.session = pool.session := rfl

theorem switchBranches_keeps (oldHead newHead ancestor : BlockId)
    (newNodes oldNodes : List ManagedBlock) (abandoned : List PendingTransaction) (now : Int) :
    Prog.Keeps NodeOk
      (switchBranches env oldHead newHead ancestor newNodes oldNodes abandoned now) := by
  refine .bind (onNodeKhaos_setHead_keeps _) fun _ => .bind (.mapError suspendForFork_keeps) fun snapshot => ?_
  refine .of_state fun node hn => ?_
  rw [Prog.bind_of_ok (Prog.get_run node)]
  have hc := hn.cache
  refine Prog.Keeps.state (.bind (setCache_keeps fun _ h => h.clear) fun _ =>
    .bind (rewindOld_keeps _ _ hc _ _ _ _) fun _ => .bind (onNodeKhaos_setHead_keeps _) fun _ =>
    .bind (applyNew_keeps _ _) fun applied => ?_) hn
  obtain ⟨applied, failure⟩ := applied
  have hr := restore_keeps env oldHead ancestor
    (newNodes.reverse.map fun block =>
      { block with raw := block.raw.clearSignatureVerificationCache })
    oldNodes.reverse applied hc snapshot now
  cases failure with
  | some original => exact failSwitch_keeps _ _ hr _
  | none =>
    refine .bind (.attempt (resumeAfterFork_keeps _ _)) fun resumed => ?_
    cases resumed with
    | error e => exact failRebuild_keeps _ hr _
    | ok _ =>
      refine .bind (.attempt (fork_replayPending_keeps _ _)) fun replayed => ?_
      cases replayed with
      | error e => exact failRebuild_keeps _ hr _
      | ok _ =>
        exact .bind (modifyPool_keeps finishForkRequeue_session) fun _ =>
          .bind (publishReapplied_keeps _) fun _ => .pure

theorem canonicalHead_keeps : Prog.Keeps (NodeOk (H := H)) canonicalHead := by
  refine .bind .get fun node => ?_
  cases node.blocks.sessions.readView.lookup Marker.latestBlockHeaderHash.key with
  | none => exact .throw
  | some bytes =>
    dsimp only
    cases Hash32.ofBytes? bytes <;> first | exact .throw | exact .pure

theorem numbered_removeBadBranch (fuel : Nat) (id : BlockId) {db : KhaosDatabase ManagedBlock}
    (h : db.All Numbered) : (removeBadBranch fuel id db).All Numbered := by
  induction fuel generalizing id db with
  | zero => exact h
  | succ fuel ih =>
    have hr := h.removeBlk id
    rw [removeBadBranch]
    rcases hru : KhaosDatabase.removeBlk id db with ⟨e | _, db'⟩ <;> rw [hru] at hr
    · exact hr
    · cases (db.getBlock id).map (·.parentId) with
      | none => exact hr
      | some parent => exact ih parent hr

/-- **Switching to another branch** keeps the invariant, whether it succeeds or not. -/
theorem switch_keeps (newHead : BlockId) (now : Int) :
    Prog.Keeps NodeOk (ForkManager.switch env newHead now) := by
  refine .bind canonicalHead_keeps fun oldHead => .of_state fun node hn => ?_
  rw [Prog.bind_of_ok (Prog.get_run node)]
  dsimp only
  cases node.blocks.khaos.getBranch newHead oldHead with
  | error e =>
    have hk := set_khaos_keeps hn
      (numbered_removeBadBranch (branchFuel node.blocks.khaos) newHead hn.numbered)
    exact (Prog.Keeps.bind (.of_state fun _ _ => hk) fun _ => .throw).state hn
  | ok branches =>
    obtain ⟨newNodes, oldNodes⟩ := branches
    dsimp only
    cases newNodes.getLast? with
    | none => exact hn
    | some last =>
      dsimp only
      cases node.blocks.khaos.parentOf last with
      | none => exact hn
      | some ancestor =>
        exact (Prog.Keeps.bind .ofExcept fun _ => switchBranches_keeps _ _ _ _ _ _ _).state hn

end Fork

end RustTron.Execution
