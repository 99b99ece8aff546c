import RustTron.Execution.Requests
import RustTron.Execution.NonInterference

/-!
# Restoring the pool after a failed block

Before a block is applied the pool is suspended; where the block fails, the pool gets its queues
back and every queued transaction is executed again in a new session. That replay is strict: it
comes to its end only where every transaction succeeds once more.

An admission leaves the id of its transaction in the transaction cache, and the cache that the
block manager goes back to is the one of the suspension. The replay looks every transaction up in
that cache, so the newest one is refused as a duplicate of itself for as long as its entry is alive.

## Main definitions

* `Built`: the pools after any sequence of admissions
* `Restores`: a pool that is suspended, restored and replayed is as it was

## Main results

* `Admitted.admission`: what an admission preserves, whatever becomes of the transaction
* `replayLoop_refused`: no strict replay gets past a transaction that the cache still recalls
* `restores_iff_items_nil`: the pool is restored at all times if and only if nothing is queued
-/

namespace RustTron.Execution

open State

variable {H : Type}

/-- The three queues of a pool. -/
def PendingPool.queues (pool : PendingPool) :
    List PendingTransaction × List PendingTransaction × List PendingTransaction :=
  (pool.pending, pool.popped, pool.smart)

def PendingPool.queueIds (pool : PendingPool) : List Hash32 × List Hash32 × List Hash32 :=
  (pool.pending.map (·.id), pool.popped.map (·.id), pool.smart.map (·.id))

/-- The speculative state: what is read through the session of the pool. -/
def FullNode.speculative (node : FullNode H) : Image :=
  Session.rows node.pool.session node.blocks.sessions

/-- The admission of `broadcast_raw`, over the head with this header. -/
def admitBroadcast (env : Environment H) (raw : RawHeader) (item : PendingTransaction) (now : Int) :
    Prog (FullNode H) ChainManagerError BroadcastResult :=
  PendingPool.admitItem item now ChainManagerError.ofSession
    (executeBroadcast env item.transaction raw now)

/-- The full nodes whose pool comes from any sequence of admissions over one head. -/
inductive Built (env : Environment H) (raw : RawHeader) : FullNode H → Prop
  | new {b : BlockManager H} {limits : PendingLimits} {pool : PendingPool} {s : Sessions}
      (hsound : Sound b) (hquiescent : b.sessions.Quiescent)
      (h : PendingPool.new limits b.sessions = (.ok pool, s)) (events : List ChainEvent) :
      Built env raw ⟨{ b with sessions := s }, pool, events⟩
  | admission {node : FullNode H} (h : Built env raw node) (item : PendingTransaction) (now : Int) :
      Built env raw (admitBroadcast env raw item now node).2

/-- **The restoration of a pool**: it is suspended, restored and strictly replayed, and then holds
the same queues and the same speculative state. Nothing else happens in between. -/
def Restores (env : Environment H) (raw : RawHeader) (now : Int) (node : FullNode H) : Prop :=
  ∃ snapshot suspended restored replayed,
    PendingPool.suspendForFork node = (.ok snapshot, suspended) ∧
    PendingPool.restoreAfterFailedFork snapshot suspended = (.ok (), restored) ∧
    PendingPool.replaySpeculative env true (.at .network raw now none) restored =
      (.ok (), replayed) ∧
    replayed.speculative = node.speculative ∧ replayed.pool.queueIds = node.pool.queueIds

variable {env : Environment H} {raw : RawHeader}

/-! ## What the cache recalls -/

section Recalls

variable {config : CacheConfig} {id : Hash32} {received now : Int} {c : TransactionCache}

/-- The cache holds an entry for `id` from the time `received`. -/
structure TransactionCache.Recalls (config : CacheConfig) (id : Hash32) (received : Int)
    (c : TransactionCache) : Prop where
  valid : c.Valid
  config_eq : c.config = config
  mem : (id, received) ∈ c.order

theorem TransactionCache.Recalls.mem_live (h : Recalls config id received c)
    (hn : now - received < config.ttlMillis) :
    (id, received) ∈ live c.config.ttlMillis now c.order := by
  rw [live, List.mem_filter, h.config_eq]
  exact ⟨h.mem, decide_eq_true hn⟩

open TransactionCache (Recalls)

theorem TransactionCache.Recalls.refused (h : Recalls config id received c)
    (hn : now - received < config.ttlMillis) :
    match TransactionCache.containsRecent id now c with
    | (.ok found, _) => found = true
    | (.error _, _) => True := by
  by_cases ht : c.InTime now
  · rw [TransactionCache.containsRecent_eq h.valid ht]
    exact decide_eq_true (List.mem_map_of_mem (f := Prod.fst) (h.mem_live hn))
  · obtain ⟨e, hr⟩ : ∃ e, TransactionCache.containsRecent id now c = (.error e, c) :=
      TransactionCache.containsRecent_of_not_inTime ht
    rw [hr]
    trivial

theorem TransactionCache.Recalls.containsRecent (h : Recalls config id received c)
    (hn : now - received < config.ttlMillis) (other : Hash32) :
    Recalls config id received (TransactionCache.containsRecent other now c).2 := by
  by_cases ht : c.InTime now
  · rw [TransactionCache.containsRecent_eq h.valid ht]
    exact ⟨h.valid.expired ht, h.config_eq, h.mem_live hn⟩
  · obtain ⟨e, hr⟩ : ∃ e, TransactionCache.containsRecent other now c = (.error e, c) :=
      TransactionCache.containsRecent_of_not_inTime ht
    rw [hr]
    exact h

theorem TransactionCache.mem_order_inserted (h : c.Valid) (number : Int) :
    (id, received) ∈ (c.inserted id number received).order := by
  obtain ⟨m, hm⟩ : ∃ m, c.config.maximumEntries = m + 1 :=
    ⟨_, (Nat.succ_pred_eq_of_pos h.maximum).symm⟩
  show (id, received) ∈ keepLast c.config.maximumEntries _
  rw [keepLast, hm, List.drop_append_of_le_length (by simp)]
  exact List.mem_append_right _ (List.mem_singleton.mpr rfl)

/-- **Processing a transaction** leaves what the cache recalls. -/
theorem processInSession_recalls (hn : now - received < config.ttlMillis) (session : Session)
    (tx : RawWireTransaction) {context : ProcessContext} (hc : context.now = now) :
    Prog.Keeps (fun b : BlockManager H => Recalls config id received b.cache)
      (processInSession env session tx context) := by
  have hs {α ε : Type} (f : SessionError → ε) (x : SessionM α) :
      Prog.Keeps (fun b : BlockManager H => Recalls config id received b.cache)
        (onSessions f x) := .zoom fun _ h => h
  subst hc
  refine .bind .get fun _ => .bind .ofExcept fun _ => .bind (.zoom fun b h => ?_) fun _ => ?_
  · exact h.containsRecent hn _
  refine .ite (fun _ => .throw_bind) fun _ => .bind .get fun _ => ?_
  refine .ite (fun _ => .throw_bind) fun _ => .bind .ofExcept fun _ => ?_
  exact .bind (hs _ _) fun _ => .bind (hs _ _) fun _ => .pure

end Recalls

/-! ## The replay -/

section Replay

variable {config : CacheConfig} {id : Hash32} {received now : Int} {context : ProcessContext}

open TransactionCache (Recalls)

/-- One item of a replay leaves what the cache recalls, and fails where that is the item itself. -/
theorem replayItem_recalls (hno : now - received < config.ttlMillis) (hc : context.now = now)
    (child : Session) (item : PendingTransaction) :
    Prog.Triple (fun node : FullNode H => Recalls config id received node.blocks.cache)
      (PendingPool.replayItem env context child item)
      (fun result node => Recalls config id received node.blocks.cache ∧
        (env.transactionId item.transaction = id → ∃ e, result.1 = .error e))
      fun _ => True := by
  intro node hn
  have hk : Prog.Keeps (fun node : FullNode H => Recalls config id received node.blocks.cache)
      (onBlocks (fun e : ProcessError => e) (processInSession env child
        item.transaction.clearSignatureVerificationCache context)) :=
    .zoom fun node h => (processInSession_recalls hno child _ hc).state h
  have ha := hk.state hn
  rw [PendingPool.replayItem, Prog.bind_of_ok (Prog.get_run node)]
  rcases hru : onBlocks (fun e : ProcessError => e) (processInSession env child
    item.transaction.clearSignatureVerificationCache context) node with ⟨e | output, node'⟩ <;>
    rw [hru] at ha <;> rw [Prog.bind_of_ok (Prog.attempt_of_eq hru)]
  · exact ⟨ha, fun _ => ⟨e, rfl⟩⟩
  · refine ⟨ha, fun hid => ?_⟩
    obtain ⟨b', hp, -⟩ := Prog.zoom_eq_ok.mp hru
    subst hc hid
    have hr : Recalls config
        (env.transactionId item.transaction.clearSignatureVerificationCache) received
        node.blocks.cache := hn
    exact absurd hp (processInSession_refused (hr.refused hno) output b')

/-- **No strict replay gets past** a transaction that the cache still recalls. The induction is on
the queue, and the cache recalls the transaction all the way to its turn. -/
theorem replayLoop_refused (hno : now - received < config.ttlMillis) (hc : context.now = now)
    (outer : Nat) {items : List (Queue × PendingTransaction)}
    (hm : ∃ entry ∈ items, env.transactionId entry.2.transaction = id)
    (retained : List (Queue × PendingTransaction)) :
    Prog.Triple (fun node : FullNode H => Recalls config id received node.blocks.cache)
      (PendingPool.replayLoop env true context outer items retained)
      (fun _ _ => False) fun _ => True := by
  have hs {α : Type} (x : SessionM α) :
      Prog.Keeps (fun node : FullNode H => Recalls config id received node.blocks.cache)
        (onNodeSessions x) :=
    .zoom fun _ h => (Prog.Keeps.zoom (I := fun b : BlockManager H => Recalls config id received b.cache)
      fun _ h => h).state h
  induction items generalizing retained with
  | nil =>
    obtain ⟨entry, hen, -⟩ := hm
    cases hen
  | cons entry rest ih =>
    obtain ⟨queue, item⟩ := entry
    have hf (e : SessionError) (pool : PendingPool → PendingPool) :
        Prog.Triple (fun node : FullNode H => Recalls config id received node.blocks.cache)
          (do modifyPool pool; throw e : Prog (FullNode H) SessionError Unit)
          (fun _ _ => False) fun _ => True :=
      .bind (R := fun _ _ => True) (.modify fun _ _ => trivial) fun _ => .throw fun _ _ => trivial
    refine .bind (.attempt (.conseq (hs _) (fun _ h => h) (fun _ _ h => h)
      fun _ h => h)) fun built => ?_
    cases built with
    | error e => exact hf e _
    | ok child =>
      refine .bind (replayItem_recalls hno hc child item) fun replayed => ?_
      obtain ⟨result, left⟩ := replayed
      cases result with
      | error e =>
        -- the replay is strict
        refine .bind (R := fun _ _ => True) .any fun _ => ?_
        exact .bind (R := fun _ _ => True) .any fun _ => .throw fun _ _ => trivial
      | ok _ =>
        by_cases hid : env.transactionId item.transaction = id
        · intro node hn
          obtain ⟨e, he⟩ := hn.2 hid
          cases he
        · have hr : ∃ entry ∈ rest, env.transactionId entry.2.transaction = id := by
            obtain ⟨entry, hen, hei⟩ := hm
            rcases List.mem_cons.mp hen with rfl | hen
            · exact absurd hei hid
            · exact ⟨entry, hen, hei⟩
          refine .bind (.attempt (.conseq (hs _) (fun _ h => h.1)
            (fun _ _ h => h) fun _ h => h)) fun merged => ?_
          cases merged with
          | ok _ => exact ih hr _
          | error e =>
            refine .bind (R := fun _ _ => True) .any fun _ => ?_
            exact .bind (R := fun _ _ => True) .any fun _ => .throw fun _ _ => trivial

end Replay

/-! ## The pools that admissions build -/

section Pools

variable {node : FullNode H} {outer : Nat}

/-- What holds of a pool built by admissions: the session of an empty pool has written nothing, and
of a pool that is not empty one transaction was received at the last instant the cache has seen and
is recalled by it. -/
structure Admitted (env : Environment H) (outer : Nat) (node : FullNode H) : Prop where
  sound : Sound node.blocks
  session : node.pool.session = some outer
  sessions : ∃ q values, q.Quiescent ∧ Opened q outer ∧
    node.blocks.sessions = (q.reserve outer).withTop outer values ∧
    (node.pool.items = [] → values = ∅)
  newest : node.pool.items ≠ [] → ∃ item ∈ node.pool.items, ∃ received,
    node.blocks.cache.lastNow = some received ∧
    (env.transactionId item.transaction, received) ∈ node.blocks.cache.order

theorem PendingPool.mem_items_enqueue (pool : PendingPool) (item : PendingTransaction) :
    item ∈ (pool.enqueue item).items := by
  cases hs : item.smart <;> simp [enqueue, pushBack, items, hs]

theorem processPending_failed (b : BlockManager H) (session : Session) (tx : RawWireTransaction)
    (context : ProcessContext) :
    Prog.Triple (· = b) (processPending env session tx context) (fun _ _ => True)
      fun b' => b'.cache = b.cache := by
  refine .get_bind (.bind (R := fun _ _ => True)
    (.conseq (.attempt (R := fun _ _ => True) (E := fun _ => True) .any) (fun _ h => h)
      (fun _ _ _ => trivial) fun _ h => h) fun result => ?_)
  cases result with
  | ok output => exact .pure fun _ _ => trivial
  | error e =>
    exact .bind (R := fun _ b' => b'.cache = b.cache) (.modify fun _ _ => rfl)
      fun _ => .throw fun _ h => h

theorem executeBroadcast_failed {b b' : BlockManager H} {tx : RawWireTransaction}
    {session : Session} {now : Int} {e : ChainManagerError}
    (h : executeBroadcast env tx raw now session b = (.error e, b')) : b'.cache = b.cache := by
  have hf : Prog.Triple (· = b) (executeBroadcast env tx raw now session) (fun _ _ => True)
      fun b' => b'.cache = b.cache :=
    .bind (.mapError (processPending_failed b session tx _)) fun _ => .pure fun _ _ => trivial
  exact hf.of_run_error rfl h

/-- **An admission** keeps the invariant, whether the transaction is refused, fails or is
queued. -/
theorem Admitted.admission (h : Admitted env outer node) (item : PendingTransaction) (now : Int) :
    Admitted env outer (admitBroadcast env raw item now node).2 := by
  rw [admitBroadcast, PendingPool.admitItem, Prog.bind_of_ok (Prog.get_run node)]
  cases node.pool.refusal item now with
  | some reason => exact h
  | none =>
    obtain ⟨q, values, hq, ho, hs, hem⟩ := h.sessions
    have hc : ChildOpen q.bump outer q.nextId := .of_bump hq ho
    have hbu : Sessions.buildChild (some outer) node.blocks.sessions = _ :=
      (congrArg _ hs).trans (buildChild_eq hq)
    rw [h.session]
    dsimp only
    rw [Prog.bind_of_ok (onBlocks_of_onNodeSessions _ (onNodeSessions_of_ok hbu))]
    -- the transaction runs in a child of the session of the pool
    have hk (s : Sessions) (child : Nat) (k : KhaosDatabase ManagedBlock) :
        Prog.Keeps (InBody s child k TransactionCache.Valid)
          (executeBroadcast env item.transaction raw now (some child)) :=
      .bind (.mapError (processPending_keeps _ _)) fun _ => .pure
    have hb := (hk ((q.bump.reserve outer).withTop outer values) q.nextId
      node.blocks.khaos).state (s := { node.blocks with
        sessions := ((q.bump.reserve outer).withTop outer values).withTop q.nextId ∅ })
      ⟨⟨∅, rfl⟩, h.sound.1, rfl⟩
    generalize hin : ({ node.blocks with
      sessions := ((q.bump.reserve outer).withTop outer values).withTop q.nextId ∅ } :
        BlockManager H) = inside at hb ⊢
    have hca : inside.cache = node.blocks.cache := by rw [← hin]
    rcases hr : executeBroadcast env item.transaction raw now (some q.nextId) inside with
      ⟨e | _, b'⟩ <;> rw [hr] at hb <;> obtain ⟨writes, hw⟩ := hb.sessions
    · -- it fails: the child is discarded, and the cache is as it was
      have hd : Session.discard (some q.nextId) b'.sessions = _ :=
        (congrArg _ hw).trans (discard_eq hc values writes)
      have he : onBlocks (fun e : ChainManagerError => e)
          (executeBroadcast env item.transaction raw now (some q.nextId))
          { node with blocks := inside } = (.error e, { node with blocks := b' }) :=
        Prog.zoom_of_error hr
      rw [Prog.bind_of_ok (Prog.attempt_of_eq he)]
      dsimp only
      rw [Prog.bind_of_ok (onBlocks_of_onNodeSessions _ (onNodeSessions_of_ok hd))]
      have hke : b'.cache = node.blocks.cache := (executeBroadcast_failed hr).trans hca
      refine ⟨⟨hb.cache, ?_⟩, h.session, ⟨q.bump, values, hq.bump, hc.opened, rfl, hem⟩, ?_⟩
      · show b'.khaos.All Numbered
        rw [hb.khaos]
        exact h.sound.2
      · show node.pool.items ≠ [] → ∃ item ∈ node.pool.items, ∃ received,
          b'.cache.lastNow = some received ∧
          (env.transactionId item.transaction, received) ∈ b'.cache.order
        rw [hke]
        exact h.newest
    · -- it succeeds: the child is merged, and the item is queued
      have hm : Session.merge (some q.nextId) b'.sessions = _ :=
        (congrArg _ hw).trans (merge_eq hc values writes)
      have he : onBlocks (fun e : ChainManagerError => e)
          (executeBroadcast env item.transaction raw now (some q.nextId))
          { node with blocks := inside } = (.ok (), { node with blocks := b' }) :=
        Prog.zoom_of_ok hr
      rw [Prog.bind_of_ok (Prog.attempt_of_eq he)]
      dsimp only
      rw [Prog.bind_of_ok (Prog.attempt_of_eq (onNodeSessions_of_ok hm))]
      have hqu := PendingPool.mem_items_enqueue node.pool item
      have hv : inside.cache.Valid := by
        rw [hca]
        exact h.sound.1
      obtain ⟨-, hi, -, -⟩ := executeBroadcast_exact hv (by rw [← hin]) hr
      refine ⟨⟨hb.cache, ?_⟩, (enqueue_session _ item).trans h.session,
        ⟨q.bump, writes ∪ values, hq.bump, hc.opened, rfl, fun hit => ?_⟩,
        fun _ => ⟨item, hqu, now, ?_, ?_⟩⟩
      · show b'.khaos.All Numbered
        rw [hb.khaos]
        exact h.sound.2
      · exact absurd (hit ▸ hqu) List.not_mem_nil
      · show b'.cache.lastNow = some now
        rw [hi]
        rfl
      · show (env.transactionId item.transaction, now) ∈ b'.cache.order
        rw [hi]
        exact TransactionCache.mem_order_inserted hv _

/-- **Every pool built by admissions** satisfies the invariant. -/
theorem Built.admitted (h : Built env raw node) : ∃ outer, Admitted env outer node := by
  induction h with
  | @new b limits pool s hs hq h events =>
    obtain ⟨rfl, rfl⟩ := PendingPool.new_eq_ok hq h
    exact ⟨_, hs, rfl, ⟨_, ∅, hq.bump, .of_bump hq.toTidy, rfl, fun _ => rfl⟩,
      fun h => absurd rfl h⟩
  | admission _ item now ih =>
    obtain ⟨outer, ha⟩ := ih
    exact ⟨outer, ha.admission item now⟩

/-- Nothing is executed where nothing is queued, strictly or not. -/
theorem replaySpeculative_empty (env : Environment H) (strict : Bool) (context : ProcessContext)
    (hs : node.pool.session = some outer) (hq : node.pool.queues = ([], [], [])) :
    PendingPool.replaySpeculative env strict context node =
      (.ok (), { node with pool := { node.pool with shielded := 0 } }) := by
  obtain ⟨blocks, ⟨limits, pending, popped, smart, shielded, session⟩, events⟩ := node
  simp only [PendingPool.queues, Prod.mk.injEq] at hq hs
  obtain ⟨rfl, rfl, rfl⟩ := hq
  subst hs
  rfl

theorem restoreAfterFailedFork_run (snapshot : ForkPendingSnapshot)
    (h : node.blocks.sessions.Quiescent) :
    PendingPool.restoreAfterFailedFork snapshot node = (.ok (), { node with
      blocks := { node.blocks with sessions := opened node.blocks.sessions }
      pool := ⟨node.pool.limits, snapshot.pending, snapshot.popped, snapshot.smart,
        snapshot.shielded, some node.blocks.sessions.nextId⟩ }) := by
  rw [PendingPool.restoreAfterFailedFork, Prog.bind_of_ok (modifyPool_run _ node)]
  exact openSession_run h

/-- **Suspended and restored** a pool has its queues again, and a new session over the committed
layers. -/
theorem Admitted.restored (h : Admitted env outer node) :
    ∃ q snapshot, q.Quiescent ∧
      PendingPool.suspendForFork node = (.ok snapshot, node.withSession q none) ∧
      PendingPool.restoreAfterFailedFork snapshot (node.withSession q none) =
        (.ok (), node.withSession (opened q) (some q.nextId)) ∧
      (node.pool.items = [] → node.speculative = q.image) := by
  obtain ⟨q, values, hq, ho, hs, he⟩ := h.sessions
  refine ⟨q, _, hq, suspendForFork_run hq ho hs h.session,
    restoreAfterFailedFork_run _ hq, fun hi => ?_⟩
  rw [FullNode.speculative, h.session, hs, Sessions.rows_withTop, he hi]
  exact FMap.over_empty _

/-- A pool with queued transactions is not restored while the newest of them is alive in the
cache. -/
theorem Admitted.not_restores (h : Admitted env outer node) (hit : node.pool.items ≠ [])
    {now received : Int} (hl : node.blocks.cache.lastNow = some received)
    (hn : now - received < node.blocks.cache.config.ttlMillis) : ¬ Restores env raw now node := by
  rintro ⟨snapshot, suspended, restored, replayed, hs, hre, hr, -, -⟩
  obtain ⟨q, snapshot', hq, hs', hr', -⟩ := h.restored
  cases hs.symm.trans hs'
  cases hre.symm.trans hr'
  obtain ⟨item, hi, received', hl', hm⟩ := h.newest hit
  obtain rfl : received = received' := Option.some.inj (hl.symm.trans hl')
  have hqu : ∃ entry ∈ node.pool.takeReplay, env.transactionId entry.2.transaction =
      env.transactionId item.transaction := by
    simp only [PendingPool.items, List.mem_append] at hi
    simp only [PendingPool.takeReplay, List.mem_append, List.mem_map]
    rcases hi with (hi | hi) | hi
    · exact ⟨(.pending, item), .inl (.inl ⟨item, hi, rfl⟩), rfl⟩
    · exact ⟨(.popped, item), .inl (.inr ⟨item, hi, rfl⟩), rfl⟩
    · exact ⟨(.smart, item), .inr ⟨item, hi, rfl⟩, rfl⟩
  rw [PendingPool.replaySpeculative, Prog.bind_of_ok (Prog.get_run _)] at hr
  exact Prog.Triple.of_run (.bind (R := fun _ (node' : FullNode H) => TransactionCache.Recalls
    node.blocks.cache.config (env.transactionId item.transaction) received node'.blocks.cache)
    (.modify fun _ h => h) fun _ => replayLoop_refused hn rfl q.nextId hqu [])
    ⟨h.sound.1, rfl, hm⟩ hr

theorem Admitted.restores (h : Admitted env outer node) (hi : node.pool.items = [])
    (now : Int) : Restores env raw now node := by
  obtain ⟨q, snapshot, hq, hsu, hr, hs⟩ := h.restored
  have hse : (node.withSession (opened q) (some q.nextId)).pool.session = some q.nextId := rfl
  have hqu : (node.withSession (opened q) (some q.nextId)).pool.queues = ([], [], []) := by
    rw [PendingPool.items, List.append_eq_nil_iff, List.append_eq_nil_iff] at hi
    exact Prod.ext hi.1.1 (Prod.ext hi.1.2 hi.2)
  refine ⟨snapshot, _, _, _, hsu, hr, replaySpeculative_empty env true _ hse hqu,
    ?_, rfl⟩
  rw [hs hi]
  show Session.rows (some q.nextId) (opened q) = q.image
  rw [opened, Sessions.rows_withTop]
  exact FMap.over_empty _

/-- **The restoration of the pool, exactly**: a pool built by admissions is restored at all times if
and only if nothing is queued. Until the newest entry of the cache expires that is so at every
single time. -/
theorem restores_iff_items_nil (h : Built env raw node) :
    ((∀ now, Restores env raw now node) ↔ node.pool.items = []) ∧
      ∀ now received, node.blocks.cache.lastNow = some received →
        now - received < node.blocks.cache.config.ttlMillis →
        (Restores env raw now node ↔ node.pool.items = []) := by
  obtain ⟨outer, hadmitted⟩ := h.admitted
  refine ⟨⟨fun hall => ?_, hadmitted.restores⟩, fun now received hlast hnow =>
    ⟨fun hrestores => ?_, fun hitems => hadmitted.restores hitems now⟩⟩
  · by_contra hitems
    obtain ⟨item, -, received, hlast, -⟩ := hadmitted.newest hitems
    refine hadmitted.not_restores hitems hlast ?_ (hall received)
    rw [sub_self]
    exact hadmitted.sound.1.ttl
  · by_contra hitems
    exact hadmitted.not_restores hitems hlast hnow hrestores

end Pools

namespace Sample

/-- The header of the genesis block. -/
def genesisHeader : RawHeader := ⟨0, List.replicate 32 0, (id 255 0).bytes, 0, [], 0, []⟩

/-- A full node over the genesis block, with an empty pool. -/
def genesisNode : FullNode Unit where
  blocks := { blocks (genesisRows ∅) with sessions := opened (sessions (genesisRows ∅)) }
  pool := ⟨.default, [], [], [], 0, some (sessions (genesisRows ∅)).nextId⟩
  events := []

theorem genesisNode_built : Built network genesisHeader genesisNode := by
  have hok : BlocksOk (blocks (genesisRows ∅)) := freshGenesis.ok
  exact .new ⟨hok.cache, hok.numbered⟩ hok.quiescent
    (PendingPool.new_run hok.quiescent (by decide)) []

/-- A transaction received at the time 1. -/
def received : PendingTransaction := ⟨digest [5], ⟨⟨[5], [], []⟩, [5], [5], false⟩, 1, false, false⟩

/-- The full node that has admitted it. -/
def admittedNode : FullNode Unit := (admitBroadcast network genesisHeader received 1 genesisNode).2

theorem admittedNode_queued : admittedNode.pool.queueIds = ([digest [5]], [], []) := by decide

theorem admittedNode_lastNow : admittedNode.blocks.cache.lastNow = some 1 := by decide

theorem admittedNode_ttl : admittedNode.blocks.cache.config.ttlMillis = 3600000 := by decide

end Sample

/-- A pool in which nothing is queued is restored. -/
theorem genesisNode_restores : Restores Sample.network Sample.genesisHeader 2 Sample.genesisNode :=
  (restores_iff_items_nil Sample.genesisNode_built).1.mpr rfl 2

/-- The pool of a node that has admitted one transaction is not restored a millisecond later. -/
theorem admittedNode_not_restored :
    Built Sample.network Sample.genesisHeader Sample.admittedNode ∧
      Sample.admittedNode.pool.queueIds = ([Sample.digest [5]], [], []) ∧
      ¬ Restores Sample.network Sample.genesisHeader 2 Sample.admittedNode := by
  have hbuilt : Built Sample.network Sample.genesisHeader Sample.admittedNode :=
    .admission Sample.genesisNode_built Sample.received 1
  refine ⟨hbuilt, Sample.admittedNode_queued, ?_⟩
  obtain ⟨outer, hadmitted⟩ := hbuilt.admitted
  refine hadmitted.not_restores (fun hitems => ?_) Sample.admittedNode_lastNow ?_
  · have hpending := congrArg Prod.fst Sample.admittedNode_queued
    rw [PendingPool.items, List.append_eq_nil_iff, List.append_eq_nil_iff] at hitems
    rw [PendingPool.queueIds, hitems.1.1] at hpending
    cases hpending
  · rw [Sample.admittedNode_ttl]
    decide

end RustTron.Execution
