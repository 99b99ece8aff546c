import RustTron.Execution.PoolSpec

/-!
# Requests to a full node

The state after any sequence of requests is one in which the stack is quiescent, or the pool alone
has a session open. While it has, no checkpoint is published and no block is validated: a full node
accepts no block that extends its head.

## Main definitions

* `FullOk`: what holds of a full node between two requests

## Main results

* `Reachable.fullOk`: the invariant of every reachable full node
* `direct_block_rejected`: what becomes of a block that extends the head
-/

namespace RustTron.Execution

open State

variable {H ε : Type} {env : Environment H}

/-! ## The invariant of all requests -/

section Requests

open ChainManager

/-- What holds of a full node between two requests. -/
def FullOk (c : ChainManager H) : Prop :=
  ∃ pool, c.pending = some pool ∧ NodeOk ⟨c.blocks, pool, []⟩

theorem onFull_keeps {α : Type} {x : Prog (FullNode H) ε α} (hx : Prog.Keeps NodeOk x)
    (f : ε → ChainManagerError) : Prog.Keeps FullOk (onFull f x) := by
  refine .of_state fun c hc => ?_
  obtain ⟨pool, hp, hn⟩ := hc
  have hs := hx.state hn
  rw [onFull]
  simp only [hp]
  rcases hr : x ⟨c.blocks, pool, []⟩ with ⟨e | a, node⟩ <;> rw [hr] at hs <;>
    exact ⟨_, rfl, hs.sound, hs.held⟩

theorem ifFull_keeps {x : Prog (FullNode H) ε Unit} (hx : Prog.Keeps NodeOk x)
    (f : ε → ChainManagerError) : Prog.Keeps FullOk (ifFull f x) :=
  .bind .get fun _ => .ite (fun _ => .bind (onFull_keeps hx f) fun _ => .pure) fun _ => .pure

theorem onChainBlocks_keeps {α ε' : Type} {x : Prog (BlockManager H) ε' α}
    (hx : Prog.Keeps NodeOk (onBlocks (fun e : ε' => e) x)) (f : ε' → ChainManagerError) :
    Prog.Keeps FullOk (onChainBlocks f x) := by
  refine .zoom fun c hc => ?_
  obtain ⟨pool, hp, hn⟩ := hc
  have hs := hx.state hn
  refine ⟨pool, hp, ?_⟩
  rw [onBlocks, Prog.zoom] at hs
  rcases hr : x c.blocks with ⟨e | a, b⟩ <;> rw [hr] at hs <;>
    exact ⟨hs.sound, hs.held⟩

theorem Held.sameButMetadata {s t : Sessions} {session : Option Nat} (h : Held s session)
    (hs : s.SameButMetadata t) : Held t session := by
  cases session with
  | none => exact hs.quiescent h
  | some id =>
    obtain ⟨q, values, hq, hid, rfl⟩ := h
    obtain ⟨root, rfl, -⟩ := hs
    exact ⟨{ q with root := root }, values,
      ⟨⟨hq.kept, hq.fresh, hq.enabled⟩, hq.committed, hq.active, hq.pendingOuter⟩,
      ⟨⟨hid.tidy.kept, hid.tidy.fresh, hid.tidy.enabled⟩, hid.fresh, hid.taken⟩, rfl⟩

theorem persist_keeps : Prog.Keeps (FullOk (H := H)) ChainManager.persist := by
  refine .bind .get fun c => .zoom fun c' hc => ?_
  obtain ⟨pool, hp, hn⟩ := hc
  exact ⟨pool, hp, hn.sound, hn.held.sameButMetadata (CheckpointStack.persist_same _ _)⟩

theorem modify_cache_keeps {cache : TransactionCache} (hca : cache.Valid) :
    Prog.Keeps FullOk
      (modify fun c => { c with blocks := { c.blocks with cache := cache } } : ChainM H PUnit) := by
  refine .modify fun c hc => ?_
  obtain ⟨pool, hp, hn⟩ := hc
  exact ⟨pool, hp, ⟨hca, hn.numbered⟩, hn.held⟩

theorem chain_publish_keeps (event : ChainEvent) :
    Prog.Keeps (FullOk (H := H)) (ChainManager.publish event) :=
  .modify fun _ hc => hc

theorem chain_publishContracts_keeps (id : BlockId) (index : Nat) (txs : List Bytes) :
    Prog.Keeps FullOk (ChainManager.publishContracts env id index txs) := by
  induction txs generalizing index with
  | nil => exact .pure
  | cons bytes rest ih =>
    exact .bind .ofExcept fun tx => .bind (chain_publish_keeps _) fun _ => ih (index + 1)

theorem chain_publishApplied_keeps (id : BlockId) :
    Prog.Keeps FullOk (publishApplied env id) := by
  refine .bind .get fun c => ?_
  cases c.blocks.khaos.getBlock id with
  | none => exact .throw
  | some block =>
    exact .bind (chain_publishContracts_keeps _ _ _) fun _ => .bind (chain_publish_keeps _)
      fun _ => .bind (chain_publish_keeps _) fun _ => chain_publish_keeps _

theorem chain_replayPending_keeps (strict : Bool) (now : Int) :
    Prog.Keeps NodeOk (ChainManager.replayPending env strict now) := by
  refine .bind .get fun node => ?_
  cases node.blocks.khaos.getHead with
  | none => exact .throw
  | some head =>
    dsimp only
    cases head.value.raw.rawHeader with
    | none => exact .throw
    | some raw => exact .mapError (replaySpeculative_keeps _ _)

theorem restorePool_keeps (snapshot : Option ForkPendingSnapshot) (now : Int) :
    Prog.Keeps FullOk (restorePool env snapshot now) := by
  cases snapshot with
  | none => exact .pure
  | some snapshot =>
    exact .bind (ifFull_keeps (restoreAfterFailedFork_keeps _) _) fun _ =>
      ifFull_keeps (chain_replayPending_keeps _ _) _

theorem suspend_keeps : Prog.Keeps (FullOk (H := H)) suspend :=
  .bind .get fun _ => .ite
    (fun _ => .bind (onFull_keeps suspendForFork_keeps _) fun _ => .pure) fun _ => .pure

theorem onBlocks_rewindCheckpoint_keeps (id : BlockId) (f : SessionError → ε) :
    Prog.Keeps (NodeOk (H := H))
      (onBlocks (fun e : ε => e) (onSessions f (Sessions.rewindCheckpoint id))) := by
  refine .of_state fun node hn => ?_
  have hs := (rewindCheckpoint_keeps id).state hn
  simp only [onNodeSessions, onBlocks, onSessions, Prog.zoom] at hs ⊢
  rcases hr : Sessions.rewindCheckpoint id node.blocks.sessions with ⟨e | a, s⟩ <;>
    rw [hr] at hs <;> exact hs

theorem rollbackDirect_keeps (id : BlockId) {cache : TransactionCache} (hc : cache.Valid)
    (snapshot : Option ForkPendingSnapshot) (now : Int) :
    Prog.Keeps FullOk (rollbackDirect env id cache snapshot now) := by
  refine .bind (ifFull_keeps discardForkRebuild_keeps _) fun _ => ?_
  refine .bind (onChainBlocks_keeps (onBlocks_rewindCheckpoint_keeps _ _) _) fun _ => ?_
  refine .ite (fun _ => .throw_bind) fun _ => ?_
  refine .bind (onChainBlocks_keeps (onKhaos_keeps _ fun _ h => h.removeBlk id) _) fun _ => ?_
  exact .bind (modify_cache_keeps hc) fun _ => restorePool_keeps _ _

theorem settleDirect_keeps (id : BlockId) {cache : TransactionCache} (hc : cache.Valid)
    (snapshot : Option ForkPendingSnapshot) (now : Int) :
    Prog.Keeps FullOk (settleDirect env id cache snapshot now) := by
  refine .bind (ifFull_keeps (resumeAfterFork_keeps _ _) _) fun _ => ?_
  refine .bind (ifFull_keeps (chain_replayPending_keeps _ _) _) fun _ => ?_
  refine .bind (ifFull_keeps (modifyPool_keeps finishForkRequeue_session) _) fun _ => ?_
  refine .bind (.attempt persist_keeps) fun result => ?_
  cases result with
  | ok _ => exact .bind (chain_publishApplied_keeps _) fun _ => .pure
  | error e =>
    refine .bind (.attempt (rollbackDirect_keeps _ hc _ _)) fun rolledBack => ?_
    cases rolledBack <;> exact .throw

theorem applyDirect_keeps (block : RawBlock) (now : Int) :
    Prog.Keeps FullOk (applyDirect env block now) := by
  refine .bind .ofExcept fun id => .of_state fun c hc => ?_
  rw [Prog.bind_of_ok (Prog.get_run c)]
  have hca : c.blocks.cache.Valid := by
    obtain ⟨_, _, hn⟩ := hc
    exact hn.cache
  refine Prog.Keeps.state (.bind suspend_keeps fun snapshot => ?_) hc
  refine .bind (.attempt (onChainBlocks_keeps (applyBlockMode_keeps _ _ _ _) _)) fun result => ?_
  cases result with
  | ok _ => exact settleDirect_keeps _ hca _ _
  | error e =>
    exact .bind (modify_cache_keeps hca) fun _ => .bind (restorePool_keeps _ _) fun _ => .throw

theorem switchFork_keeps (newHead : BlockId) (now : Int) :
    Prog.Keeps FullOk (switchFork env newHead now) := by
  refine .bind (onFull_keeps (switch_keeps _ _) _) fun _ => .bind (.attempt persist_keeps)
    fun result => ?_
  cases result with
  | error e => exact .throw
  | ok _ => exact .modify fun _ hc => hc

theorem retainCompetingBlock_keeps (block : RawBlock) (now : Int) :
    Prog.Keeps NodeOk (onBlocks (fun e : BlockApplyError => e)
      (BlockManager.retainCompetingBlock env block now)) := by
  refine .zoom fun node hn => ?_
  have hk : Prog.Keeps (fun b : BlockManager H => NodeOk { node with blocks := b })
      (BlockManager.retainCompetingBlock env block now) := by
    refine .bind .ofExcept fun id => .bind .get fun b => .ite (fun _ => .throw_bind) fun _ => ?_
    cases hr : block.rawHeader with
    | none => exact .throw
    | some raw =>
      dsimp only
      cases Hash32.ofBytes? raw.parentHash with
      | none => exact .throw
      | some parent =>
        refine .bind (.zoom fun b hb => ?_) fun _ => .pure
        exact ⟨⟨hb.cache, hb.numbered.push (numbered_khaosData id parent hr now)⟩, hb.held⟩
  exact hk.state hn

theorem acceptBlock_keeps (block : RawBlock) (receivedAt : Int) (allowFork : Bool) :
    Prog.Keeps FullOk (acceptBlock env block receivedAt allowFork) := by
  refine .bind .ofExcept fun id => .bind .get fun c => ?_
  rcases block.rawHeader with _ | raw
  · exact .throw
  rcases c.blocks.khaos.getHead with _ | head
  · exact .throw
  refine .ite (fun _ => applyDirect_keeps _ _) fun _ => .ite (fun _ => .throw) fun _ => ?_
  refine .bind (onChainBlocks_keeps (retainCompetingBlock_keeps _ _) _) fun _ => ?_
  exact .ite (fun _ => .pure) fun _ => .bind (switchFork_keeps _ _) fun _ => .pure

theorem validateAndExecuteIn_keeps {s : Sessions} {id : Nat} {k : KhaosDatabase ManagedBlock}
    (block : RawBlock) (now : Int) :
    Prog.Keeps (InBody s id k TransactionCache.Valid)
      (BlockManager.validateAndExecuteIn env (some id) block now) := by
  refine .bind .get fun b => ?_
  cases block.blockHeader with
  | none => exact .throw
  | some header =>
    dsimp only
    cases header.rawData with
    | none => exact .throw
    | some raw =>
      exact .ite (fun _ => .throw_bind) fun _ => .bind .ofExcept fun _ => .bind .ofExcept fun _ =>
        .bind (applyIn_keeps _ _ _) fun _ => .pure

/-- Validation leaves nothing behind but the session id it took. -/
theorem validateBlock_run (env : Environment H) (block : RawBlock) (now : Int) {b : BlockManager H}
    (hq : b.sessions.Quiescent) (hc : b.cache.Valid) :
    ∃ hooks, (BlockManager.validateBlock env block now b).2 =
      { b with sessions := b.sessions.bump, hooks := hooks } := by
  have hs : Opened b.sessions.bump b.sessions.nextId := .of_bump hq.toTidy
  have hk : Prog.Keeps (InBody b.sessions.bump b.sessions.nextId b.khaos _)
      (BlockManager.validateAndExecuteIn env (some b.sessions.nextId) block now) :=
    validateAndExecuteIn_keeps block now
  have hb := hk.state (s := { b with
    sessions := b.sessions.bump.withTop b.sessions.nextId ∅ }) ⟨⟨_, rfl⟩, hc, rfl⟩
  rw [BlockManager.validateBlock, Prog.bind_of_ok (Prog.get_run b),
    Prog.bind_of_ok (buildSessionEnabled_run hq _)]
  rcases hru : BlockManager.validateAndExecuteIn env (some b.sessions.nextId) block now
    { b with sessions := b.sessions.bump.withTop b.sessions.nextId ∅ } with ⟨result, b₁⟩
  rw [hru] at hb
  obtain ⟨⟨values, hse⟩, -, hkh⟩ := hb
  have hr : Session.revoke (some b.sessions.nextId) b₁.sessions = (.ok (), b.sessions.bump) := by
    rw [hse]
    exact Sessions.revoke_withTop hs.tidy hs.fresh
  simp only [Prog.bind_run, Prog.attempt, hru, Prog.modify_run, onSessions, Prog.zoom, hr]
  refine ⟨b₁.hooks, ?_⟩
  cases result <;> simp only [Prog.ofExcept_ok_run, Prog.ofExcept_error_run, ← hkh]

theorem validateBlock_of_active (env : Environment H) (block : RawBlock) (now : Int) {b : BlockManager H}
    (h : b.sessions.active ≠ 0) :
    BlockManager.validateBlock env block now b =
      (.error (.state (SessionError.activeSessions b.sessions.active).toText), b) := by
  have hb : Sessions.buildSessionEnabled b.sessions = _ := Sessions.buildRoot_of_active h true
  rw [BlockManager.validateBlock, Prog.bind_of_ok (Prog.get_run b),
    Prog.bind_of_error (onSessions_of_error hb)]

theorem validateBlock_keeps (block : RawBlock) (now : Int) :
    Prog.Keeps NodeOk (onBlocks (fun e : BlockApplyError => e)
      (BlockManager.validateBlock env block now)) := by
  refine .zoom fun node hn => ?_
  obtain ⟨hso, hh⟩ := hn
  cases hs : node.pool.session with
  | some id =>
    rw [hs] at hh
    rw [validateBlock_of_active env block now hh.active_ne_zero]
    exact ⟨hso, hs ▸ hh⟩
  | none =>
    rw [hs] at hh
    obtain ⟨hooks, hr⟩ := validateBlock_run env block now hh hso.1
    rw [hr]
    refine ⟨hso, ?_⟩
    show Held node.blocks.sessions.bump node.pool.session
    rw [hs]
    exact Sessions.Quiescent.bump hh

theorem broadcastRaw_keeps (bytes : Bytes) (receivedAt : Int) (smart : Bool) :
    Prog.Keeps FullOk (broadcastRaw env bytes receivedAt smart) := by
  refine .bind .ofExcept fun tx => .bind .get fun c => ?_
  cases c.blocks.khaos.getHead with
  | none => exact .throw
  | some head =>
    dsimp only
    cases head.value.raw.rawHeader with
    | none => exact .throw
    | some header =>
      refine .bind (onFull_keeps (admit_keeps _ _ _ fun outer child => ?_) _) fun _ => .pure
      exact InChild.of_keeps fun _ _ =>
        .bind (.mapError (processPending_keeps _ _)) fun _ => .pure

theorem containsRecent_keeps (id : Hash32) (now : Int) (f : CacheError → ε) :
    Prog.Keeps (NodeOk (H := H))
      (onBlocks (fun e : ε => e) (onCache f (TransactionCache.containsRecent id now))) := by
  refine .zoom fun node hn => ?_
  by_cases ht : node.blocks.cache.InTime now
  · rw [onCache, Prog.zoom_of_ok (TransactionCache.containsRecent_eq hn.cache ht)]
    exact ⟨⟨hn.cache.expired ht, hn.numbered⟩, hn.held⟩
  · obtain ⟨e, hr⟩ := TransactionCache.containsRecent_of_not_inTime ht
    rw [onCache, Prog.zoom_of_error hr]
    exact hn

theorem knownTransaction_keeps (id : Hash32) :
    Prog.Keeps (FullOk (H := H)) (knownTransaction id) := by
  refine .bind .get fun c => .ite (fun _ => .pure) fun _ => ?_
  refine .bind (.attempt (onChainBlocks_keeps (containsRecent_keeps _ _ _) _)) fun result => ?_
  rcases result with e | _ | _ <;> exact .pure

theorem shutdown_keeps : Prog.Keeps (FullOk (H := H)) shutdown := by
  refine .bind (ifFull_keeps discardForkRebuild_keeps _) fun _ =>
    .bind (.attempt persist_keeps) fun result => ?_
  cases result <;> first | exact .throw | exact .pure

/-- **Every request** to a full node keeps the invariant. -/
theorem FullOk.serve {c : ChainManager H} (h : FullOk c) (request : Request) :
    FullOk (c.serve env request) := by
  cases request with
  | broadcast bytes receivedAt smart => exact (broadcastRaw_keeps bytes receivedAt smart).state h
  | validateBlock bytes now =>
    have : Prog.Keeps FullOk (validateNetworkBlock env bytes now) :=
      .bind .ofExcept fun block => onChainBlocks_keeps (validateBlock_keeps _ _) _
    exact this.state h
  | acceptBlock bytes receivedAt =>
    have : Prog.Keeps FullOk (acceptNetworkBlock env bytes receivedAt) :=
      .bind .ofExcept fun block => acceptBlock_keeps _ _ _
    exact this.state h
  | replicaBlock block now =>
    have : Prog.Keeps FullOk (applyReplicaBlock env block now) :=
      .bind .get fun _ => .ite (fun _ => .throw_bind) fun _ => applyDirect_keeps _ _
    exact this.state h
  | known id => exact (knownTransaction_keeps id).state h
  | shutdown => exact shutdown_keeps.state h

theorem FullStart.fullOk {c : ChainManager H} (h : FullStart env c) : FullOk c := by
  obtain ⟨b, limits, pool, s, hg, hpo, hb, hp⟩ := h.start
  have hok := hg.ok
  obtain ⟨rfl, rfl⟩ := PendingPool.new_eq_ok hok.quiescent hpo
  refine ⟨_, hp, ?_⟩
  rw [hb]
  exact ⟨⟨hok.cache, hok.numbered⟩, _, _, hok.quiescent.bump, .of_bump hok.quiescent.toTidy, rfl⟩

/-- **The invariant of every reachable full node.** -/
theorem Reachable.fullOk {c : ChainManager H} (h : Reachable env (FullStart env) c) : FullOk c := by
  induction h with
  | start h => exact h.fullOk
  | serve _ request ih => exact ih.serve request

end Requests

/-! ## Blocks that extend the head -/

section Direct

open ChainManager

variable {c : ChainManager H}

/-- A full node whose pool has a session. -/
def FullOpen (c : ChainManager H) : Prop :=
  ∃ pool outer, c.pending = some pool ∧ NodeOpen outer ⟨c.blocks, pool, []⟩

theorem FullOpen.active_ne_zero (h : FullOpen c) : c.blocks.sessions.active ≠ 0 := by
  obtain ⟨pool, outer, -, hn⟩ := h
  have hh := hn.held
  rw [hn.session] at hh
  exact hh.active_ne_zero

theorem ifFull_resumes (now : Int) (f : SessionError → ChainManagerError) :
    Prog.Triple (FullOk (H := H)) (ifFull f (PendingPool.resumeAfterFork [] now))
      (fun _ => FullOpen) fun _ => True := by
  intro c hc
  obtain ⟨pool, hp, hn⟩ := hc
  have hs := resumeAfterFork_spec [] now _ hn
  have hso : c.pending.isSome = true := by simp [hp]
  rw [ifFull, Prog.bind_of_ok (Prog.get_run c), if_pos hso, Prog.bind_run, onFull]
  simp only [hp]
  rcases hr : PendingPool.resumeAfterFork [] now ⟨c.blocks, pool, []⟩ with ⟨e | _, node⟩ <;>
    rw [hr] at hs
  · trivial
  · obtain ⟨outer, ho⟩ := hs
    exact ⟨_, outer, rfl, ⟨⟨ho.sound, ho.held⟩, ho.session⟩⟩

theorem ifFull_keeps_open {x : Prog (FullNode H) ε Unit}
    (hx : ∀ outer, Prog.Keeps (NodeOpen outer) x) (f : ε → ChainManagerError) :
    Prog.Keeps FullOpen (ifFull f x) := by
  refine .of_state fun c hc => ?_
  obtain ⟨pool, outer, hp, hn⟩ := hc
  have hs := (hx outer).state hn
  have hso : c.pending.isSome = true := by simp [hp]
  rw [ifFull, Prog.bind_of_ok (Prog.get_run c), if_pos hso, Prog.bind_run, onFull]
  simp only [hp]
  rcases hr : x ⟨c.blocks, pool, []⟩ with ⟨e | a, node⟩ <;> rw [hr] at hs <;>
    exact ⟨_, outer, rfl, ⟨⟨hs.sound, hs.held⟩, hs.session⟩⟩

theorem chain_replayPending_keeps_open (outer : Nat) (strict : Bool) (now : Int) :
    Prog.Keeps (NodeOpen outer) (ChainManager.replayPending env strict now) := by
  refine .bind .get fun node => ?_
  cases node.blocks.khaos.getHead with
  | none => exact .throw
  | some head =>
    dsimp only
    cases head.value.raw.rawHeader with
    | none => exact .throw
    | some raw => exact .mapError (replaySpeculative_keeps_open _ _)

/-- Nothing is published while the pool has a session. -/
theorem persist_of_open (h : FullOpen c) : ChainManager.persist c =
    (.error (.session (.activeSessions c.blocks.sessions.active)), c) := by
  have hp : CheckpointStack.persist c.checkpointLimits c.blocks.sessions = _ :=
    CheckpointStack.persist_of_active h.active_ne_zero
  rw [ChainManager.persist, Prog.bind_of_ok (Prog.get_run c), Prog.zoom, hp]

/-- **A direct block never settles** on a full node: its pool is opened before the checkpoint is
published. -/
theorem settleDirect_fails (id : BlockId) (cache : TransactionCache)
    (snapshot : Option ForkPendingSnapshot) (now : Int) :
    Prog.Triple FullOk (settleDirect env id cache snapshot now) (fun _ _ => False)
      fun _ => True := by
  have weaken {α : Type} {x : ChainM H α} (h : Prog.Keeps FullOpen x) :
      Prog.Triple FullOpen x (fun _ => FullOpen) fun _ => True :=
    Prog.Triple.conseq h (fun _ h => h) (fun _ _ h => h) fun _ _ => trivial
  refine .bind (ifFull_resumes now _) fun _ => ?_
  refine .bind (weaken (ifFull_keeps_open (chain_replayPending_keeps_open · _ _) _)) fun _ => ?_
  refine .bind (weaken (ifFull_keeps_open
    (fun outer => modifyPool_keeps_open finishForkRequeue_session) _)) fun _ => ?_
  intro c hc
  rw [Prog.bind_of_ok (Prog.attempt_of_eq (persist_of_open hc))]
  dsimp only
  rw [Prog.bind_run, Prog.attempt]
  rcases rollbackDirect env id cache snapshot now c with ⟨e | _, c'⟩ <;> trivial

theorem applyDirect_fails (env : Environment H) (block : RawBlock) (now : Int) :
    Prog.Triple FullOk (applyDirect env block now) (fun _ _ => False) fun _ => True := by
  have weaken {α : Type} {x : ChainM H α} (h : Prog.Keeps FullOk x) :
      Prog.Triple FullOk x (fun _ => FullOk) fun _ => True :=
    Prog.Triple.conseq h (fun _ h => h) (fun _ _ h => h) fun _ _ => trivial
  refine .bind (weaken .ofExcept) fun id => .bind (weaken .get) fun before => ?_
  refine .bind (weaken suspend_keeps) fun snapshot => ?_
  refine .bind (weaken (.attempt (onChainBlocks_keeps (applyBlockMode_keeps _ _ _ _) _)))
    fun result => ?_
  cases result with
  | ok _ => exact settleDirect_fails _ _ _ _
  | error e =>
    intro c hc
    simp only [Prog.bind_run, Prog.modify_run, Prog.throw_run]
    rcases restorePool env snapshot now _ with ⟨e | _, c'⟩ <;> trivial

/-- The block extends the head of Khaos. -/
def ExtendsHead (c : ChainManager H) (block : RawBlock) : Prop :=
  ∃ raw head, block.rawHeader = some raw ∧ c.blocks.khaos.getHead = some head ∧
    raw.parentHash = head.id.bytes

/-- The block manager once the session of the pool is closed. -/
def suspended (c : ChainManager H) : BlockManager H := (suspend c).2.blocks

/-- The block is accepted: its id is returned, and it is the head of Khaos, the latest block of the
state and the last checkpoint. -/
def Accepted (env : Environment H) (c : ChainManager H) (bytes : Bytes) (now : Int)
    (id : BlockId) : Prop :=
  ∃ c', acceptNetworkBlock env bytes now c = (.ok id, c') ∧
    c'.blocks.khaos.getHead.map (·.id) = some id ∧
    c'.blocks.sessions.readView.lookup Marker.latestBlockHeaderHash.key = some id.bytes ∧
    c'.blocks.sessions.checkpointPoints.getLast?.map (·.identity) = some id

/-- The error of an operation that wants no session open and finds that of the pool. -/
def pendingSessionOpen : ChainManagerError := .block (.state (SessionError.activeSessions 1).toText)

theorem acceptNetworkBlock_fails (hc : FullOk c) {bytes : Bytes} {block : RawBlock} {now : Int}
    (hd : RawBlock.decode env bytes = .ok block) (he : ExtendsHead c block)
    (id : BlockId) (c' : ChainManager H) :
    acceptNetworkBlock env bytes now c ≠ (.ok id, c') := by
  obtain ⟨raw, head, hra, hh, hp⟩ := he
  intro hr
  rw [acceptNetworkBlock, hd, Prog.bind_of_ok (Prog.ofExcept_ok_run _ block c), acceptBlock]
    at hr
  rcases hid : block.blockId env with e | bid
  · rw [hid, Prog.bind_of_error (Prog.ofExcept_error_run _ e c)] at hr
    cases hr
  · rw [hid, Prog.bind_of_ok (Prog.ofExcept_ok_run _ bid c), Prog.bind_of_ok (Prog.get_run c), hra,
      hh] at hr
    dsimp only at hr
    rw [if_pos hp] at hr
    exact (applyDirect_fails env block now).of_run hc hr

/-- **A block that extends the head** is rejected by every full node whose pool is open, and its
validation fails for the open session alone. -/
theorem direct_block_rejected {pool : PendingPool} {bytes : Bytes} {block : RawBlock} {now : Int}
    {id : BlockId} {b' : BlockManager H} (hreachable : Reachable env (FullStart env) c)
    (hpool : c.pending = some pool) (hopen : pool.session.isSome = true)
    (hdecode : RawBlock.decode env bytes = .ok block) (hextends : ExtendsHead c block)
    (_ : BlockManager.applyBlock env block now (suspended c) = (.ok id, b')) :
    ¬ Accepted env c bytes now id ∧
      validateNetworkBlock env bytes now c = (.error pendingSessionOpen, c) := by
  have hok := Reachable.fullOk hreachable
  refine ⟨?_, ?_⟩
  · rintro ⟨c', haccept, -⟩
    exact acceptNetworkBlock_fails hok hdecode hextends id c' haccept
  · obtain ⟨pool', hpool', hnode⟩ := hok
    obtain rfl : pool' = pool := Option.some.inj (hpool'.symm.trans hpool)
    obtain ⟨outer, hsession⟩ := Option.isSome_iff_exists.mp hopen
    have hheld := hnode.held
    rw [hsession] at hheld
    obtain ⟨q, values, hq, -, hsessions⟩ := hheld
    have hactive : c.blocks.sessions.active = 1 := by
      have : c.blocks.sessions = _ := hsessions
      rw [this]
      exact congrArg (· + 1) hq.active
    have hvalidate := validateBlock_of_active env block now (b := c.blocks)
      (by rw [hactive]; exact one_ne_zero)
    rw [hactive] at hvalidate
    rw [validateNetworkBlock, hdecode, Prog.bind_of_ok (Prog.ofExcept_ok_run _ block c),
      onChainBlocks, Prog.zoom_of_error hvalidate]
    rfl

end Direct

namespace Sample

/-- A full node with these blocks, its pool just opened. -/
def openFull (b : BlockManager Unit) : ChainManager Unit :=
  ⟨{ b with sessions := opened b.sessions }, some ⟨.default, [], [], [], 0, some b.sessions.nextId⟩,
    .default, []⟩

theorem openFull_start {b : BlockManager Unit} (h : Grown network .default b) :
    FullStart network (openFull b) :=
  ⟨b, .default, _, _, h, PendingPool.new_run h.ok.quiescent (by decide), rfl, rfl⟩

/-- A full node on the small network. -/
def full : ChainManager Unit := openFull (blocks (genesisRows ∅))

theorem full_start : FullStart network full := openFull_start (.fresh freshGenesis)

theorem first_applies : BlockManager.applyBlock network first 1 (suspended full) =
    (.ok (id 1 1), (BlockManager.applyBlock network first 1 (suspended full)).2) :=
  eq_of_returned (by decide +kernel)

theorem first_extends : ExtendsHead full first :=
  ⟨_, _, rfl, rfl, by decide⟩

end Sample

/-- The first block after the genesis, on a full node. -/
theorem full_rejects_first :
    ¬ Accepted Sample.network Sample.full [1, 1, 0] 1 (Sample.id 1 1) ∧
      ChainManager.validateNetworkBlock Sample.network [1, 1, 0] 1 Sample.full =
        (.error pendingSessionOpen, Sample.full) :=
  direct_block_rejected (.start Sample.full_start) rfl rfl Sample.first_decoded
    Sample.first_extends Sample.first_applies

/-- A full node on a reliable root rejects a block that `apply_block` accepts. -/
theorem applied_block_rejected :
    ChainManager.Reachable Sample.network (FullStart Sample.network) Sample.full ∧
      Sample.full.pending.any (·.session.isSome) = true ∧
      Sample.full.blocks.sessions.root.Reliable ∧
      (BlockManager.applyBlock Sample.network Sample.first 1 (suspended Sample.full)).1 =
        .ok (Sample.id 1 1) ∧
      ¬ Accepted Sample.network Sample.full [1, 1, 0] 1 (Sample.id 1 1) ∧
      (ChainManager.validateNetworkBlock Sample.network [1, 1, 0] 1 Sample.full).1 =
        .error pendingSessionOpen := by
  have hok : FullOk Sample.full := Sample.full_start.fullOk
  refine ⟨.start Sample.full_start, rfl, nofun, congrArg Prod.fst Sample.first_applies, ?_, rfl⟩
  rintro ⟨c', haccept, -⟩
  exact acceptNetworkBlock_fails hok Sample.first_decoded Sample.first_extends _ c' haccept

end RustTron.Execution
