import RustTron.Execution.Node

/-!
# Replicas

A replica has no pending pool: every block it accepts is applied directly, and the checkpoint
stack is published after it. Each block adds a layer and a checkpoint with a full image, and
nothing takes them away again. The durable rows stay those of the genesis.

## Main definitions

* `ReplicaRun`: the blocks a replica has accepted, and its state after them
* `ReplicaOk`: what holds of a replica after any number of blocks
* `Restarts`: a node can be started again from this durable root

## Main results

* `ReplicaRun.ok`: the invariant of a run
* `applyReplicaBlock_ok_iff`: which blocks a replica accepts
* `restarts_iff`: when a replica can be restarted
-/

namespace RustTron.Execution

open State

variable {H : Type} {env : Environment H} {c c' : ChainManager H} {block : RawBlock} {now : Int}

namespace ChainManager

/-! ## One block -/

theorem publish_keeps {P : ChainManager H → Prop}
    (h : ∀ c events, P c → P { c with events := events }) (event : ChainEvent) :
    Prog.Keeps P (publish event) :=
  .modify fun c hc => h c _ hc

theorem publishContracts_keeps {P : ChainManager H → Prop}
    (h : ∀ c events, P c → P { c with events := events }) (id : BlockId) (index : Nat)
    (txs : List Bytes) : Prog.Keeps P (publishContracts env id index txs) := by
  induction txs generalizing index with
  | nil => exact .pure
  | cons bytes rest ih =>
    exact .bind .ofExcept fun _ => .bind (publish_keeps h _) fun _ => ih _

theorem publishApplied_keeps {P : ChainManager H → Prop}
    (h : ∀ c events, P c → P { c with events := events }) (id : BlockId) :
    Prog.Keeps P (publishApplied env id) := by
  refine .bind .get fun c => ?_
  cases c.blocks.khaos.getBlock id with
  | none => exact .throw
  | some block =>
    exact .bind (publishContracts_keeps h _ _ _) fun _ => .bind (publish_keeps h _) fun _ =>
      .bind (publish_keeps h _) fun _ => publish_keeps h _

theorem publishContracts_run (id : BlockId) (index : Nat) {txs : List Bytes}
    (ht : ∀ bytes ∈ txs, ∃ tx, env.decodeTransaction bytes = .ok tx) (c : ChainManager H) :
    (publishContracts env id index txs c).1 = .ok () := by
  induction txs generalizing index c with
  | nil => rfl
  | cons bytes rest ih =>
    obtain ⟨tx, htx⟩ := ht bytes List.mem_cons_self
    simp only [publishContracts, htx, Prog.bind_run, Prog.ofExcept_ok_run, publish,
      Prog.modify_run]
    exact ih _ (fun bytes' hb' => ht bytes' (List.mem_cons_of_mem _ hb')) _

theorem publishApplied_run {id : BlockId} {data : KhaosBlockData ManagedBlock}
    (hb : c.blocks.khaos.getBlock id = some data)
    (ht : ∀ bytes ∈ data.value.raw.transactionBytes, ∃ tx,
      env.decodeTransaction bytes = .ok tx) :
    (publishApplied env id c).1 = .ok () := by
  have hc : (publishContracts env id 0 data.value.raw.transactionBytes c).1 = .ok () :=
    publishContracts_run id 0 ht c
  rcases hr : publishContracts env id 0 data.value.raw.transactionBytes c with ⟨e | _, c'⟩ <;>
    rw [hr] at hc
  · cases hc
  · simp only [publishApplied, Prog.bind_run, Prog.get_run, hb, hr, publish, Prog.modify_run]

theorem applyReplicaBlock_of_persist (hr : c.pending = none) {id : BlockId}
    (hid : block.blockId env = .ok id) {b' : BlockManager H} {id' : BlockId}
    (ha : BlockManager.applyBlock env block now c.blocks = (.ok id', b')) {count : Nat}
    {s : Sessions}
    (hp : CheckpointStack.persist c.checkpointLimits b'.sessions = (.ok count, s)) :
    applyReplicaBlock env block now c = (do publishApplied env id; pure id : ChainM H BlockId)
      { c with blocks := { b' with sessions := s } } := by
  simp only [applyReplicaBlock, applyDirect, settleDirect, suspend, ifFull, onChainBlocks, persist,
    Prog.bind_run, Prog.get_run, Prog.attempt, Prog.zoom, Prog.pure_run, hr, hid,
    Prog.ofExcept_ok_run, ha, hp, Option.isSome_none, Bool.false_eq_true, if_false]

theorem applyReplicaBlock_of_persist_error (hr : c.pending = none) {id : BlockId}
    (hid : block.blockId env = .ok id) {b' : BlockManager H} {id' : BlockId}
    (ha : BlockManager.applyBlock env block now c.blocks = (.ok id', b'))
    {e : CheckpointError} {s : Sessions}
    (hp : CheckpointStack.persist c.checkpointLimits b'.sessions = (.error e, s)) :
    ∃ e' c', applyReplicaBlock env block now c = (.error e', c') := by
  simp only [applyReplicaBlock, applyDirect, settleDirect, suspend, ifFull, onChainBlocks, persist,
    Prog.bind_run, Prog.get_run, Prog.attempt, Prog.zoom, Prog.pure_run, hr, hid,
    Prog.ofExcept_ok_run, ha, hp, Option.isSome_none, Bool.false_eq_true, if_false]
  generalize rollbackDirect env id c.blocks.cache none now _ = rolled
  obtain ⟨_ | _, _⟩ := rolled <;> exact ⟨_, _, rfl⟩

theorem applyReplicaBlock_of_apply_error (hr : c.pending = none) {b' : BlockManager H}
    {e : BlockApplyError}
    (ha : BlockManager.applyBlock env block now c.blocks = (.error e, b')) :
    ∃ e' c', applyReplicaBlock env block now c = (.error e', c') := by
  rcases hid : block.blockId env with e' | id <;>
    simp only [applyReplicaBlock, applyDirect, suspend, onChainBlocks, restorePool, Prog.bind_run,
      Prog.get_run, Prog.attempt, Prog.zoom, Prog.pure_run, hr, hid, Prog.ofExcept_ok_run,
      Prog.ofExcept_error_run, ha, Option.isSome_none, Bool.false_eq_true, if_false,
      Prog.modify_run, Prog.throw_run] <;> exact ⟨_, _, rfl⟩

/-- **What an accepted block went through**: it was applied, and the checkpoints published. -/
theorem applyReplicaBlock_eq_ok (hr : c.pending = none) {id : BlockId}
    (h : applyReplicaBlock env block now c = (.ok id, c')) :
    ∃ id' b' count s, block.blockId env = .ok id ∧
      BlockManager.applyBlock env block now c.blocks = (.ok id', b') ∧
      CheckpointStack.persist c.checkpointLimits b'.sessions = (.ok count, s) ∧
      c'.blocks = { b' with sessions := s } ∧ c'.pending = none ∧
      c'.checkpointLimits = c.checkpointLimits := by
  rcases hid : block.blockId env with e | id₁
  · simp only [applyReplicaBlock, applyDirect, Prog.bind_run, Prog.get_run, hr, hid,
      Prog.ofExcept_error_run, Option.isSome_none, Bool.false_eq_true, if_false] at h
    cases h
  rcases ha : BlockManager.applyBlock env block now c.blocks with ⟨e | id', b'⟩
  · obtain ⟨e', c₁, he⟩ := applyReplicaBlock_of_apply_error hr ha
    rw [he] at h
    cases h
  rcases hp : CheckpointStack.persist c.checkpointLimits b'.sessions with ⟨e | count, s⟩
  · obtain ⟨e', c₁, he⟩ := applyReplicaBlock_of_persist_error hr hid ha hp
    rw [he] at h
    cases h
  rw [applyReplicaBlock_of_persist hr hid ha hp, Prog.bind_run] at h
  have hk : Prog.Keeps (fun c₁ : ChainManager H => c₁.blocks = { b' with sessions := s } ∧
      c₁.pending = none ∧ c₁.checkpointLimits = c.checkpointLimits) (publishApplied env id₁) :=
    publishApplied_keeps (fun c₁ events h => h) id₁
  have hs := hk.state (s := { c with blocks := { b' with sessions := s } })
    ⟨rfl, hr, rfl⟩
  rcases hru : publishApplied env id₁ { c with blocks := { b' with sessions := s } } with
    ⟨e | _, c₁⟩ <;> rw [hru] at h hs
  · cases h
  · cases h
    exact ⟨id', b', count, s, rfl, rfl, hp, hs⟩

end ChainManager

/-! ## Runs -/

/-- The blocks a replica has accepted since `start`, in order, and its state after them. -/
inductive ReplicaRun (env : Environment H) (start : ChainManager H) :
    List BlockId → ChainManager H → Prop
  | start : ReplicaRun env start [] start
  | accept {ids : List BlockId} {c c' : ChainManager H} {bytes : Bytes} {block : RawBlock}
      {now : Int} {id : BlockId} (h : ReplicaRun env start ids c)
      (hblock : RawBlock.decode env bytes = .ok block)
      (haccept : ChainManager.applyReplicaBlock env block now c = (.ok id, c')) :
      ReplicaRun env start (ids ++ [id]) c'

/-- What holds of a replica that has accepted these blocks. -/
structure ReplicaOk (rows : Image) (genesis : BlockId) (ids : List BlockId)
    (c : ChainManager H) : Prop where
  replica : c.pending = none
  limits : c.checkpointLimits = .default
  quiescent : c.blocks.sessions.Quiescent
  cache : c.blocks.cache.Valid
  linked : c.blocks.khaos.linked.Coherent
  capacity : 0 ≤ c.blocks.khaos.linked.maxCapacity
  root : ∃ faults, c.blocks.sessions.root =
    ⟨rows, none, some c.blocks.sessions.checkpoint, faults⟩
  layers : c.blocks.sessions.layers.length = ids.length
  history : c.blocks.sessions.checkpoints.length = ids.length + 1
  last : c.blocks.sessions.checkpoints.getLast?.map (·.point.identity) =
    (genesis :: ids).getLast?
  grown : ids ≠ [] → ∃ last, c.blocks.sessions.checkpoints.getLast? = some last ∧
    0 < last.point.block

theorem ReplicaOk.start {genesis : BlockId} {retainedDepth : Nat}
    (h : FreshReplica env genesis retainedDepth c) :
    ∃ rows, GenesisRows rows genesis ∧ ReplicaOk rows genesis [] c := by
  obtain ⟨rows, faults, hr, hp⟩ := h.blocks.sessions
  obtain ⟨hf, hq, -⟩ := prepareGenesis_spec hp
  obtain ⟨config, hc⟩ := h.blocks.cache
  obtain ⟨data, -, -, -, hs, -⟩ := reopen_genesis
    (by rw [Sessions.checkpointPoints, hf.checkpoints]; rfl) h.blocks.khaos
  refine ⟨rows, hr, h.replica, h.limits, hq, .new hc, hs.linked, ?_,
    hf.root, ?_, ?_, ?_, fun hne => absurd rfl hne⟩
  · rw [hs.capacity]
    decide
  · rw [hf.layers]
    rfl
  · rw [hf.checkpoints]
    rfl
  · rw [hf.checkpoints]
    rfl

variable {rows : Image} {genesis : BlockId} {ids : List BlockId}

theorem ReplicaOk.applied (h : ReplicaOk rows genesis ids c) {id : BlockId} {b' : BlockManager H}
    (ha : BlockManager.applyBlock env block now c.blocks = (.ok id, b')) :
    ∃ raw, Applied env c.blocks b' block now false id raw := by
  exact applied_of_applyBlock h.quiescent h.cache ha

theorem ReplicaOk.accept (h : ReplicaOk rows genesis ids c) {id : BlockId}
    (hac : ChainManager.applyReplicaBlock env block now c = (.ok id, c')) :
    ReplicaOk rows genesis (ids ++ [id]) c' := by
  obtain ⟨id', b', count, s, hid, hap, hp, hb, hr, hl⟩ :=
    ChainManager.applyReplicaBlock_eq_ok h.replica hac
  obtain ⟨raw, ha⟩ := h.applied hap
  obtain rfl : id' = id := by
    rw [ha.checked.blockId_eq] at hid
    exact Except.ok.inj hid
  have hq := ha.quiescent h.quiescent
  obtain ⟨values, hs⟩ := ha.sessions
  obtain ⟨hli, hc, -⟩ := ha.khaos h.linked h.capacity
  obtain ⟨-, faults, rfl⟩ := CheckpointStack.persist_eq_ok hq hp
  refine ⟨hr, hl.trans h.limits, ?_, ?_, ?_, ?_, ⟨faults, ?_⟩, ?_, ?_, ?_, fun _ => ?_⟩
  all_goals rw [hb]
  · exact ⟨⟨hq.kept, hq.fresh, hq.enabled⟩, hq.committed, hq.active,
      hq.pendingOuter⟩
  · exact ha.cache
  · exact hli
  · exact hc
  · obtain ⟨faults', hro⟩ := h.root
    have hrow : b'.sessions.root.rows = rows := by
      rw [hs]
      show c.blocks.sessions.root.rows = rows
      rw [hro]
    show (⟨b'.sessions.root.rows, none, _, faults⟩ : StateStore) = ⟨rows, none, _, faults⟩
    rw [hrow]
    rfl
  · show b'.sessions.layers.length = _
    rw [hs]
    simp [Sessions.commitTop, Sessions.bump, h.layers]
  · show b'.sessions.checkpoints.length = _
    rw [hs]
    simp [Sessions.commitTop, Sessions.bump, h.history]
  · show b'.sessions.checkpoints.getLast?.map _ = _
    rw [hs, ← List.cons_append, List.getLast?_concat]
    simp [Sessions.commitTop, Sessions.bump]
  · obtain ⟨last, hla⟩ : ∃ last, c.blocks.sessions.checkpoints.getLast? = some last := by
      rw [← Option.ne_none_iff_exists', Ne, List.getLast?_eq_none_iff, ← List.length_eq_zero_iff,
        h.history]
      exact Nat.succ_ne_zero _
    refine ⟨_, show b'.sessions.checkpoints.getLast? = some _ by
      rw [hs]
      exact List.getLast?_concat, ?_⟩
    exact (Nat.zero_le _).trans_lt (ha.lt_number hla)

theorem ReplicaRun.eq_start {start : ChainManager H} (h : ReplicaRun env start ids c)
    (hi : ids = []) : c = start := by
  cases h with
  | start => rfl
  | accept _ _ _ => simp at hi

/-- **The invariant of a run.** -/
theorem ReplicaRun.ok {start : ChainManager H} {retainedDepth : Nat}
    (hs : FreshReplica env genesis retainedDepth start) (hru : ReplicaRun env start ids c) :
    ∃ rows, GenesisRows rows genesis ∧ ReplicaOk rows genesis ids c := by
  obtain ⟨rows, hr, hok⟩ := ReplicaOk.start hs
  refine ⟨rows, hr, ?_⟩
  induction hru with
  | start => exact hok
  | accept _ _ ha ih => exact ih.accept ha

/-! ## Which blocks are accepted -/

/-- Every transaction of a block that was applied as it came from the wire decodes. -/
theorem Applied.decodes {b b' : BlockManager H} {retained : Bool} {id : BlockId} {raw : RawHeader}
    (h : Applied env b b' block now retained id raw) {bytes : Bytes}
    (hb : RawBlock.decode env bytes = .ok block) :
    ∀ tx ∈ block.transactionBytes, ∃ decoded, env.decodeTransaction tx = .ok decoded := by
  have hn : block.transactions = List.replicate block.transactionBytes.length none := by
    unfold RawBlock.decode at hb
    split at hb
    · cases hb
    · split at hb
      · cases hb
      · cases hb
        rfl
  have hl : block.messageTransactions.length = block.transactionBytes.length := by
    rw [← h.checked.wire, List.length_map]
  intro tx htx
  obtain ⟨i, hi, rfl⟩ := List.mem_iff_getElem.mp htx
  have he : (block.transactionBytes[i], block.messageTransactions[i], none) ∈ block.entries := by
    refine List.mem_iff_getElem.mpr ⟨i, by simp [RawBlock.entries, hn, hl, hi], ?_⟩
    simp [RawBlock.entries, hn]
  obtain ⟨decoded, hd⟩ := h.decoded _ he
  unfold decodedTransaction at hd
  split at hd
  · simp_all
  · split at hd
    · exact ⟨_, ‹_›⟩
    · cases hd

/-- The bytes that a block with these rows adds to a publication: its layer, and a checkpoint
with the whole image. The point of a checkpoint has a fixed size. -/
def blockBytes (s : Sessions) (written : Overlay) : Nat :=
  CheckpointLayer.bytes ⟨s.nextId, true, written⟩ +
    CheckpointHistory.bytes ⟨⟨0, Hash32.zero⟩, s.checkpoints.getLast?.map (·.point.identity),
      FMap.overlay s.image written⟩

theorem encodedBytes_commitTop (s : Sessions) (written : Overlay) (point : CursorPoint) :
    (s.bump.commitTop s.nextId written point).checkpoint.encodedBytes =
      s.checkpoint.encodedBytes + blockBytes s written := by
  simp only [CheckpointState.encodedBytes, Sessions.checkpoint, Sessions.commitTop, Sessions.bump,
    List.map_append, List.map_cons, List.map_nil, List.sum_append, List.sum_cons, List.sum_nil,
    blockBytes, CheckpointHistory.bytes, CheckpointLayer.bytes, Sessions.image]
  omega

/-- A replica accepts a block that `apply_block` accepts exactly if the whole history with it fits
the limits of a publication. -/
theorem ReplicaOk.accepts_iff (hok : ReplicaOk rows genesis ids c)
    {bytes : Bytes} (hb : RawBlock.decode env bytes = .ok block)
    (hro : c.blocks.sessions.root.Reliable) {id : BlockId} {b' : BlockManager H}
    (hap : BlockManager.applyBlock env block now c.blocks = (.ok id, b')) {written : Overlay}
    (hw : b'.sessions.layers.getLast?.map (·.values) = some written) :
    (∃ c', ChainManager.applyReplicaBlock env block now c = (.ok id, c') ∧
      c'.blocks.khaos.getHead.map (·.id) = some id ∧
      c'.blocks.sessions.checkpointPoints.getLast?.map (·.identity) = some id) ↔
    ids.length + 2 ≤ CheckpointLimits.default.maxStack ∧
      c.blocks.sessions.checkpoint.encodedBytes + blockBytes c.blocks.sessions written ≤
        CheckpointLimits.default.maxBytes := by
  obtain ⟨raw, ha⟩ := hok.applied hap
  obtain ⟨values, hs⟩ := ha.sessions
  obtain rfl : values = written := by
    simpa [hs, Sessions.commitTop] using hw
  have hq := ha.quiescent hok.quiescent
  -- the two limits are those of the encoding
  have hf : b'.sessions.checkpoint.encode c.checkpointLimits = .ok b'.sessions.checkpoint ↔
      ids.length + 2 ≤ CheckpointLimits.default.maxStack ∧
        c.blocks.sessions.checkpoint.encodedBytes + blockBytes c.blocks.sessions values ≤
          CheckpointLimits.default.maxBytes := by
    rw [hok.limits, CheckpointState.encode_eq_ok_iff (by decide), hs, encodedBytes_commitTop]
    have hl := hok.layers
    have hh := hok.history
    simp only [Sessions.checkpoint, Sessions.commitTop, Sessions.bump, List.length_map,
      List.length_append, List.length_singleton, hl, hh]
    omega
  rw [← hf]
  have hid := ha.checked.blockId_eq
  constructor
  · rintro ⟨c', hac, -⟩
    obtain ⟨id', b'', count, s, -, ha', hp, -⟩ :=
      ChainManager.applyReplicaBlock_eq_ok hok.replica hac
    rw [hap] at ha'
    cases ha'
    exact (CheckpointStack.persist_eq_ok hq hp).1
  · intro hf
    have hr : b'.sessions.root.Reliable := by
      rw [hs]
      exact hro
    have hp := CheckpointStack.persist_of_fits hq hr hf
    obtain ⟨-, -, data, hd, hhe, hg, transactions, hra⟩ :=
      ha.khaos hok.linked hok.capacity
    rw [ChainManager.applyReplicaBlock_of_persist hok.replica hid hap hp]
    set c₁ : ChainManager H := { c with blocks := { b' with
      sessions := { b'.sessions with root := b'.sessions.root.published b'.sessions.checkpoint } } }
    have hpu : (ChainManager.publishApplied env id c₁).1 = .ok () := by
      have ht : ∀ tx ∈ data.value.raw.transactionBytes, ∃ decoded,
          env.decodeTransaction tx = .ok decoded := by
        rw [hra]
        exact ha.decodes hb
      exact ChainManager.publishApplied_run hg ht
    have hk : Prog.Keeps (fun c₂ : ChainManager H => c₂.blocks = c₁.blocks)
        (ChainManager.publishApplied env id) :=
      ChainManager.publishApplied_keeps (fun _ _ h => h) id
    have hst := hk.state (s := c₁) rfl
    rcases hru : ChainManager.publishApplied env id c₁ with ⟨e | _, c₂⟩ <;>
      rw [hru] at hpu hst
    · cases hpu
    refine ⟨c₂, by rw [Prog.bind_of_ok hru]; rfl, ?_, ?_⟩
    · rw [hst]
      show b'.khaos.getHead.map _ = _
      rw [hhe, Option.map_some, hd]
    · rw [hst]
      show (b'.sessions.checkpoints.map _).getLast?.map _ = _
      simp [hs, Sessions.commitTop]

/-- **Which blocks a replica accepts**: of the blocks that `apply_block` accepts, exactly those
before which at most 254 others were accepted, and with which the images of all blocks since the
genesis still fit into one publication. -/
theorem applyReplicaBlock_ok_iff {start : ChainManager H} {retainedDepth : Nat}
    (hstart : FreshReplica env genesis retainedDepth start) (hrun : ReplicaRun env start ids c)
    {bytes : Bytes} (hblock : RawBlock.decode env bytes = .ok block)
    (hroot : c.blocks.sessions.root.Reliable) {id : BlockId} {b' : BlockManager H}
    (happly : BlockManager.applyBlock env block now c.blocks = (.ok id, b')) {written : Overlay}
    (hwritten : b'.sessions.layers.getLast?.map (·.values) = some written) :
    (∃ c', ChainManager.applyReplicaBlock env block now c = (.ok id, c') ∧
      c'.blocks.khaos.getHead.map (·.id) = some id ∧
      c'.blocks.sessions.checkpointPoints.getLast?.map (·.identity) = some id) ↔
    ids.length ≤ 254 ∧
      c.blocks.sessions.checkpoint.encodedBytes + blockBytes c.blocks.sessions written ≤
        CheckpointLimits.default.maxBytes := by
  obtain ⟨rows, -, hok⟩ := hrun.ok hstart
  rw [hok.accepts_iff hblock hroot happly hwritten]
  have hstack : CheckpointLimits.default.maxStack = 256 := rfl
  omega

/-! ## Restarting -/

/-- A node can be started again from this durable root, with its head at `last`: the published
checkpoints relink, the cursors are at the head and at the solidified block of its state and show
the images of their checkpoints, and Khaos reopens with that head. -/
def Restarts (env : Environment H) (retainedDepth : Nat) (c : ChainManager H) (last : BlockId)
    (root : StateStore) : Prop :=
  ∃ count s cursors khaos,
    CheckpointStack.recoverAndRelink c.checkpointLimits (Sessions.new root) =
      (.ok (some count), s) ∧
    CursorSet.reconstruct s = .ok cursors ∧
    cursors.head.point.identity = last ∧
    CursorSet.markerBlock
      (c.blocks.sessions.readView.lookup Marker.latestSolidifiedBlockNum.key) =
        .ok cursors.solidity.point.block ∧
    (∃ k ∈ c.blocks.sessions.checkpoints, CursorSet.cursorAt k = cursors.head) ∧
    (∃ k ∈ c.blocks.sessions.checkpoints, CursorSet.cursorAt k = cursors.solidity) ∧
    BlockManager.reopen env s retainedDepth = .ok khaos ∧
    khaos.getHead.map (·.id) = some last

theorem reopen_congr {s t : Sessions} (hp : s.checkpointPoints = t.checkpointPoints)
    (hv : s.readView = t.readView) (retainedDepth : Nat) :
    BlockManager.reopen env s retainedDepth = BlockManager.reopen env t retainedDepth := by
  unfold BlockManager.reopen
  rw [hp, hv]

theorem markerBlock_zero : CursorSet.markerBlock (some (be64 0)) = .ok 0 := by
  simp [CursorSet.markerBlock, fromBe64_be64 inI64_zero]

theorem reconstruct_genesis {s : Sessions} (hr : GenesisRows s.root.rows genesis)
    (hc : s.checkpoints = [⟨⟨0, genesis⟩, none, s.root.rows⟩]) :
    ∃ cursors, CursorSet.reconstruct s = .ok cursors ∧
      cursors.head = ⟨⟨0, genesis⟩, s.root.rows⟩ ∧ cursors.solidity = ⟨⟨0, genesis⟩, s.root.rows⟩ := by
  have hid : Hash32.ofBytes? genesis.bytes = some genesis := Hash32.ofBytes?_bytes genesis
  have hp : s.checkpointPoints = [⟨0, genesis⟩] := by
    rw [Sessions.checkpointPoints, hc]
    rfl
  have hu : CursorSet.uniquePoint [⟨0, genesis⟩] 0 = .ok ⟨0, genesis⟩ := rfl
  have hre : CursorSet.resolve s.checkpoints ⟨0, genesis⟩ genesis =
      .ok ⟨⟨0, genesis⟩, none, s.root.rows⟩ := by
    simp [hc, CursorSet.resolve, CursorSet.findCheckpoint, CursorSet.isAncestor]
  have hn : CursorSet.new s ⟨0, genesis⟩ (some ⟨0, genesis⟩) none 0 =
      .ok ⟨⟨⟨0, genesis⟩, s.root.rows⟩, ⟨⟨0, genesis⟩, s.root.rows⟩, ⟨⟨0, genesis⟩, s.root.rows⟩,
        0⟩ := by
    have hl : s.checkpoints.getLast? = some ⟨⟨0, genesis⟩, none, s.root.rows⟩ := by
      rw [hc]
      rfl
    simp [CursorSet.new, hl, hre, bind, Except.bind, pure, Except.pure,
      CursorSet.cursorAt]
  refine ⟨⟨⟨⟨0, genesis⟩, s.root.rows⟩, ⟨⟨0, genesis⟩, s.root.rows⟩, ⟨⟨0, genesis⟩, s.root.rows⟩,
    0⟩, ?_, rfl, rfl⟩
  simp only [CursorSet.reconstruct, hr.number, hr.hash, hr.solidified, hr.pbft,
    markerBlock_zero, hid, hp, hu, hn, bind, Except.bind, ne_eq, not_true_eq_false, if_false]

/-- The durable root of a replica: the rows of the genesis, and the checkpoint published last. -/
theorem ReplicaOk.relinks (h : ReplicaOk rows genesis ids c) :
    c.blocks.sessions.root.rows = rows ∧ c.blocks.sessions.root.staged = none ∧
      c.blocks.sessions.root.current = some c.blocks.sessions.checkpoint ∧
      (relinked c.blocks.sessions.root c.blocks.sessions.checkpoint).checkpoints =
        c.blocks.sessions.checkpoints := by
  obtain ⟨faults, hr⟩ := h.root
  refine ⟨by rw [hr], by rw [hr], by rw [hr], ?_⟩
  simp only [relinked, Sessions.checkpoint, List.map_map]
  exact List.map_id _

/-- A replica that has accepted a block cannot be restarted: the durable head marker is still that
of the genesis block. -/
theorem ReplicaOk.not_restarts (h : ReplicaOk rows genesis ids c) (hro : GenesisRows rows genesis)
    (hi : ids ≠ []) {retainedDepth : Nat} {last : BlockId} :
    ¬ Restarts env retainedDepth c last c.blocks.sessions.root := by
  rintro ⟨count, s, cursors, khaos, hr, hcur, -⟩
  obtain ⟨hdu, hst, hcu, hc⟩ := h.relinks
  have hs : s = relinked c.blocks.sessions.root c.blocks.sessions.checkpoint := by
    rcases hd : c.blocks.sessions.checkpoint.decode c.checkpointLimits with e | decoded
    · rw [CheckpointStack.recoverAndRelink_new_error hst hcu hd] at hr
      cases hr
    · rw [CheckpointStack.recoverAndRelink_new hst hcu hd] at hr
      exact (Prod.ext_iff.mp hr).2.symm
  subst hs
  obtain ⟨head, hm, hh⟩ := CursorSet.reconstruct_eq_ok hcur
  have hma : (relinked c.blocks.sessions.root c.blocks.sessions.checkpoint).root.rows = rows :=
    hdu
  rw [hma, hro.number, markerBlock_zero] at hm
  obtain ⟨top, ht, hp⟩ := h.grown hi
  rw [hc, ht, Option.map_some, Option.some.injEq] at hh
  rw [hh, ← Except.ok.inj hm] at hp
  exact lt_irrefl 0 hp

theorem FreshReplica.restarts {retainedDepth : Nat} (h : FreshReplica env genesis retainedDepth c) :
    Restarts env retainedDepth c genesis c.blocks.sessions.root := by
  obtain ⟨rows, faults, hrow, hp⟩ := h.blocks.sessions
  obtain ⟨hf, hq, hfi⟩ := prepareGenesis_spec hp
  obtain ⟨faults', hro⟩ := hf.root
  have hd : c.blocks.sessions.root.rows = rows := by rw [hro]
  have hv : c.blocks.sessions.readView = rows := by
    rw [hq.readView_eq, Sessions.image, hf.layers]
    exact hd
  have hc : c.blocks.sessions.checkpoint = ⟨[], [⟨⟨0, genesis⟩, none, rows⟩]⟩ := by
    simp [Sessions.checkpoint, hf.layers, hf.checkpoints]
  have hde : c.blocks.sessions.checkpoint.decode c.checkpointLimits =
      .ok c.blocks.sessions.checkpoint := by
    rw [h.limits, hc] at hfi ⊢
    obtain ⟨-, -, hb⟩ := (CheckpointState.encode_eq_ok_iff (by decide)).mp hfi
    simp only [CheckpointLimits.default] at hb
    simp [CheckpointState.decode, not_lt.mpr hb, CheckpointState.linked,
      CheckpointLimits.default]
  have hr : (relinked c.blocks.sessions.root c.blocks.sessions.checkpoint).checkpoints =
      [⟨⟨0, genesis⟩, none, c.blocks.sessions.root.rows⟩] := by
    rw [hc, hd]
    rfl
  have hm : GenesisRows
      (relinked c.blocks.sessions.root c.blocks.sessions.checkpoint).root.rows genesis := by
    show GenesisRows c.blocks.sessions.root.rows genesis
    rwa [hd]
  obtain ⟨cursors, hcur, hh, hs⟩ := reconstruct_genesis hm hr
  obtain ⟨data, hda, -, -, hst, -⟩ := reopen_genesis
    (by rw [Sessions.checkpointPoints, hf.checkpoints]; rfl) h.blocks.khaos
  have hme : (⟨⟨0, genesis⟩, none, rows⟩ : CommittedCheckpoint) ∈
      c.blocks.sessions.checkpoints := by
    rw [hf.checkpoints]
    exact List.mem_singleton_self _
  have hsta : c.blocks.sessions.root.staged = none := by rw [hro]
  have hcu : c.blocks.sessions.root.current = some c.blocks.sessions.checkpoint := by
    rw [hro]
  refine ⟨_, _, cursors, c.blocks.khaos,
    CheckpointStack.recoverAndRelink_new hsta hcu hde, hcur, ?_, ?_, ⟨_, hme, ?_⟩,
    ⟨_, hme, ?_⟩, ?_, ?_⟩
  · rw [hh]
  · rw [hs, hv, hrow.solidified]
    exact markerBlock_zero
  · rw [hh, ← hd]
    rfl
  · rw [hs, ← hd]
    rfl
  · rw [← h.blocks.khaos]
    refine reopen_congr ?_ ?_ _
    · rw [Sessions.checkpointPoints, Sessions.checkpointPoints, hr, hf.checkpoints]
      rfl
    · rw [hv, Sessions.readView, captureWhere]
      simp [relinked, Sessions.checkpoint, hf.layers, Sessions.new, hd]
  · rw [KhaosDatabase.getHead, hst.head]
    exact congrArg some hda

/-- **When a replica can be restarted**, after a crash or a shutdown that flushes nothing: only
while it has accepted no block. -/
theorem restarts_iff {start : ChainManager H} {retainedDepth : Nat}
    (hstart : FreshReplica env genesis retainedDepth start) (hrun : ReplicaRun env start ids c)
    {root : StateStore} (hroot : root = c.blocks.sessions.root ∨
      root = (Sessions.shutdownUnflushed c.blocks.sessions).2.root) :
    Restarts env retainedDepth c ((genesis :: ids).getLast (List.cons_ne_nil _ _)) root ↔
      ids = [] := by
  obtain ⟨rows, hrows, hok⟩ := hrun.ok hstart
  have hsame : root = c.blocks.sessions.root := by
    rcases hroot with hroot | hroot
    · exact hroot
    · rw [hroot, Sessions.shutdownUnflushed]
      split <;> rfl
  subst hsame
  constructor
  · intro hrestarts
    by_contra hids
    exact hok.not_restarts hrows hids hrestarts
  · intro hids
    obtain rfl := hrun.eq_start hids
    subst hids
    exact hstart.restarts

/-! ## The small network -/

namespace Sample

/-- A replica of the small network on a fresh genesis. -/
def replica (rows : Image) : ChainManager Unit := ⟨blocks rows, none, .default, []⟩

theorem freshReplica {rows : Image} (hr : GenesisRows rows (id 0 0))
    (hf : (checkpoint rows).encode .default = .ok (checkpoint rows))
    (ho : (BlockManager.reopen network (sessions rows) 10).isOk = true) :
    FreshReplica network (id 0 0) 10 (replica rows) :=
  ⟨freshBlocks hr hf ho, rfl, rfl⟩

/-- The replica with nothing but the genesis markers. -/
def small : ChainManager Unit := replica (genesisRows ∅)

theorem small_fresh : FreshReplica network (id 0 0) 10 small := ⟨freshGenesis, rfl, rfl⟩

/-- A key of the account store. -/
def largeKey : RowKey := ⟨.account, [1]⟩

/-- A genesis state with one row of 34 million bytes. -/
def largeRows : Image := genesisRows (Finmap.insert largeKey (List.replicate 34000000 0) ∅)

theorem lookup_largeRows : largeRows.lookup largeKey = some (List.replicate 34000000 0) := by
  rw [largeRows, genesisRows, Finmap.lookup_insert_of_ne _ (by decide),
    Finmap.lookup_insert_of_ne _ (by decide),
    Finmap.lookup_insert_of_ne _ (by decide),
    Finmap.lookup_insert_of_ne _ (by decide), Finmap.lookup_insert]

theorem genesisRows_bytes (others : Image) :
    FMap.total rowBytes (genesisRows others) ≤ 1000 + FMap.total rowBytes others := by
  have h₁ := FMap.total_insert_le rowBytes others Marker.latestSolidifiedBlockNum.key (be64 0)
  have h₂ := FMap.total_insert_le rowBytes _ Marker.latestBlockHeaderHash.key (id 0 0).bytes |>.trans
    (Nat.add_le_add_left h₁ _)
  have h₃ := FMap.total_insert_le rowBytes _ Marker.latestBlockHeaderNumber.key (be64 0) |>.trans
    (Nat.add_le_add_left h₂ _)
  have h₄ := FMap.total_insert_le rowBytes _ ⟨.block, (id 0 0).bytes⟩ [0, 0, 0] |>.trans
    (Nat.add_le_add_left h₃ _)
  refine h₄.trans ?_
  rw [← Nat.add_assoc, ← Nat.add_assoc, ← Nat.add_assoc]
  exact Nat.add_le_add_right (by decide) _

theorem largeRows_bytes : FMap.total rowBytes largeRows ≤ 1000 + 34000009 := by
  have hl : rowBytes largeKey (List.replicate 34000000 0) = 34000009 := by
    rw [rowBytes, sizedBytes, sizedBytes, List.length_replicate]
    rfl
  refine (genesisRows_bytes _).trans (Nat.add_le_add_left ?_ _)
  refine (FMap.total_insert_le _ _ _ _).trans ?_
  rw [hl, FMap.total_empty, Nat.add_zero]

theorem checkpoint_bytes (rows : Image) :
    (checkpoint rows).encodedBytes = 93 + storeTableBytes + FMap.total rowBytes rows := by
  simp only [checkpoint, CheckpointState.encodedBytes, CheckpointHistory.bytes, List.map_nil,
    List.map_cons, List.sum_nil, List.sum_cons, Option.isSome_none, Bool.false_eq_true, if_false]
  omega

theorem large_fresh : FreshReplica network (id 0 0) 10 (replica largeRows) := by
  have hb : (checkpoint largeRows).encodedBytes ≤ CheckpointLimits.default.maxBytes := by
    rw [checkpoint_bytes]
    exact (Nat.add_le_add_left largeRows_bytes _).trans (by decide)
  refine freshReplica (genesisRows_markers ?_)
    ((CheckpointState.encode_eq_ok_iff (by decide)).mpr ⟨by decide, by decide, hb⟩)
    (by decide)
  rw [Finmap.lookup_insert_of_ne _ (by decide)]
  exact Finmap.lookup_empty _

/-- The rows in the top layer. -/
def topRows (s : Sessions) : Overlay := (s.layers.getLast?.map (·.values)).getD ∅

theorem topRows_eq {s : Sessions} (h : s.layers.getLast?.isSome = true) :
    s.layers.getLast?.map (·.values) = some (topRows s) := by
  obtain ⟨layer, hl⟩ := Option.isSome_iff_exists.mp h
  rw [topRows, hl]
  rfl

/-- The first block on the small replica: its id is returned, its rows are in a layer of their own,
and there is room for a second image. -/
theorem small_outcome :
    returned (BlockManager.applyBlock network first 1 small.blocks) = some (id 1 1) ∧
    (BlockManager.applyBlock network first 1
      small.blocks).2.sessions.layers.getLast?.isSome = true ∧
    small.blocks.sessions.checkpoint.encodedBytes + blockBytes small.blocks.sessions
      (topRows (BlockManager.applyBlock network first 1 small.blocks).2.sessions) ≤
        CheckpointLimits.default.maxBytes := by
  decide +kernel

theorem first_accepted : ChainManager.applyReplicaBlock network first 1 small =
    (.ok (id 1 1), (ChainManager.applyReplicaBlock network first 1 small).2) := by
  obtain ⟨rows, -, hok⟩ := ReplicaOk.start small_fresh
  obtain ⟨ha, hl, hr⟩ := small_outcome
  obtain ⟨c', h, -⟩ := (hok.accepts_iff first_decoded nofun (eq_of_returned ha)
    (topRows_eq hl)).mpr ⟨by decide, hr⟩
  rw [h]

/-- The rows that the first block writes over the large genesis state. -/
def written : Overlay :=
  topRows (BlockManager.applyBlock network first 1 (replica largeRows).blocks).2.sessions

/-- The first block on the large genesis state: its id is returned, and its few rows are in a layer
of their own. -/
theorem large_outcome :
    returned (BlockManager.applyBlock network first 1 (replica largeRows).blocks) = some (id 1 1) ∧
    (BlockManager.applyBlock network first 1
      (replica largeRows).blocks).2.sessions.layers.getLast?.isSome = true ∧
    written.lookup largeKey = none ∧
    CheckpointLayer.bytes ⟨1, true, written⟩ ≤ CheckpointLimits.default.maxBytes := by
  decide +kernel

theorem large_applies : BlockManager.applyBlock network first 1 (replica largeRows).blocks =
    (.ok (id 1 1), (BlockManager.applyBlock network first 1 (replica largeRows).blocks).2) :=
  eq_of_returned large_outcome.1

theorem written_eq : (BlockManager.applyBlock network first 1
    (replica largeRows).blocks).2.sessions.layers.getLast?.map (·.values) = some written :=
  topRows_eq large_outcome.2.1

/-- A row over half the byte limit leaves no room for a second image. -/
theorem exceeds_of_large {s : Sessions} {rows : Image} {writes : Overlay} {key : RowKey}
    {value : Bytes} (hc : s.checkpoint = checkpoint rows) (hi : s.image = rows)
    (hr : rows.lookup key = some value) (hk : writes.lookup key = none)
    (hla : CheckpointLimits.default.maxBytes < 2 * value.length) :
    ¬ s.checkpoint.encodedBytes + blockBytes s writes ≤ CheckpointLimits.default.maxBytes := by
  have hl : value.length ≤ rowBytes key value := by
    unfold rowBytes sizedBytes
    omega
  have hb := hl.trans (FMap.le_total_of_lookup rowBytes hr)
  have ha : value.length ≤ FMap.total rowBytes (FMap.overlay s.image writes) := by
    refine hl.trans (FMap.le_total_of_lookup rowBytes ?_)
    rw [FMap.lookup_over, hk, hi]
    exact hr
  rw [hc, checkpoint_bytes]
  unfold blockBytes CheckpointHistory.bytes
  dsimp only
  omega

theorem large_exceeds : ¬ (replica largeRows).blocks.sessions.checkpoint.encodedBytes +
    blockBytes (replica largeRows).blocks.sessions written ≤
      CheckpointLimits.default.maxBytes :=
  exceeds_of_large rfl rfl lookup_largeRows large_outcome.2.2.1
    (by rw [List.length_replicate]; decide)

end Sample

theorem restarts_small : Restarts Sample.network 10 Sample.small (Sample.id 0 0)
    Sample.small.blocks.sessions.root :=
  (restarts_iff Sample.small_fresh .start (.inl rfl)).mpr rfl

/-- One accepted block is enough: the small replica cannot be restarted after it. -/
theorem first_block_prevents_restart : ∃ c : ChainManager Unit,
    FreshReplica Sample.network (Sample.id 0 0) 10 Sample.small ∧
    ReplicaRun Sample.network Sample.small [Sample.id 1 1] c ∧
    ¬ Restarts Sample.network 10 c (Sample.id 1 1) c.blocks.sessions.root := by
  have hrun : ReplicaRun Sample.network Sample.small [Sample.id 1 1] _ :=
    .accept .start Sample.first_decoded Sample.first_accepted
  obtain ⟨rows, hrows, hok⟩ := hrun.ok Sample.small_fresh
  exact ⟨_, Sample.small_fresh, hrun, hok.not_restarts hrows (List.cons_ne_nil _ _)⟩

theorem small_accepts_first : ∃ c', ChainManager.applyReplicaBlock Sample.network Sample.first 1
      Sample.small = (.ok (Sample.id 1 1), c') ∧
    c'.blocks.khaos.getHead.map (·.id) = some (Sample.id 1 1) ∧
    c'.blocks.sessions.checkpointPoints.getLast?.map (·.identity) = some (Sample.id 1 1) :=
  (applyReplicaBlock_ok_iff Sample.small_fresh .start Sample.first_decoded nofun
    (Sample.eq_of_returned Sample.small_outcome.1)
    (Sample.topRows_eq Sample.small_outcome.2.1)).mpr ⟨by decide, Sample.small_outcome.2.2⟩

/-- A replica whose genesis state takes more than half of the byte limit refuses the first block,
though `apply_block` accepts it and its own rows are few. -/
theorem large_genesis_refuses_first :
    FreshReplica Sample.network (Sample.id 0 0) 10 (Sample.replica Sample.largeRows) ∧
    RawBlock.decode Sample.network [1, 1, 0] = .ok Sample.first ∧
    (Sample.replica Sample.largeRows).blocks.sessions.root.Reliable ∧
    (∃ b', BlockManager.applyBlock Sample.network Sample.first 1
        (Sample.replica Sample.largeRows).blocks = (.ok (Sample.id 1 1), b') ∧
      b'.sessions.layers.getLast?.map (·.values) = some Sample.written) ∧
    CheckpointLayer.bytes ⟨1, true, Sample.written⟩ ≤ CheckpointLimits.default.maxBytes ∧
    ¬ ∃ c', ChainManager.applyReplicaBlock Sample.network Sample.first 1
        (Sample.replica Sample.largeRows) = (.ok (Sample.id 1 1), c') ∧
      c'.blocks.khaos.getHead.map (·.id) = some (Sample.id 1 1) ∧
      c'.blocks.sessions.checkpointPoints.getLast?.map (·.identity) = some (Sample.id 1 1) := by
  obtain ⟨rows, -, hok⟩ := ReplicaOk.start Sample.large_fresh
  refine ⟨Sample.large_fresh, Sample.first_decoded, nofun,
    ⟨_, Sample.large_applies, Sample.written_eq⟩, Sample.large_outcome.2.2.2, ?_⟩
  rw [hok.accepts_iff Sample.first_decoded nofun Sample.large_applies Sample.written_eq]
  exact fun h => Sample.large_exceeds h.2

end RustTron.Execution
