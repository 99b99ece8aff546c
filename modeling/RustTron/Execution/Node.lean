import RustTron.Execution.BlockSpec
import RustTron.Execution.Chain
import RustTron.State.Cursor
import RustTron.State.Khaos.Graph

/-!
# Starting a node

The part of `RuntimeFactory::prepare` that makes a chain manager out of the durable root: on a new
root the checkpoint of the genesis block is recorded and published; on every start the published
checkpoint is relinked, the cursors are rebuilt, and Khaos is filled with the last blocks.

## Main definitions

* `GenesisRows`: what `initialize_genesis` leaves in the durable root
* `prepareGenesis`: the first start, up to the published checkpoint
* `FreshBlocks`, `Grown`: a block manager on a fresh genesis, and one that has applied blocks since
* `FreshReplica`, `FullStart`: a replica on a fresh genesis, and a full node

## Main results

* `prepareGenesis_spec`: the checkpoint history of a first start
* `reopen_genesis`: Khaos after a first start
* `Applied.pushed`, `Applied.sessions`: what an applied block adds to Khaos and to the sessions
* `Grown.ok`: the sessions, the cache and Khaos of a block manager that has applied blocks
-/

namespace RustTron.Execution

open State

variable {H : Type} {env : Environment H}

/-- The markers of a fresh genesis, `expected_rows` of `initialize_genesis`. -/
structure GenesisRows (rows : Image) (genesis : BlockId) : Prop where
  number : rows.lookup Marker.latestBlockHeaderNumber.key = some (be64 0)
  hash : rows.lookup Marker.latestBlockHeaderHash.key = some genesis.bytes
  solidified : rows.lookup Marker.latestSolidifiedBlockNum.key = some (be64 0)
  pbft : rows.lookup CursorSet.pbftMarker = none

/-- `RuntimeFactory::prepare` after `initialize_genesis` has created the genesis rows. -/
def prepareGenesis (limits : CheckpointLimits) (genesis : CursorPoint) :
    Prog Sessions CheckpointError Unit := do
  Prog.mapError .cursor (Sessions.recordCheckpoint genesis)
  let _ ← CheckpointStack.persist limits

/-- A block manager on a fresh genesis, as a start makes it. -/
structure FreshBlocks (env : Environment H) (limits : CheckpointLimits) (genesis : BlockId)
    (retainedDepth : Nat) (b : BlockManager H) : Prop where
  sessions : ∃ rows faults, GenesisRows rows genesis ∧
    prepareGenesis limits ⟨0, genesis⟩ (Sessions.new ⟨rows, none, none, faults⟩) =
      (.ok (), b.sessions)
  khaos : BlockManager.reopen env b.sessions retainedDepth = .ok b.khaos
  cache : ∃ config, TransactionCache.new config = .ok b.cache

/-- A replica on a fresh genesis. -/
structure FreshReplica (env : Environment H) (genesis : BlockId) (retainedDepth : Nat)
    (c : ChainManager H) : Prop where
  blocks : FreshBlocks env c.checkpointLimits genesis retainedDepth c.blocks
  replica : c.pending = none
  limits : c.checkpointLimits = .default

/-- A block manager that has applied blocks, one on the other, since a fresh genesis. -/
inductive Grown (env : Environment H) (limits : CheckpointLimits) : BlockManager H → Prop
  | fresh {b : BlockManager H} {genesis : BlockId} {retainedDepth : Nat}
      (h : FreshBlocks env limits genesis retainedDepth b) : Grown env limits b
  | applied {b b' : BlockManager H} {block : RawBlock} {now : Int} {id : BlockId}
      (h : Grown env limits b) (happly : BlockManager.applyBlock env block now b = (.ok id, b')) :
      Grown env limits b'

/-- A full node whose pool has just been opened. -/
structure FullStart (env : Environment H) (c : ChainManager H) : Prop where
  start : ∃ b limits pool s, Grown env c.checkpointLimits b ∧
    PendingPool.new limits b.sessions = (.ok pool, s) ∧
    c.blocks = { b with sessions := s } ∧ c.pending = some pool

/-! ## The first checkpoint -/

/-- The sessions after a first start. -/
structure FirstCheckpoint (rows : Image) (genesis : BlockId) (s : Sessions) : Prop where
  root : ∃ faults, s.root = ⟨rows, none, some s.checkpoint, faults⟩
  layers : s.layers = []
  checkpoints : s.checkpoints = [⟨⟨0, genesis⟩, none, rows⟩]

theorem prepareGenesis_spec {limits : CheckpointLimits} {genesis : BlockId} {rows : Image}
    {faults : List Bool} {s : Sessions}
    (h : prepareGenesis limits ⟨0, genesis⟩ (Sessions.new ⟨rows, none, none, faults⟩) =
      (.ok (), s)) : FirstCheckpoint rows genesis s ∧ s.Quiescent ∧
        s.checkpoint.encode limits = .ok s.checkpoint := by
  have hr : Sessions.recordCheckpoint ⟨0, genesis⟩ (Sessions.new ⟨rows, none, none, faults⟩) =
      (.ok (), { Sessions.new ⟨rows, none, none, faults⟩ with
        checkpoints := [⟨⟨0, genesis⟩, none, rows⟩] }) := rfl
  have hq : ({ Sessions.new ⟨rows, none, none, faults⟩ with
      checkpoints := [⟨⟨0, genesis⟩, none, rows⟩] } : Sessions).Quiescent :=
    ⟨⟨nofun, nofun, rfl⟩, nofun, rfl, rfl⟩
  unfold prepareGenesis at h
  rw [Prog.bind_of_ok (Prog.mapError_of_ok hr), Prog.bind_run] at h
  rcases hp : CheckpointStack.persist limits _ with ⟨e | count, s'⟩ <;> rw [hp] at h
  · cases h
  cases h
  obtain ⟨hf, faults', rfl⟩ := CheckpointStack.persist_eq_ok hq hp
  exact ⟨⟨⟨faults', rfl⟩, rfl, rfl⟩, ⟨⟨nofun, nofun, rfl⟩, nofun, rfl, rfl⟩, hf⟩

/-! ## The first block of Khaos -/

/-- The number of a block in Khaos is that of its header. -/
def Numbered (data : KhaosBlockData ManagedBlock) : Prop :=
  ∀ raw, data.value.raw.rawHeader = some raw → raw.number = data.number

theorem decode_number {bytes : Bytes} {block : RawBlock} {raw : RawHeader}
    (h : RawBlock.decode env bytes = .ok block) (hr : block.rawHeader = some raw) :
    InI64 raw.number := by
  unfold RawBlock.decode at h
  split at h
  · cases h
  · split at h
    · cases h
    · rename_i scanned hs
      cases h
      exact env.scanBlock_number bytes scanned raw hs hr

theorem reopenBlock_eq_ok {view : Image} {point : CursorPoint}
    {data : KhaosBlockData ManagedBlock}
    (h : BlockManager.reopenBlock env view point = .ok data) :
    data.id = point.identity ∧ data.number = point.block ∧
      (∃ raw, data.value.raw.rawHeader = some raw) ∧ Numbered data := by
  simp only [BlockManager.reopenBlock, bind, Except.bind, throw, throwThe, MonadExceptOf.throw,
    pure, Except.pure] at h
  split at h
  · split at h
    · cases h
    · rename_i block hde
      split at h
      · cases h
      · rename_i rawId hri
        split at h
        · cases h
        · rename_i hid
          simp only [Bool.or_eq_true, decide_eq_true_eq, not_or, not_not] at hid
          split at h
          · rename_i header hh
            have hn : BlockId.height point.identity = header.number := by
              rw [RawBlock.blockId, hh] at hri
              rw [← hid.1, ← Except.ok.inj hri]
              exact BlockId.height_new (decode_number hde hh) _
            -- the receipt time does not matter he
            have hd {parent : Hash32} {receivedAt : Int}
                (heq : (.ok ⟨point.identity, parent, BlockId.height point.identity,
                    ⟨block, point.identity, receivedAt⟩⟩ : Except BlockApplyError _) = .ok data) :
                data.id = point.identity ∧ data.number = point.block ∧
                  (∃ raw, data.value.raw.rawHeader = some raw) ∧ Numbered data := by
              cases heq
              refine ⟨rfl, hid.2, ⟨header, hh⟩, fun raw hr => ?_⟩
              obtain rfl : header = raw := Option.some.inj (hh.symm.trans hr)
              exact hn.symm
            split at h
            · split at h
              · split at h
                · exact hd h
                · cases h
              · split at h
                · exact hd h
                · cases h
            · cases h
          · cases h
  · cases h

/-- The loop of `reopen` starts a new database with its first block. -/
theorem reopenBlocks_new {view : Image} {point : CursorPoint} {limits : KhaosLimits}
    {khaos : KhaosDatabase ManagedBlock}
    (h : BlockManager.reopenBlocks env view [point] (KhaosDatabase.new.setLimits limits) =
      (.ok (), khaos)) :
    ∃ data, BlockManager.reopenBlock env view point = .ok data ∧
      KhaosDatabase.start data (KhaosDatabase.new.setLimits limits) = (.ok (), khaos) := by
  have hl : BlockManager.reopenBlocks env view [point] = (do
      let data ← Prog.ofExcept (fun e => e) (BlockManager.reopenBlock env view point)
      let db ← get
      Prog.mapError (fun e => .graph (KhaosError.toText e))
        (if db.hasData then KhaosDatabase.push data else KhaosDatabase.start data)) >>=
      fun _ => pure () := rfl
  have hd : (KhaosDatabase.new.setLimits limits : KhaosDatabase ManagedBlock).hasData = false :=
    rfl
  rw [hl] at h
  rcases hb : BlockManager.reopenBlock env view point with e | data
  · rw [hb] at h
    cases h
  · refine ⟨data, rfl, ?_⟩
    simp only [hb, Prog.bind_run, Prog.ofExcept_ok_run, Prog.get_run, hd, if_false,
      Bool.false_eq_true] at h
    rcases hs : KhaosDatabase.start data (KhaosDatabase.new.setLimits limits) with
      ⟨e | _, khaos'⟩
    · rw [Prog.mapError_of_error hs] at h
      cases h
    · rw [Prog.mapError_of_ok hs] at h
      cases h
      rfl

/-- **Khaos after a first start** holds the genesis block alone. -/
theorem reopen_genesis {s : Sessions} {genesis : BlockId} {retainedDepth : Nat}
    {khaos : KhaosDatabase ManagedBlock} (hs : s.checkpointPoints = [⟨0, genesis⟩])
    (h : BlockManager.reopen env s retainedDepth = .ok khaos) :
    ∃ data, data.id = genesis ∧ data.number = 0 ∧
      (∃ raw, data.value.raw.rawHeader = some raw) ∧ KhaosDatabase.Started data khaos ∧
      khaos.All Numbered := by
  simp only [BlockManager.reopen, hs, bind, Except.bind, throw, throwThe, MonadExceptOf.throw,
    pure, Except.pure] at h
  split at h
  · cases h
  rename_i hd
  have hp : [(⟨0, genesis⟩ : CursorPoint)].drop
      ([(⟨0, genesis⟩ : CursorPoint)].length - retainedDepth) = [⟨0, genesis⟩] := by
    have : 1 - retainedDepth = 0 := by omega
    simp [this]
  rw [hp] at h
  have hb : BlockManager.reopenBlocks env s.readView [⟨0, genesis⟩] (KhaosDatabase.new.setLimits
      (.forBlockPolicy env.limits.maxBlockBytes retainedDepth 2)) = (.ok (), khaos) := by
    split at h
    · cases h
    · rename_i khaos' hr
      rw [hr]
      repeat' split at h
      all_goals cases h
      rfl
  obtain ⟨data, hbl, hst⟩ := reopenBlocks_new hb
  obtain ⟨hid, hn, hh, hnu⟩ := reopenBlock_eq_ok hbl
  have ha := KhaosDatabase.All.start hnu
    (.forBlockPolicy env.limits.maxBlockBytes retainedDepth 2)
  rw [hst] at ha
  exact ⟨data, hid, hn, hh, KhaosDatabase.start_spec _ (by simp [hn]) hst, ha⟩

/-! ## Applied blocks -/

section Applied

variable {block : RawBlock} {now : Int}
variable {b b' : BlockManager H} {retained : Bool} {id : BlockId} {raw : RawHeader}

/-- The id of a checked block is the one that `block_id` computes. -/
theorem Checked.blockId_eq {b : BlockManager H} (h : Checked env b block retained id raw) :
    block.blockId env = .ok id := by
  simp only [RawBlock.blockId, h.header, h.id_eq]

/-- What `apply_block` pushes: a block above the head. -/
structure PushedBy (b b' : BlockManager H) (block : RawBlock) (id : BlockId)
    (data : KhaosBlockData ManagedBlock) : Prop where
  id_eq : data.id = id
  raw : ∃ transactions, data.value.raw = { block with transactions := transactions }
  child : ∃ head, b.khaos.getHead = some head ∧ data.parentId = head.id ∧
    head.number < data.number
  nonneg : 0 ≤ data.number
  pushed : KhaosDatabase.Pushed data (b.khaos.resolvedParent data) b.khaos b'.khaos

theorem Checked.getByHash_eq_none {b : BlockManager H} (h : Checked env b block false id raw) :
    b.khaos.linked.getByHash id = none := by
  have := (h.new rfl).1
  rw [KhaosDatabase.containBlock, Bool.or_eq_false_iff] at this
  exact Option.not_isSome_iff_eq_none.mp (by simp [this.1])

theorem Checked.lt_number {b : BlockManager H} (h : Checked env b block retained id raw)
    {head : KhaosBlockData ManagedBlock} (hh : b.khaos.getHead = some head) :
    raw.parentHash = head.id.bytes ∧ head.number < raw.number := by
  obtain ⟨he', hh', hp, hn, -⟩ := h.head
  obtain rfl : he' = head := Option.some.inj (hh'.symm.trans hh)
  have := (toI64_eq_some_iff.mp hn).2
  exact ⟨hp, by omega⟩

theorem Applied.pushed (h : Applied env b b' block now false id raw) (hl : b.khaos.linked.Coherent) :
    ∃ data, PushedBy b b' block id data := by
  obtain ⟨transactions, hc⟩ := h.committed
  obtain ⟨parent, hp, hpu⟩ := hc.khaos
  obtain ⟨head, hh, -, -, -⟩ := h.checked.head
  obtain ⟨hha, hlt⟩ := h.checked.lt_number hh
  have hs := KhaosDatabase.push_spec hl h.checked.getByHash_eq_none hpu
  rw [hha, Hash32.ofBytes?_bytes] at hp
  exact ⟨_, rfl, ⟨transactions, rfl⟩,
    ⟨head, hh, (Option.some.inj hp).symm, hlt⟩, hc.number, hs⟩

/-- A block that `apply_block` applies directly becomes the head of Khaos. -/
theorem Applied.khaos (h : Applied env b b' block now false id raw) (hl : b.khaos.linked.Coherent)
    (hc : 0 ≤ b.khaos.linked.maxCapacity) :
    b'.khaos.linked.Coherent ∧ 0 ≤ b'.khaos.linked.maxCapacity ∧
      ∃ data, data.id = id ∧ b'.khaos.getHead = some data ∧ b'.khaos.getBlock id = some data ∧
        ∃ transactions, data.value.raw = { block with transactions := transactions } := by
  obtain ⟨data, hd⟩ := h.pushed hl
  obtain ⟨head, hh, -, hlt⟩ := hd.child
  have ha := hd.pushed.above hc hh hlt hd.nonneg
  rw [hd.id_eq] at ha
  exact ⟨hd.pushed.linked, hd.pushed.capacity ▸ hc, data, hd.id_eq, ha.1,
    ha.2, hd.raw⟩

theorem Applied.headOnTop (h : Applied env b b' block now false id raw) (ht : b.khaos.HeadOnTop) :
    b'.khaos.HeadOnTop := by
  obtain ⟨data, hd⟩ := h.pushed ht.linked
  obtain ⟨head, hh, -, hlt⟩ := hd.child
  exact ht.pushed_above hd.pushed hh hlt

theorem numbered_khaosData (id : BlockId) (parent : Hash32) {left : RawBlock}
    (h : left.rawHeader = some raw) (now : Int) : Numbered (khaosData id parent raw left now) :=
  fun _ hr => congrArg RawHeader.number (Option.some.inj (hr.symm.trans h))

theorem Applied.numbered (h : Applied env b b' block now retained id raw)
    (ha : b.khaos.All Numbered) : b'.khaos.All Numbered := by
  obtain ⟨transactions, hc⟩ := h.committed
  have hk := hc.khaos
  cases retained with
  | true =>
    have := ha.setHead id
    rwa [show KhaosDatabase.setHead id b.khaos = _ from hk] at this
  | false =>
    obtain ⟨parent, -, hp⟩ := hk
    have hr : ({ block with transactions := transactions } : RawBlock).rawHeader = some raw :=
      h.checked.header
    have := ha.push (numbered_khaosData id parent hr now)
    rwa [hp] at this

/-- The sessions once a block is applied: one more committed layer, and one more checkpoint. -/
theorem Applied.sessions (h : Applied env b b' block now retained id raw) :
    ∃ values, b'.sessions =
      b.sessions.bump.commitTop b.sessions.nextId values ⟨raw.number.toNat, id⟩ := by
  obtain ⟨transactions, hc⟩ := h.committed
  exact hc.sessions

theorem Applied.cache (h : Applied env b b' block now retained id raw) : b'.cache.Valid := by
  obtain ⟨transactions, hc⟩ := h.committed
  exact hc.cache

theorem Applied.quiescent (h : Applied env b b' block now retained id raw)
    (hq : b.sessions.Quiescent) : b'.sessions.Quiescent := by
  obtain ⟨values, hs⟩ := h.sessions
  rw [hs]
  exact hq.bump.commitTop (Nat.lt_succ_self _) _

/-- The number of an applied block is above that of the last checkpoint. -/
theorem Applied.lt_number (h : Applied env b b' block now retained id raw)
    {last : CommittedCheckpoint} (hl : b.sessions.checkpoints.getLast? = some last) :
    last.point.block < raw.number.toNat := by
  obtain ⟨transactions, hc⟩ := h.committed
  have hf := hc.fits
  rw [Sessions.Clashes, not_or] at hf
  have : b.sessions.bump.checkpoints.getLast? = some last := hl
  simpa [this] using hf.2

end Applied

/-- What holds of a block manager while no block is applied to it. -/
structure BlocksOk (b : BlockManager H) : Prop where
  quiescent : b.sessions.Quiescent
  cache : b.cache.Valid
  khaos : b.khaos.HeadOnTop
  numbered : b.khaos.All Numbered

theorem FreshBlocks.ok {limits : CheckpointLimits} {genesis : BlockId} {retainedDepth : Nat}
    {b : BlockManager H} (h : FreshBlocks env limits genesis retainedDepth b) : BlocksOk b := by
  obtain ⟨rows, faults, -, hp⟩ := h.sessions
  obtain ⟨hf, hq, -⟩ := prepareGenesis_spec hp
  obtain ⟨config, hc⟩ := h.cache
  obtain ⟨data, -, hnu, -, hs, hn⟩ := reopen_genesis
    (by rw [Sessions.checkpointPoints, hf.checkpoints]; rfl) h.khaos
  exact ⟨hq, .new hc, hs.headOnTop hnu.ge, hn⟩

theorem Grown.ok {limits : CheckpointLimits} {b : BlockManager H} (h : Grown env limits b) :
    BlocksOk b := by
  induction h with
  | fresh h => exact h.ok
  | applied _ hap ih =>
    obtain ⟨raw, ha⟩ := applied_of_applyBlock ih.quiescent ih.cache hap
    exact ⟨ha.quiescent ih.quiescent, ha.cache, ha.headOnTop ih.khaos,
      ha.numbered ih.numbered⟩

/-! ## A small network -/

namespace Sample

/-- A digest that depends on all bytes. -/
def digest (bytes : Bytes) : Hash32 where
  bytes := List.replicate 31 1 ++ [bytes.foldl (fun a b => a * 3 + b) 7]
  length_eq := by simp

/-- The id of the block with this number and this time. -/
def id (number timestamp : UInt8) : BlockId := .new number.toNat (digest [number, timestamp])

/-- A block, by its number, its time and that of its parent, and its transactions of one byte
each. -/
def block (number timestamp parentTimestamp : UInt8) (txs : Bytes) : RawBlock where
  blockHeader := some {
    rawData := some {
      timestamp := timestamp.toNat
      txTrieRoot := match txs with
        | [] => List.replicate 32 0
        | tx :: _ => (digest [tx]).bytes
      parentHash := (id (number - 1) parentTimestamp).bytes
      number := number.toNat
      witnessAddress := []
      version := 0
      accountStateRoot := [] }
    witnessSignature := [1] }
  messageTransactions := txs.map fun tx => ⟨[tx], [], []⟩
  fullBytes := []
  rawHeaderBytes := [number, timestamp]
  transactionBytes := txs.map fun tx => [tx]
  transactions := []
  capacity := 0

/-- Every transaction is admitted and does nothing, and so do the hooks. -/
def network : Environment Unit where
  limits := .default
  digest := digest
  scanBlock := fun bytes => match bytes with
    | number :: timestamp :: parent :: txs => .ok (block number timestamp parent txs)
    | _ => .error .malformedWire
  scanBlock_number := by
    rintro bytes scanned raw hscan hraw
    split at hscan
    · cases hscan
      cases hraw
      rename_i number _ _ _
      have := number.toNat_lt
      show InI64 (number.toNat : Int)
      simp only [InI64, i64Min, i64Max]
      omega
    · cases hscan
  decodeTransaction := fun bytes => match bytes with
    | [tx] => .ok ⟨⟨[tx], [], []⟩, [tx], [tx], false⟩
    | _ => .error "malformed transaction"
  encodeRaw := fun raw => [UInt8.ofNat raw.number.toNat, UInt8.ofNat raw.timestamp.toNat]
  encodeTransactionRet := fun _ _ _ => []
  verifyWitnessSignature := fun _ _ _ _ => true
  scheduledWitness := fun _ _ _ _ => .ok []
  admitTransaction := fun tx _ _ => (.ok (), tx)
  execute := fun tx _ _ _ => .ok ([], tx.message, [])
  accountRoot := fun _ => .ok []
  backupMaster := fun _ _ => (.ok [], ())
  payReward := fun _ _ _ _ => (.ok [], ())
  processProposals := fun _ _ _ => (.ok [], ())
  maintenanceAndDpos := fun _ _ _ => (.ok [], ())
  updateForkStats := fun _ _ _ _ => (.ok [], ())
  updateConsensusViews := fun _ _ _ _ _ => (.ok [], ())

/-- The genesis rows over these others. -/
def genesisRows (others : Image) : Image :=
  Finmap.insert (⟨.block, (id 0 0).bytes⟩ : RowKey) ([0, 0, 0] : Bytes) <|
  Finmap.insert Marker.latestBlockHeaderNumber.key (be64 0) <|
  Finmap.insert Marker.latestBlockHeaderHash.key (id 0 0).bytes <|
  Finmap.insert Marker.latestSolidifiedBlockNum.key (be64 0) others

theorem genesisRows_markers {others : Image} (h : others.lookup CursorSet.pbftMarker = none) :
    GenesisRows (genesisRows others) (id 0 0) where
  number := by
    rw [genesisRows, Finmap.lookup_insert_of_ne _ (by decide), Finmap.lookup_insert]
  hash := by
    rw [genesisRows, Finmap.lookup_insert_of_ne _ (by decide),
      Finmap.lookup_insert_of_ne _ (by decide), Finmap.lookup_insert]
  solidified := by
    rw [genesisRows, Finmap.lookup_insert_of_ne _ (by decide),
      Finmap.lookup_insert_of_ne _ (by decide),
      Finmap.lookup_insert_of_ne _ (by decide), Finmap.lookup_insert]
  pbft := by
    rw [genesisRows, Finmap.lookup_insert_of_ne _ (by decide),
      Finmap.lookup_insert_of_ne _ (by decide),
      Finmap.lookup_insert_of_ne _ (by decide),
      Finmap.lookup_insert_of_ne _ (by decide)]
    exact h

/-- The checkpoint of the genesis block. -/
def checkpoint (rows : Image) : CheckpointState := ⟨[], [⟨⟨0, id 0 0⟩, none, rows⟩]⟩

/-- The sessions after the first start. -/
def sessions (rows : Image) : Sessions :=
  { Sessions.new ⟨rows, none, some (checkpoint rows), []⟩ with
    checkpoints := [⟨⟨0, id 0 0⟩, none, rows⟩] }

/-- Khaos after the first start. -/
def khaos (rows : Image) : KhaosDatabase ManagedBlock :=
  match BlockManager.reopen network (sessions rows) 10 with
  | .ok khaos => khaos
  | .error _ => .new

/-- The block manager after the first start. -/
def blocks (rows : Image) : BlockManager Unit :=
  ⟨sessions rows, ⟨.default, ∅, [], none, none⟩, khaos rows, ()⟩

theorem freshBlocks {rows : Image} (hro : GenesisRows rows (id 0 0))
    (hf : (checkpoint rows).encode .default = .ok (checkpoint rows))
    (ho : (BlockManager.reopen network (sessions rows) 10).isOk = true) :
    FreshBlocks network .default (id 0 0) 10 (blocks rows) where
  sessions := by
    refine ⟨rows, [], hro, ?_⟩
    have hp : CheckpointStack.persist .default _ = _ := CheckpointStack.persist_of_fits
      (s := { Sessions.new ⟨rows, none, none, []⟩ with
        checkpoints := [⟨⟨0, id 0 0⟩, none, rows⟩] })
      ⟨⟨nofun, nofun, rfl⟩, nofun, rfl, rfl⟩ nofun hf
    have hr : Sessions.recordCheckpoint ⟨0, id 0 0⟩ (Sessions.new ⟨rows, none, none, []⟩) =
        (.ok (), { Sessions.new ⟨rows, none, none, []⟩ with
          checkpoints := [⟨⟨0, id 0 0⟩, none, rows⟩] }) := rfl
    rw [prepareGenesis, Prog.bind_of_ok (Prog.mapError_of_ok hr), Prog.bind_of_ok hp]
    rfl
  khaos := by
    show _ = Except.ok (khaos rows)
    unfold khaos
    cases hru : BlockManager.reopen network (sessions rows) 10 with
    | ok k => exact hru
    | error e =>
      rw [hru] at ho
      cases ho
  cache := ⟨.default, rfl⟩

theorem freshGenesis : FreshBlocks network .default (id 0 0) 10 (blocks (genesisRows ∅)) :=
  freshBlocks (genesisRows_markers (Finmap.lookup_empty _))
    ((CheckpointState.encode_eq_ok_iff (by decide)).mpr (by decide)) (by decide)

/-- The first block. -/
def first : RawBlock := { Sample.block 1 1 0 [] with fullBytes := [1, 1, 0] }

theorem first_decoded : RawBlock.decode network [1, 1, 0] = .ok first := rfl

/-- The block that an operation returned. -/
def returned {ε σ : Type} (r : Except ε BlockId × σ) : Option BlockId :=
  match r.1 with
  | .ok id => some id
  | .error _ => none

theorem eq_of_returned {ε σ : Type} {r : Except ε BlockId × σ} {bid : BlockId}
    (h : returned r = some bid) : r = (.ok bid, r.2) := by
  obtain ⟨_ | _, _⟩ := r
  · cases h
  · cases h
    rfl

end Sample

end RustTron.Execution
