import RustTron.Consensus.Schedule
import RustTron.Execution.Node

/-!
# The consensus of a full node

`ProductionBlockConsensus` answers which witness a block must come from: it reads the active list
and the maintenance flag from the committed state, and asks the schedule. The block manager checks
the timestamp of a block against that of its parent and its witness against the schedule, each on
its own.

## Main definitions

* `activeWitnesses`, `stateFlag`: what the schedule reads from the committed state
* `ProductionBlockConsensus.scheduledWitness`: the schedule of a full node
* `AppliedChain`: the blocks that a manager has applied one on the other
* `Link.Early`: a block in the slot of its parent, admitted at slot zero

## Main results

* `AppliedChain.links`: what is known of a block and its parent
* `absoluteSlots_increase_iff`: one block in a slot, and the witness of each block
-/

namespace RustTron.Consensus

open State Execution

/-! ## What the schedule reads -/

def activeWitnesses (view : Image) : Except String (List Bytes) :=
  let bytes := (view.lookup ⟨.witnessSchedule, Marker.key.ascii "active_witnesses"⟩).getD []
  if bytes.length % 21 ≠ 0 then
    .error ("consensus state error: InvalidSchedule(InvalidLength \x7b kind: \"witness schedule\", " ++
      s!"expected: \"a multiple of 21 bytes\", actual: {bytes.length} \x7d)")
  else .ok (bytes.toChunks 21)

/-- `StateView::dynamic_int`, of `STATE_FLAG`. -/
def stateFlag (view : Image) : Except String Int :=
  match view.lookup ⟨.dynamicProperties, Marker.key.ascii "state_flag"⟩ with
  | none => .error "consensus state error: MissingDynamic(\"STATE_FLAG\")"
  | some bytes =>
    match fromBe32 bytes with
    | some flag => .ok flag
    | none =>
      .error ("consensus state error: InvalidDynamic \x7b name: \"STATE_FLAG\", " ++
        s!"expected: 4, actual: {bytes.length} \x7d")

/-- `ProductionBlockConsensus`, with the clock of the system. -/
structure ProductionBlockConsensus where
  genesisTime : Int
  clock : Int
  genesisTime_nonneg : 0 ≤ genesisTime

def maintenanceSkipSlots : Int := 2

namespace ProductionBlockConsensus

/-- The context of the schedule after a block. -/
def slotContext (p : ProductionBlockConsensus) (maintenance : Bool)
    (parentNumber parentTimestamp : Int) : SlotContext where
  genesisTime := p.genesisTime
  headNumber := parentNumber
  headTime := parentTimestamp
  headIsMaintenance := maintenance
  maintenanceSkipSlots := maintenanceSkipSlots

def scheduledWitness (p : ProductionBlockConsensus) (view : Image)
    (parentNumber parentTimestamp timestamp : Int) : Except String Bytes := do
  let active ← activeWitnesses view
  let maintenance := (← stateFlag view) = 1
  let slots := p.slotContext maintenance parentNumber parentTimestamp
  let slot ← (slots.slot p.clock timestamp).mapError ScheduleError.toText
  (slots.scheduledWitness slot active).mapError ScheduleError.toText

end ProductionBlockConsensus

variable {H : Type}

/-- The environment of a block manager with the schedule of a full node. -/
def withSchedule (env : Environment H) (p : ProductionBlockConsensus) : Environment H :=
  { env with scheduledWitness := p.scheduledWitness }

/-! ## Chains of applied blocks -/

/-- A block of a chain: its header, and the committed state it was checked against. -/
structure Link where
  view : Image
  raw : RawHeader

/-- The blocks that a manager has applied one on the other, the newest first. A chain starts with
any block at the head of a manager; what else the manager does in between keeps its head. -/
inductive AppliedChain (env : Environment H) (p : ProductionBlockConsensus) :
    List Link → BlockManager H → Prop
  | start {b : BlockManager H} {view : Image} {head : KhaosBlockData ManagedBlock}
      {raw : RawHeader} (hb : BlocksOk b) (hhead : b.khaos.getHead = some head)
      (hraw : head.value.raw.rawHeader = some raw) (hge : p.genesisTime ≤ raw.timestamp)
      (hle : raw.timestamp ≤ i64Max)
      (hgenesis : raw.number = 0 → raw.timestamp = p.genesisTime) :
      AppliedChain env p [⟨view, raw⟩] b
  | other {chain : List Link} {b b' : BlockManager H} (h : AppliedChain env p chain b)
      (hb : BlocksOk b') (hhead : b'.khaos.getHead = b.khaos.getHead) :
      AppliedChain env p chain b'
  | applied {parent : Link} {chain : List Link} {b b' : BlockManager H} {block : RawBlock}
      {raw : RawHeader} {now : Int} {id : BlockId} (h : AppliedChain env p (parent :: chain) b)
      (hraw : block.rawHeader = some raw)
      (happly : BlockManager.applyBlock (withSchedule env p) block now b = (.ok id, b')) :
      AppliedChain env p (⟨b.sessions.readView, raw⟩ :: parent :: chain) b'

namespace Link

variable (p : ProductionBlockConsensus) (child parent : Link)

/-- The parent of a block was a maintenance block. -/
def afterMaintenance : Bool := (stateFlag child.view).toOption = some 1

/-- The schedule that a block was checked with. -/
def slotContext : SlotContext :=
  p.slotContext child.afterMaintenance parent.raw.number parent.raw.timestamp

/-- A block was admitted at slot zero, before the slot of its parent was over. -/
def Early : Prop :=
  (child.slotContext p parent).slot p.clock child.raw.timestamp = .ok 0 ∧
    child.raw.timestamp < (child.slotContext p parent).boundary

/-- The absolute slot of a block. -/
def absoluteSlot : Int := (child.raw.timestamp - p.genesisTime) / blockIntervalMs

/-- The witness of a block is the entry of the active list at its absolute slot. -/
def OfSchedule : Prop :=
  ∃ active, activeWitnesses child.view = .ok active ∧
    active[(child.absoluteSlot p % active.length).toNat]? = some child.raw.witnessAddress

end Link

/-! ## What the checks of a block say -/

section Checks

variable {env : Environment H} {b b' : BlockManager H} {block : RawBlock} {now : Int}

theorem checkHeader_slot {header : BlockHeader} {raw : RawHeader}
    {head : KhaosBlockData ManagedBlock} (h : b.checkHeader env block header raw now = .ok head) :
    ∃ parent, head.value.raw.rawHeader = some parent ∧ parent.timestamp < raw.timestamp ∧
      raw.timestamp ≤ i64Max ∧ env.scheduledWitness b.sessions.readView head.number
        parent.timestamp raw.timestamp = .ok raw.witnessAddress := by
  simp only [BlockManager.checkHeader, bind, Except.bind, throw, throwThe, MonadExceptOf.throw,
    pure, Except.pure] at h
  repeat' split at h
  all_goals cases h
  rename_i parent ht _ latest hl hle _ _ scheduled hs _ _ _ hp hw
  refine ⟨parent, hp, by omega, ?_, ?_⟩
  · have := (toI64_eq_some_iff.mp hl).1.2
    have := (toI64_eq_some_iff.mp hl).2
    omega
  · rw [hw, not_not.mp hs]

theorem checkBlock_checkHeader {id : BlockId} {raw : RawHeader}
    (h : b.checkBlock env block now false = .ok (id, raw)) :
    ∃ header head, block.blockHeader = some header ∧
      b.checkHeader env block header raw now = .ok head := by
  simp only [BlockManager.checkBlock, bind, Except.bind, throw, throwThe, MonadExceptOf.throw,
    pure, Except.pure] at h
  rcases hh : block.blockHeader with _ | header <;> simp only [hh] at h
  · cases h
  rcases hr : header.rawData with _ | raw' <;> simp only [hr] at h
  · cases h
  rcases hk : b.checkHeader env block header raw' now with e | head <;>
    simp only [hk, guard_eq_ok, if_true, Bool.not_false, Bool.false_eq_true, if_false,
      reduceCtorEq, and_false] at h
  obtain ⟨-, -, -, -, -, -, -, heq⟩ := h
  split at heq
  · cases heq
  · cases heq
    exact ⟨header, head, rfl, hk⟩

theorem applyBlock_checkBlock {id : BlockId}
    (h : BlockManager.applyBlock env block now b = (.ok id, b')) :
    ∃ checked, b.checkBlock env block now false = .ok checked := by
  rw [BlockManager.applyBlock, BlockManager.applyBlockMode, Prog.bind_of_ok (Prog.get_run b)] at h
  rcases hc : b.checkBlock env block now false with e | checked
  · rw [hc, Prog.bind_of_error (Prog.ofExcept_error_run _ e b)] at h
    cases h
  · exact ⟨checked, rfl⟩

/-- **An applied block** is later than its parent, and comes from the scheduled witness. -/
theorem applyBlock_slot {id : BlockId} {raw : RawHeader} (hr : block.rawHeader = some raw)
    (h : BlockManager.applyBlock env block now b = (.ok id, b'))
    {head : KhaosBlockData ManagedBlock} (hhe : b.khaos.getHead = some head)
    {parent : RawHeader} (hp : head.value.raw.rawHeader = some parent) :
    parent.timestamp < raw.timestamp ∧ raw.timestamp ≤ i64Max ∧
      checkedAdd head.number 1 = some raw.number ∧
      env.scheduledWitness b.sessions.readView head.number parent.timestamp raw.timestamp =
        .ok raw.witnessAddress := by
  obtain ⟨⟨id', raw'⟩, hc⟩ := applyBlock_checkBlock h
  obtain ⟨header, he', -, hh⟩ := checkBlock_checkHeader hc
  obtain rfl : raw = raw' :=
    Option.some.inj (hr.symm.trans (checkBlock_eq_ok hc).header)
  obtain ⟨hh', -, hn⟩ := checkHeader_eq_ok hh
  obtain rfl : head = he' := Option.some.inj (hhe.symm.trans hh')
  obtain ⟨parent', hp', ht, hm, hw⟩ := checkHeader_slot hh
  obtain rfl : parent = parent' := Option.some.inj (hp.symm.trans hp')
  exact ⟨ht, hm, hn, hw⟩

end Checks

/-! ## One block in a slot -/

section Chain

variable {env : Environment H} {p : ProductionBlockConsensus} {b b' : BlockManager H}
  {chain : List Link}

/-- What is known of the newest block of a chain. -/
structure Newest (p : ProductionBlockConsensus) (b : BlockManager H) (raw : RawHeader) : Prop where
  ok : BlocksOk b
  head : ∃ head, b.khaos.getHead = some head ∧ head.value.raw.rawHeader = some raw
  genesis_le : p.genesisTime ≤ raw.timestamp
  le : raw.timestamp ≤ i64Max
  genesis : raw.number = 0 → raw.timestamp = p.genesisTime

theorem Newest.number {raw : RawHeader} (h : Newest p b raw)
    {head : KhaosBlockData ManagedBlock} (hh : b.khaos.getHead = some head)
    (hr : head.value.raw.rawHeader = some raw) : head.number = raw.number ∧ 0 ≤ head.number := by
  obtain ⟨top, ht, hno, -⟩ := h.ok.khaos.onTop
  have hb : top.block = head := by
    rw [KhaosDatabase.getHead, ht] at hh
    exact Option.some.inj hh
  have hn := h.ok.numbered.head top ht
  rw [hb] at hno hn
  exact ⟨(hn raw hr).symm, hno⟩

theorem AppliedChain.newest (h : AppliedChain env p chain b) :
    ∃ link rest, chain = link :: rest ∧ Newest p b link.raw := by
  induction h with
  | start hb hh hr hge hle hg =>
    exact ⟨_, [], rfl, hb, ⟨_, hh, hr⟩, hge, hle, hg⟩
  | other _ hb hh ih =>
    obtain ⟨link, rest, hc, hn⟩ := ih
    exact ⟨link, rest, hc, hb, hh ▸ hn.head, hn.genesis_le, hn.le,
      hn.genesis⟩
  | applied _ hr hap ih =>
    obtain ⟨link, rest, hc, hn⟩ := ih
    cases hc
    obtain ⟨head, hh, hp⟩ := hn.head
    obtain ⟨hnu, hno⟩ := hn.number hh hp
    obtain ⟨ht, hm, hne, -⟩ := applyBlock_slot hr hap hh hp
    obtain ⟨raw', ha⟩ := applied_of_applyBlock hn.ok.quiescent hn.ok.cache hap
    obtain ⟨-, -, data, -, hd, -, transactions, hbl⟩ :=
      ha.khaos hn.ok.khaos.linked hn.ok.khaos.capacity
    refine ⟨_, _, rfl, ⟨ha.quiescent hn.ok.quiescent, ha.cache,
      ha.headOnTop hn.ok.khaos, ha.numbered hn.ok.numbered⟩,
      ⟨data, hd, ?_⟩, ?_, hm, fun hz => ?_⟩
    · rw [hbl]
      exact hr
    · exact Int.le_trans hn.genesis_le (Int.le_of_lt ht)
    · have := (toI64_eq_some_iff.mp hne).2
      dsimp only at hz
      omega

/-- What is known of a block and its parent. -/
structure Linked (p : ProductionBlockConsensus) (child parent : Link) : Prop where
  slots : parent.absoluteSlot p < child.absoluteSlot p ↔ ¬ child.Early p parent
  witness : child.afterMaintenance = false → child.OfSchedule p

theorem scheduledWitness_eq_ok {view : Image} {number parentTime time : Int} {witness : Bytes}
    (h : p.scheduledWitness view number parentTime time = .ok witness) :
    ∃ active s, activeWitnesses view = .ok active ∧
      (p.slotContext ((stateFlag view).toOption = some 1) number parentTime).slot p.clock time =
        .ok s ∧
      (p.slotContext ((stateFlag view).toOption = some 1) number parentTime).scheduledWitness s
        active = .ok witness := by
  simp only [ProductionBlockConsensus.scheduledWitness, bind_eq_ok_iff, mapError_eq_ok_iff] at h
  obtain ⟨active, ha, flag, hf, s, hs, hw⟩ := h
  refine ⟨active, s, ha, ?_, ?_⟩ <;> rw [hf]
  · simpa [Except.toOption] using hs
  · simpa [Except.toOption] using hw

theorem skip_nonneg : 0 ≤ maintenanceSkipSlots := by decide

/-- **A block and its parent.** The block is in a later slot unless it is early; and where its
parent was no maintenance block, its witness is the entry at its absolute slot. -/
theorem Newest.linked {parent : Link} (h : Newest p b parent.raw) {block : RawBlock} {now : Int}
    {id : BlockId} {raw : RawHeader} (hr : block.rawHeader = some raw)
    (hap : BlockManager.applyBlock (withSchedule env p) block now b = (.ok id, b')) :
    Linked p ⟨b.sessions.readView, raw⟩ parent := by
  obtain ⟨head, hh, hp⟩ := h.head
  obtain ⟨hn, -⟩ := h.number hh hp
  obtain ⟨ht, hma, -, hsc⟩ := applyBlock_slot hr hap hh hp
  obtain ⟨active, s, ha, hs, hw⟩ := scheduledWitness_eq_ok hsc
  rw [hn] at hs hw
  set child : Link := ⟨b.sessions.readView, raw⟩
  have hv : (child.slotContext p parent).Valid :=
    ⟨p.genesisTime_nonneg, h.genesis_le, h.le, h.genesis, skip_nonneg⟩
  have hl : (child.slotContext p parent).absoluteSlot parent.raw.timestamp <
      (child.slotContext p parent).absoluteSlot raw.timestamp ↔
        ¬ (s = 0 ∧ raw.timestamp < (child.slotContext p parent).boundary) :=
    hv.absoluteSlot_lt_iff ht hma hs
  have hps := hv.absoluteSlot_eq h.genesis_le h.le
  have hcs := hv.absoluteSlot_eq (Int.le_trans h.genesis_le (Int.le_of_lt ht)) hma
  refine ⟨?_, fun hm => ⟨active, ha, ?_⟩⟩
  · rw [Link.Early, show (child.slotContext p parent).slot p.clock child.raw.timestamp = .ok s from
      hs, Except.ok.injEq]
    rwa [hps, hcs] at hl
  · have hsk := SlotContext.skipped_of_not_maintenance
      (c := child.slotContext p parent) hm
    have hsu : (child.slotContext p parent).absoluteSlot parent.raw.timestamp + s =
        (child.slotContext p parent).absoluteSlot raw.timestamp :=
      hv.absoluteSlot_add_slot ht hma hs hsk
    have he : active[(((child.slotContext p parent).absoluteSlot parent.raw.timestamp + s) %
        active.length).toNat]? = some raw.witnessAddress :=
      (SlotContext.scheduledWitness_eq_ok hw).2
    rwa [hsu, hcs] at he

theorem AppliedChain.links (h : AppliedChain env p chain b) : chain.IsChain (Linked p) := by
  induction h with
  | start => exact .singleton _
  | other _ _ _ ih => exact ih
  | applied h hr ha ih =>
    obtain ⟨link, rest, hc, hn⟩ := h.newest
    cases hc
    exact .cons_cons (hn.linked hr ha) ih

theorem isChain_congr {α : Type} {R S : α → α → Prop} {l : List α}
    (h : l.IsChain fun a b => R a b ↔ S a b) : l.IsChain R ↔ l.IsChain S := by
  rw [List.isChain_iff_getElem] at h
  rw [List.isChain_iff_getElem, List.isChain_iff_getElem]
  exact forall_congr' fun i => forall_congr' fun hi => h i hi

/-- **One block in a slot.** The absolute slots of the blocks of a chain increase exactly where no
block was admitted at slot zero before the slot of its parent was over; and the witness of a block
after no maintenance block is the entry of the active list at its absolute slot. -/
theorem absoluteSlots_increase_iff (h : AppliedChain env p chain b) :
    (chain.IsChain (fun child parent => parent.absoluteSlot p < child.absoluteSlot p) ↔
      chain.IsChain fun child parent => ¬ child.Early p parent) ∧
    chain.IsChain fun child _ => child.afterMaintenance = false → child.OfSchedule p :=
  ⟨isChain_congr (h.links.imp fun _ _ hlinked => hlinked.slots),
    h.links.imp fun _ _ hlinked => hlinked.witness⟩

end Chain

/-! ## Two blocks in a slot -/

namespace SlotSample

/-- The one active witness. -/
def witness : Bytes := List.replicate 21 65

/-- The schedule of a network that started at time zero. -/
def schedule : ProductionBlockConsensus := ⟨0, 0, by decide⟩

/-- Genesis rows with one active witness and no maintenance. -/
def rows : Image :=
  Execution.Sample.genesisRows <|
    Finmap.insert (⟨.witnessSchedule, Marker.key.ascii "active_witnesses"⟩ : RowKey) witness <|
    Finmap.insert (⟨.dynamicProperties, Marker.key.ascii "state_flag"⟩ : RowKey) [0, 0, 0, 0] ∅

/-- A block of the witness, by its number and the milliseconds since genesis. -/
def block (number timestamp parentTimestamp : UInt8) : RawBlock :=
  let block := Execution.Sample.block number timestamp parentTimestamp []
  { block with blockHeader := block.blockHeader.map fun header =>
      { header with rawData := header.rawData.map fun raw =>
          { raw with witnessAddress := witness } } }

/-- The manager after the first start. -/
def started : BlockManager Unit := Execution.Sample.blocks rows

theorem started_ok : BlocksOk started :=
  (Execution.Sample.freshBlocks (Execution.Sample.genesisRows_markers (by decide))
    ((CheckpointState.encode_eq_ok_iff (by decide)).mpr (by decide))
    (by decide)).ok

/-- The environment of the network with the schedule. -/
def network : Environment Unit := withSchedule Execution.Sample.network schedule

/-- The manager after the first block. -/
def once : BlockManager Unit := (BlockManager.applyBlock network (block 1 1 0) 1 started).2

/-- The manager after the second block. -/
def twice : BlockManager Unit := (BlockManager.applyBlock network (block 2 2 1) 2 once).2

theorem once_eq : BlockManager.applyBlock network (block 1 1 0) 1 started =
    (.ok (Execution.Sample.id 1 1), once) :=
  Execution.Sample.eq_of_returned (by decide +kernel)

theorem twice_eq : BlockManager.applyBlock network (block 2 2 1) 2 once =
    (.ok (Execution.Sample.id 2 2), twice) :=
  Execution.Sample.eq_of_returned (by decide +kernel)

/-- The header of a block of the witness. -/
def header (number timestamp parentTimestamp : UInt8) : RawHeader where
  timestamp := timestamp.toNat
  txTrieRoot := List.replicate 32 0
  parentHash := (Execution.Sample.id (number - 1) parentTimestamp).bytes
  number := number.toNat
  witnessAddress := witness
  version := 0
  accountStateRoot := []

/-- The header of the genesis block. -/
def genesis : RawHeader := { header 0 0 0 with witnessAddress := [] }

theorem started_head : ∃ head, started.khaos.getHead = some head ∧
    head.value.raw.rawHeader = some genesis := by
  have hh : (started.khaos.getHead.bind fun head => head.value.raw.rawHeader) = some genesis := by
    decide
  exact Option.bind_eq_some_iff.mp hh

/-- The genesis block, and two blocks in the first three seconds. -/
def chain : List Link :=
  [⟨once.sessions.readView, header 2 2 1⟩, ⟨started.sessions.readView, header 1 1 0⟩,
    ⟨started.sessions.readView, genesis⟩]

theorem chain_applied : AppliedChain Execution.Sample.network schedule chain twice := by
  obtain ⟨head, hh, hr⟩ := started_head
  have hst : AppliedChain Execution.Sample.network schedule
      [⟨started.sessions.readView, genesis⟩] started :=
    .start started_ok hh hr (by decide) (by decide) fun _ => rfl
  have hf : (block 1 1 0).rawHeader = some (header 1 1 0) := rfl
  have hs : (block 2 2 1).rawHeader = some (header 2 2 1) := rfl
  exact (hst.applied hf once_eq).applied hs twice_eq

end SlotSample

/-- The blocks of the chain are all in the slot of the genesis block. -/
theorem chain_in_one_slot :
    AppliedChain Execution.Sample.network SlotSample.schedule SlotSample.chain SlotSample.twice ∧
      ¬ SlotSample.chain.IsChain fun child parent =>
        parent.absoluteSlot SlotSample.schedule < child.absoluteSlot SlotSample.schedule :=
  ⟨SlotSample.chain_applied, by decide⟩

theorem absoluteSlots_increase_iff_sample :
    (SlotSample.chain.IsChain (fun child parent =>
        parent.absoluteSlot SlotSample.schedule < child.absoluteSlot SlotSample.schedule) ↔
      SlotSample.chain.IsChain fun child parent => ¬ child.Early SlotSample.schedule parent) ∧
    SlotSample.chain.IsChain fun child _ =>
      child.afterMaintenance = false → child.OfSchedule SlotSample.schedule :=
  absoluteSlots_increase_iff SlotSample.chain_applied

end RustTron.Consensus
