import RustTron.Consensus.Production
import RustTron.Consensus.Solidified

/-!
# The statistics of production

A block is validated by its relative slot: the slots since its parent, without those that are
skipped after a maintenance block. Its statistics are taken from absolute slots: every slot between
those of the two blocks counts as missed, and a gap of 128 slots or more takes a path of its own
through the ring of filled slots. The two agree just in case no slot was skipped and the gap is
shorter.

## Main definitions

* `Chain.Accepted`: the chains of blocks that the schedule admits
* `Chain.FollowsSchedule`: the statistics of a block as its relative slot gives them
* `Chain.Counted`: a block whose absolute slots are its relative ones

## Main results

* `countsOf_maintenanceAndDpos`: what the hook of a block counts
* `Chain.Accepted.followsSchedule_iff`: the statistics follow the schedule just in case the block
  is counted so
-/

namespace RustTron.Consensus

open Execution (BlockApplyError)
open Governance (dynamicRaw_putDynamic_self dynamicRaw_putDynamic_of_ne)

/-! ## What is counted -/

/-- The blocks produced and the slots missed by a witness; none by one without a row. -/
def countsOf (witnesses : FMap Bytes Witness) (address : Bytes) : Int × Int :=
  ((witnesses.lookup address).map fun w => (w.totalProduced, w.totalMissed)).getD (0, 0)

/-- The ring of filled slots, and the place of the next one. -/
def filledSlots (g : Governance) : List UInt8 × Nat :=
  ((g.dynamicRaw "BLOCK_FILLED_SLOTS").getD (List.replicate 128 49),
    (((g.dynamicRaw "BLOCK_FILLED_SLOTS_INDEX").bind fromBe32).getD 0).toNat % 128)

/-- `apply_filled_slot` with `false`, once for each missed slot. -/
def fillMissed (count : Nat) (ring : List UInt8 × Nat) : List UInt8 × Nat :=
  (List.range count).foldl (fun (slots, index) _ => applyFilledSlot slots index false) ring

/-- The properties that the statistics are taken from and written to. -/
def statisticsNames : List String :=
  ["LATEST_BLOCK_HEADER_TIMESTAMP", "BLOCK_FILLED_SLOTS", "BLOCK_FILLED_SLOTS_INDEX"]

/-- The work leaves the properties of the statistics as they are. -/
def SideWork.KeepsStatistics (work : SideWork) : Prop :=
  ∀ {g g'}, work.run g = .ok g' → ∀ name ∈ statisticsNames, g'.dynamicRaw name = g.dynamicRaw name

/-- The work of a transaction beside the witness it creates. -/
def BlockTransaction.work : BlockTransaction → SideWork
  | createWitness _ accounts => accounts
  | other work => work

/-- A block whose time is an `i64`, and whose other work has nothing to do with the statistics. -/
structure ScheduledBlock extends ProducedBlock where
  inI64 : InI64 timestamp
  transactions_keep : ∀ tx ∈ transactions, tx.work.KeepsStatistics
  payReward_keeps : payReward.KeepsStatistics
  forkStats_keeps : forkStats.KeepsStatistics

/-! ## The schedule of a chain -/

namespace Chain

/-- `StateView::dynamic_int`, of `STATE_FLAG`. -/
def stateFlag (c : Chain) : Except String Int :=
  match c.state.dynamicRaw "STATE_FLAG" with
  | none => .error "consensus state error: MissingDynamic(\"STATE_FLAG\")"
  | some bytes =>
    match fromBe32 bytes with
    | some flag => .ok flag
    | none =>
      .error ("consensus state error: InvalidDynamic \x7b name: \"STATE_FLAG\", " ++
        s!"expected: 4, actual: {bytes.length} \x7d")

/-- The time of the head. -/
def headTime (c : Chain) (genesisTime : Int) : Int :=
  (c.blocks.head?.map fun a => a.block.timestamp).getD genesisTime

/-- The head is a maintenance block. -/
def afterMaintenance (c : Chain) : Bool := c.stateFlag.toOption = some 1

/-- The schedule after the head. -/
def slotContext (p : ProductionBlockConsensus) (c : Chain) : SlotContext :=
  p.slotContext c.afterMaintenance c.height (c.headTime p.genesisTime)

/-- `ProductionBlockConsensus::scheduled_witness`, at the head. -/
def scheduledWitness (p : ProductionBlockConsensus) (c : Chain) (timestamp : Int) :
    Except String Bytes := do
  let maintenance := (← c.stateFlag) = 1
  let slots := p.slotContext maintenance c.height (c.headTime p.genesisTime)
  let slot ← (slots.slot p.clock timestamp).mapError ScheduleError.toText
  (slots.scheduledWitness slot c.state.world.activeWitnesses).mapError ScheduleError.toText

/-- The checks of a header on the time and the witness of a block. -/
def checkSchedule (p : ProductionBlockConsensus) (b : ProducedBlock) (c : Chain) :
    Except BlockApplyError Unit :=
  if b.timestamp ≤ c.headTime p.genesisTime then .error .timestamp
  else
    match c.scheduledWitness p b.timestamp with
    | .error message => .error (.hook message)
    | .ok scheduled => if scheduled ≠ b.witnessAddress then .error .wrongWitness else .ok ()

/-- The chains of blocks that are accepted with `ProductionBlockConsensus` and
`ProductionBlockHooks`, and what a fork switch leaves of them. -/
inductive Accepted (hooks : ProductionBlockHooks) (genesis : Governance) : Chain → Prop
  | start (hgenesis : InI64 hooks.genesisTime) : Accepted hooks genesis ⟨genesis, []⟩
  | apply {c c' : Chain} {p : ProductionBlockConsensus} {b : ScheduledBlock} :
    Accepted hooks genesis c → p.genesisTime = hooks.genesisTime →
      c.applyBlock hooks (checkSchedule p b.toProducedBlock) b.toProducedBlock = .ok c' →
        Accepted hooks genesis c'
  | rewind {c : Chain} : Accepted hooks genesis c → Accepted hooks genesis c.parent

/-- **The statistics follow the schedule** of a block at relative slot `n`: its witness has produced
one block more, the witness of every slot from one to `n` has missed one slot more, and the ring of
filled slots has moved over these slots and that of the block. -/
structure FollowsSchedule (p : ProductionBlockConsensus) (c : Chain) (b : ProducedBlock) (n : Int)
    (c' : Chain) : Prop where
  produced : ∀ address, (countsOf c'.state.world.witnesses address).1 =
    (countsOf c.state.world.witnesses address).1 + if address = b.witnessAddress then 1 else 0
  missed : ∀ address, (countsOf c'.state.world.witnesses address).2 =
    (countsOf c.state.world.witnesses address).2 + (missedSlots 0 n).countP fun s =>
      (c.slotContext p).scheduledWitness s c.state.world.activeWitnesses = .ok address
  filled : filledSlots c'.state =
    let (slots, index) := fillMissed (n - 1).toNat (filledSlots c.state)
    applyFilledSlot slots index true

/-- The absolute slots from the head to a time. -/
def gap (p : ProductionBlockConsensus) (c : Chain) (timestamp : Int) : Int :=
  productionSlot p.genesisTime timestamp - productionSlot p.genesisTime (c.headTime p.genesisTime)

/-- **A block is counted as it was scheduled**: the ring does not run over, and no slot is skipped,
or none of the skipped ones is passed. -/
def Counted (p : ProductionBlockConsensus) (c : Chain) (timestamp : Int) : Prop :=
  c.gap p timestamp < 128 ∧ (c.afterMaintenance = false ∨ c.gap p timestamp ≤ 1)

end Chain

/-! ## Rows -/

section Rows

variable {witnesses witnesses' witnesses'' : FMap Bytes Witness}

theorem countsOf_of_lookup {address : Bytes} {witness : Witness}
    (h : witnesses.lookup address = some witness) :
    countsOf witnesses address = (witness.totalProduced, witness.totalMissed) := by
  rw [countsOf, h]
  rfl

theorem countsOf_insert (address other : Bytes) (witness : Witness) :
    countsOf (witnesses.insert address witness) other =
      if other = address then (witness.totalProduced, witness.totalMissed)
      else countsOf witnesses other := by
  unfold countsOf
  split
  · next h =>
    rw [h, Finmap.lookup_insert]
    rfl
  · next h => rw [Finmap.lookup_insert_of_ne _ h]

/-- No count has changed, and no row has gone. -/
structure SameCounts (witnesses witnesses' : FMap Bytes Witness) : Prop where
  counts : ∀ address, countsOf witnesses' address = countsOf witnesses address
  rows : ∀ address ∈ witnesses, address ∈ witnesses'

theorem SameCounts.refl (witnesses : FMap Bytes Witness) : SameCounts witnesses witnesses :=
  ⟨fun _ => rfl, fun _ h => h⟩

theorem SameCounts.trans (h : SameCounts witnesses witnesses')
    (h' : SameCounts witnesses' witnesses'') : SameCounts witnesses witnesses'' where
  counts address := (h'.counts address).trans (h.counts address)
  rows address hr := h'.rows address (h.rows address hr)

theorem SameCounts.saveWitness {witness : Witness}
    (h : countsOf witnesses witness.address = (witness.totalProduced, witness.totalMissed)) :
    SameCounts witnesses (saveWitness witnesses witness) where
  counts address := by
    rw [Consensus.saveWitness, countsOf_insert]
    split
    · next heq => rw [heq, h]
    · rfl
  rows address hr := Finmap.mem_insert.mpr (.inr hr)

theorem SameCounts.changeCounts {change : Int → Int → Except StateError Int}
    {amounts : List (Bytes × Int)} (hk : Keyed witnesses)
    (hr : changeCounts change witnesses amounts = .ok witnesses') :
    SameCounts witnesses witnesses' := by
  induction amounts generalizing witnesses with
  | nil =>
    cases hr
    exact .refl _
  | cons e amounts ih =>
    rw [Consensus.changeCounts] at hr
    split at hr
    · exact ih hk hr
    · next witness hro =>
      rw [bind_eq_ok_iff] at hr
      obtain ⟨voteCount, -, hr⟩ := hr
      refine SameCounts.trans (.saveWitness ?_) (ih (hk.saveWitness _) hr)
      dsimp only
      rw [hk _ _ hro]
      exact countsOf_of_lookup hro

theorem SameCounts.saveJobs {active : List Bytes} {rows : List Witness}
    (hr : ∀ witness ∈ rows, countsOf witnesses witness.address =
      (witness.totalProduced, witness.totalMissed)) :
    SameCounts witnesses (saveJobs active witnesses rows) := by
  induction rows generalizing witnesses with
  | nil => exact .refl _
  | cons witness rows ih =>
    have hs : SameCounts witnesses (Consensus.saveWitness witnesses
        { witness with isJobs := active.contains witness.address }) :=
      .saveWitness (hr witness List.mem_cons_self)
    refine hs.trans (ih fun other ho => ?_)
    rw [hs.counts]
    exact hr other (List.mem_cons_of_mem _ ho)

theorem lookup_saveWitnesses (hke : Keyed witnesses') (address : Bytes) :
    (saveWitnesses witnesses (witnesses'.sortedRows keyLe)).lookup address =
      (witnesses'.lookup address).or (witnesses.lookup address) := by
  have ho : ∀ (m : FMap Bytes Witness) (row : Bytes × Witness) k, k ≠ row.2.address →
      (saveWitness m row.2).lookup k = m.lookup k := fun m row k hk =>
    Finmap.lookup_insert_of_ne m hk
  have hs : ∀ (m : FMap Bytes Witness) (row : Bytes × Witness),
      (saveWitness m row.2).lookup row.2.address = some row.2 := fun m row =>
    Finmap.lookup_insert m
  have hkey : (witnesses'.sortedRows keyLe).map (fun row => row.2.address) =
      (witnesses'.sortedRows keyLe).map Prod.fst := by
    refine List.map_congr_left fun row hr => ?_
    exact hke row.1 row.2 ((FMap.mem_sortedRows keyLe).mp hr)
  have hn : ((witnesses'.sortedRows keyLe).map fun row => row.2.address).Nodup := by
    rw [hkey, FMap.map_fst_sortedRows]
    exact FMap.nodup_sortedKeys keyLe witnesses'
  unfold saveWitnesses
  cases hr : witnesses'.lookup address with
  | none =>
    rw [FMap.lookup_foldl_of_notMem (fun row : Bytes × Witness => row.2.address) ?_ ho,
      Option.none_or]
    rw [hkey, FMap.map_fst_sortedRows, FMap.mem_sortedKeys, Finmap.mem_keys]
    exact Finmap.lookup_eq_none.mp hr
  | some witness =>
    have hm : (address, witness) ∈ witnesses'.sortedRows keyLe :=
      (FMap.mem_sortedRows keyLe).mpr hr
    have hf := FMap.lookup_foldl_of_mem (fun row : Bytes × Witness => row.2.address)
      (f := fun row _ => some row.2) hn hs ho hm witnesses
    dsimp only at hf
    rw [hke address witness hr] at hf
    rw [hf, Option.some_or]

end Rows

/-! ## Maintenance -/

section Maintenance

variable {cfg : MaintenanceConfig} {w w' : World}

theorem Keyed.changeCounts {change : Int → Int → Except StateError Int}
    {witnesses witnesses' : FMap Bytes Witness} {amounts : List (Bytes × Int)}
    (hk : Keyed witnesses) (hru : changeCounts change witnesses amounts = .ok witnesses') :
    Keyed witnesses' :=
  (Stands.changeCounts (P := fun _ _ => True) (fun address witness hr =>
    ⟨hk address witness hr, trivial⟩) hru).keyed

/-- The witnesses of a store, and those after a part of maintenance. -/
structure Maintained (w w' : World) : Prop where
  keyed : Keyed w'.witnesses
  same : SameCounts w.witnesses w'.witnesses

theorem Maintained.trans {w'' : World} (h : Maintained w w') (h' : Maintained w' w'') :
    Maintained w w'' :=
  ⟨h'.keyed, h.same.trans h'.same⟩

theorem maintained_removeThePower (hk : Keyed w.witnesses)
    (hr : removeThePower cfg w = .ok w') : Maintained w w' := by
  unfold removeThePower at hr
  split at hr
  · simp only [bind_eq_ok_iff, pure_eq_ok_iff] at hr
    obtain ⟨witnesses, hc, rfl⟩ := hr
    exact ⟨hk.changeCounts hc, .changeCounts hk hc⟩
  · cases hr
    exact ⟨hk, .refl _⟩

theorem maintained_countVotes (hk : Keyed w.witnesses) (hr : countVotes w = .ok w') :
    Maintained w w' := by
  simp only [countVotes, bind_eq_ok_iff, pure_eq_ok_iff] at hr
  obtain ⟨deltas, -, witnesses, hc, rfl⟩ := hr
  exact ⟨hk.changeCounts hc, .changeCounts hk hc⟩

theorem maintained_elect (hk : Keyed w.witnesses) {changed : Bool} {active : List Bytes}
    (hr : elect cfg w changed = .ok (w', active)) : Maintained w w' := by
  unfold elect at hr
  split at hr
  · simp only [bind_eq_ok_iff, pure_eq_ok_iff, Prod.mk.injEq] at hr
    obtain ⟨w₁, hs, w₂, hp, rfl, -⟩ := hr
    have hw : w₂.witnesses = w.witnesses := by
      unfold saveActiveWitnesses at hs
      split at hs
      · cases hs
      · cases hs
        split at hp
        · exact (payLegacyStandby_frame hp).1
        · cases hp
          rfl
    refine ⟨?_, ?_⟩
    · dsimp only
      rw [hw]
      exact (saveJobs_sorted _ _ hk).1
    · dsimp only
      rw [hw]
      refine .saveJobs fun witness hm => ?_
      rw [sortWitnesses, List.mem_insertionSort, List.mem_map] at hm
      obtain ⟨row, hro, rfl⟩ := hm
      have hl := (FMap.mem_sortedRows keyLe).mp hro
      rw [hk row.1 row.2 hl]
      exact countsOf_of_lookup hl
  · cases hr
    exact ⟨hk, .refl _⟩

/-- **Maintenance** recounts votes and elects; what the witnesses have produced and missed stays. -/
theorem maintained_doMaintenance (hk : Keyed w.witnesses) {active : List Bytes}
    {consumed : Nat} {cycle : Int}
    (hru : doMaintenance cfg w = .ok (w', active, consumed, cycle)) : Maintained w w' := by
  simp only [doMaintenance, bind_eq_ok_iff, pure_eq_ok_iff, Prod.mk.injEq] at hru
  obtain ⟨w₁, hr, w₂, hco, ⟨w₃, active'⟩, he, ⟨w₄, cycle'⟩, hc, rfl, -⟩ := hru
  have h₁ := maintained_removeThePower hk hr
  have h₂ := h₁.trans (maintained_countVotes h₁.keyed hco)
  have h₃ := h₂.trans (maintained_elect h₂.keyed he)
  unfold nextCycle at hc
  dsimp only at hc
  split at hc
  · simp only [bind_eq_ok_iff, pure_eq_ok_iff, Prod.mk.injEq] at hc
    obtain ⟨next, -, rfl, -⟩ := hc
    exact ⟨h₃.keyed, h₃.same⟩
  · cases hc
    exact h₃

theorem plain_statisticsNames : ∀ name ∈ ["BLOCK_FILLED_SLOTS", "BLOCK_FILLED_SLOTS_INDEX"],
    propertyOf name = none := by
  decide

theorem filledSlots_congr {g g' : Governance}
    (h : ∀ name ∈ ["BLOCK_FILLED_SLOTS", "BLOCK_FILLED_SLOTS_INDEX"],
      g'.dynamicRaw name = g.dynamicRaw name) : filledSlots g' = filledSlots g := by
  rw [filledSlots, filledSlots, h _ (by decide), h _ (by decide)]

theorem maintained_applyMaintenanceBlock {g g' : Governance} (hk : Keyed g.world.witnesses)
    {number time : Int} {outcome : MaintenanceOutcome}
    (hr : applyMaintenanceBlock cfg number time g = .ok (g', outcome)) :
    Maintained g.world g'.world ∧ filledSlots g' = filledSlots g := by
  simp only [applyMaintenanceBlock, bind_eq_ok_iff] at hr
  obtain ⟨previousNext, -, ⟨world, current, consumed, cycle⟩, hwo, next, -, g₁, hne, g₂, hf,
    hr⟩ := hr
  cases hr
  have hm : Maintained g.world world := by
    split at hwo
    · exact maintained_doMaintenance hk hwo
    · cases hwo
      exact ⟨hk, .refl _⟩
  obtain ⟨hw₁, hr₁⟩ : g₁.world.witnesses = world.witnesses ∧
      ∀ name ∈ ["BLOCK_FILLED_SLOTS", "BLOCK_FILLED_SLOTS_INDEX"],
        g₁.dynamicRaw name = ({ g with world } : Governance).dynamicRaw name := by
    split at hne
    · obtain ⟨-, rfl⟩ := saveDynamicLong_eq_ok hne
      refine ⟨(world_putDynamic _ _ _).1, fun name hn => dynamicRaw_putDynamic_of_ne ?_⟩
      rintro rfl
      revert hn
      decide
    · cases hne
      exact ⟨rfl, fun _ _ => rfl⟩
  obtain rfl := saveDynamicInt_eq_ok hf
  refine ⟨?_, filledSlots_congr fun name hn => ?_⟩
  · have hw := (world_putDynamic g₁ "STATE_FLAG"
      (be32 (if previousNext ≤ time then 1 else 0))).1.trans hw₁
    refine ⟨?_, ?_⟩
    · simp only [decide_eq_true_eq] at hw ⊢
      rw [hw]
      exact hm.keyed
    · simp only [decide_eq_true_eq] at hw ⊢
      rw [hw]
      exact hm.same
  · rw [dynamicRaw_putDynamic_of_ne, hr₁ name hn]
    · exact dynamicRaw_of_properties (plain_statisticsNames name hn) rfl
    · rintro rfl
      revert hn
      decide

end Maintenance

/-! ## The hook of a block -/

section Hook

variable {witnesses : FMap Bytes Witness} {active : List Bytes}

/-- The witness of an absolute slot. -/
def slotWitness (active : List Bytes) (slot : Int) : Bytes :=
  active.getD (slot % active.length).toNat []

theorem slotWitness_mem (ha : active ≠ []) (slot : Int) : slotWitness active slot ∈ active := by
  have hp : 0 < (active.length : Int) := by
    exact_mod_cast List.length_pos_of_ne_nil ha
  have hn := Int.emod_nonneg slot hp.ne'
  have hlt := Int.emod_lt_of_pos slot hp
  rw [slotWitness, List.getD_eq_getElem?_getD, List.getElem?_eq_getElem (by omega),
    Option.getD_some]
  exact List.getElem_mem _

theorem countsOf_adjustWitness {address : Bytes} (hr : address ∈ witnesses)
    (change : Witness → Witness) (other : Bytes) :
    ∃ witness, witnesses.lookup address = some witness ∧
      countsOf (adjustWitness address change witnesses) other =
        if other = address then ((change witness).totalProduced, (change witness).totalMissed)
        else countsOf witnesses other := by
  obtain ⟨witness, hl⟩ := Finmap.mem_iff.mp hr
  refine ⟨witness, hl, ?_⟩
  rw [adjustWitness, hl]
  exact countsOf_insert address other _

theorem mem_adjustWitness {address other : Bytes} {change : Witness → Witness} :
    other ∈ adjustWitness address change witnesses ↔ other ∈ witnesses := by
  unfold adjustWitness
  split
  · rfl
  · next witness hl =>
    rw [Finmap.mem_insert, or_iff_right_of_imp]
    rintro rfl
    exact Finmap.mem_iff.mpr ⟨witness, hl⟩

/-- **The missed slots**: each counts for its witness. -/
theorem countsOf_foldl_accountMissed (ha : ∀ slot, slotWitness active slot ∈ witnesses)
    (slots : List Int) (hn : ∀ address, 0 ≤ (countsOf witnesses address).2)
    (hf : ∀ address, (countsOf witnesses address).2 + slots.length ≤ i64Max)
    (address : Bytes) :
    countsOf (slots.foldl (accountMissed active) witnesses) address =
      ((countsOf witnesses address).1, (countsOf witnesses address).2 +
        slots.countP fun slot => slotWitness active slot = address) := by
  induction slots generalizing witnesses with
  | nil => simp
  | cons slot slots ih =>
    have hs : ∀ other, countsOf (accountMissed active witnesses slot) other =
        ((countsOf witnesses other).1, (countsOf witnesses other).2 +
          if slotWitness active slot = other then 1 else 0) := by
      intro other
      obtain ⟨witness, hl, hc⟩ := countsOf_adjustWitness (ha slot)
        (fun witness => { witness with
          totalMissed := saturateI64 (witness.totalMissed + 1)
          latestSlotNum := slot }) other
      rw [accountMissed, ← slotWitness, hc]
      split
      · next heq =>
        have hr := countsOf_of_lookup hl
        have hlo := hn (slotWitness active slot)
        have hh := hf (slotWitness active slot)
        rw [hr, List.length_cons] at hh
        rw [hr] at hlo
        rw [heq, hr, if_pos rfl, saturateI64_of_inI64]
        unfold InI64 i64Min
        omega
      · next hne => rw [if_neg fun h => hne h.symm, Int.add_zero]
    rw [List.foldl_cons, ih]
    · rw [hs, List.countP_cons]
      simp only [decide_eq_true_eq, Prod.mk.injEq, true_and]
      split <;> omega
    · intro slot'
      exact mem_adjustWitness.mpr (ha slot')
    · intro other
      rw [hs]
      have hlo := hn other
      dsimp only
      split <;> omega
    · intro other
      rw [hs]
      have hh := hf other
      rw [List.length_cons] at hh
      dsimp only
      split <;> omega

theorem length_missedSlots (previous current : Int) :
    (missedSlots previous current).length = (current - (previous + 1)).toNat := by
  rw [missedSlots, List.length_map, List.length_range]

/-- **The statistics of a block.** -/
theorem countsOf_accountBlockProduction {previous current number : Int} {producer : Bytes}
    (ha : ∀ address ∈ active, address ∈ witnesses) (hpr : producer ∈ active)
    (hn : ∀ address, 0 ≤ (countsOf witnesses address).2)
    (hf : ∀ address, (countsOf witnesses address).2 +
      (missedSlots previous current).length ≤ i64Max)
    (hp : InI64 ((countsOf witnesses producer).1 + 1)) (address : Bytes) :
    countsOf (accountBlockProduction active previous current number producer witnesses) address =
      ((countsOf witnesses address).1 + (if address = producer then 1 else 0),
        (countsOf witnesses address).2 +
          (missedSlots previous current).countP fun slot => slotWitness active slot = address) := by
  have hne : active ≠ [] := List.ne_nil_of_mem hpr
  -- the missed slots are counted first
  have hm : ∀ address, countsOf (if previous + 1 < current ∧ active ≠ [] then
      (missedSlots previous current).foldl (accountMissed active) witnesses else witnesses) address =
        ((countsOf witnesses address).1, (countsOf witnesses address).2 +
          (missedSlots previous current).countP fun slot => slotWitness active slot = address) := by
    intro address
    split
    · exact countsOf_foldl_accountMissed (fun slot => ha _ (slotWitness_mem hne slot)) _
        hn hf address
    · next hno =>
      have he : missedSlots previous current = [] := by
        rw [← List.length_eq_zero_iff, length_missedSlots]
        have : ¬ previous + 1 < current := fun h => hno ⟨h, hne⟩
        omega
      rw [he, List.countP_nil]
      simp
  -- no witness comes or goes by that
  have hr : ∀ address, address ∈ (if previous + 1 < current ∧ active ≠ [] then
      (missedSlots previous current).foldl (accountMissed active) witnesses else witnesses) ↔
        address ∈ witnesses := by
    intro address
    split
    · generalize missedSlots previous current = slots
      clear hn hf hp hm ha
      induction slots generalizing witnesses with
      | nil => rfl
      | cons slot slots ih => exact ih.trans mem_adjustWitness
    · rfl
  unfold accountBlockProduction accountProduction
  generalize (if previous + 1 < current ∧ active ≠ [] then
      (missedSlots previous current).foldl (accountMissed active) witnesses else witnesses) =
    counted at hm hr
  dsimp only
  have hro : producer ∈ counted := (hr producer).mpr (ha producer hpr)
  -- then the producer has one block more
  obtain ⟨witness, hl, hc⟩ := countsOf_adjustWitness hro (fun witness =>
    { witness with
      totalProduced := saturateI64 (witness.totalProduced + 1)
      latestSlotNum := current }) address
  have hp' := countsOf_of_lookup hl
  rw [hm] at hp'
  obtain ⟨witness', hl', hc'⟩ := countsOf_adjustWitness (mem_adjustWitness.mpr hro)
    (fun witness => { witness with latestBlockNum := number }) address
  rw [hc']
  have hk : countsOf (adjustWitness producer (fun witness => { witness with
      totalProduced := saturateI64 (witness.totalProduced + 1)
      latestSlotNum := current }) counted) producer =
      (witness'.totalProduced, witness'.totalMissed) := countsOf_of_lookup hl'
  have hs : (if address = producer then (witness'.totalProduced, witness'.totalMissed)
      else countsOf (adjustWitness producer (fun witness => { witness with
        totalProduced := saturateI64 (witness.totalProduced + 1)
        latestSlotNum := current }) counted) address) =
      countsOf (adjustWitness producer (fun witness => { witness with
        totalProduced := saturateI64 (witness.totalProduced + 1)
        latestSlotNum := current }) counted) address := by
    split
    · next heq => rw [heq, hk]
    · rfl
  rw [hs, hc]
  split
  · next heq =>
    simp only [Prod.mk.injEq] at hp'
    rw [heq, ← hp'.1, ← hp'.2, saturateI64_of_inI64 hp]
  · rw [hm, Int.add_zero]

/-! ### The ring -/

section Ring

variable {slots : List UInt8} {index : Nat}

theorem length_applyFilledSlot (filled : Bool) :
    (applyFilledSlot slots index filled).1.length = slots.length := by
  rw [applyFilledSlot, List.length_set]

theorem fillMissed_place (hl : slots.length = 128) (hi : index < 128) (count : Nat) :
    (fillMissed count (slots, index)).1.length = 128 ∧
      (fillMissed count (slots, index)).2 = (index + count) % 128 := by
  induction count with
  | zero => exact ⟨hl, (Nat.mod_eq_of_lt hi).symm⟩
  | succ count ih =>
    obtain ⟨hl', hp⟩ := ih
    rw [fillMissed, List.range_succ, List.foldl_append, ← fillMissed, List.foldl_cons,
      List.foldl_nil]
    refine ⟨(length_applyFilledSlot false).trans hl', ?_⟩
    simp only [applyFilledSlot, hl', hp]
    omega

/-- A shorter gap: the missed slots one after the other, and the slot of the block. -/
theorem fillSlots_of_lt {previous current : Int} (hf : InI64 (current - previous))
    (hlt : current - previous < 128) :
    fillSlots previous current slots index =
      applyFilledSlot (fillMissed (current - previous - 1).toNat (slots, index)).1
        (fillMissed (current - previous - 1).toNat (slots, index)).2 true := by
  have hc : (max (current - previous) 1 - 1).toNat = (current - previous - 1).toNat := by
    omega
  rw [fillSlots, saturateI64_of_inI64 hf]
  dsimp only
  rw [if_neg (by omega), hc]
  rfl

/-- **The place of the ring after a block**: a gap of the length of the ring or more moves it on by
one place too many. -/
theorem fillSlots_place {previous current : Int} (hl : slots.length = 128)
    (hi : index < 128) (hf : InI64 (current - previous)) :
    (fillSlots previous current slots index).2 =
      (index + (max (current - previous) 1).toNat +
        if 128 ≤ current - previous then 1 else 0) % 128 := by
  by_cases hlt : current - previous < 128
  · obtain ⟨hl', hp⟩ := fillMissed_place hl hi (current - previous - 1).toNat
    rw [fillSlots_of_lt hf hlt, applyFilledSlot]
    dsimp only
    rw [hl', hp, if_neg (by omega)]
    omega
  · rw [fillSlots, saturateI64_of_inI64 hf]
    dsimp only
    rw [if_pos (by omega), if_pos (by omega), applyFilledSlot, List.length_replicate]
    dsimp only
    omega

theorem fillSlots_place_lt {previous current : Int} (hl : slots.length = 128)
    (hi : index < 128) (hf : InI64 (current - previous)) :
    (fillSlots previous current slots index).2 < 128 := by
  rw [fillSlots_place hl hi hf]
  omega

end Ring

variable {g g' : Governance}

theorem filledSlots_saveFilledSlots {previous current : Int} (hf : InI64 (current - previous))
    (hr : ProductionBlockHooks.saveFilledSlots previous current g = .ok g') :
    (filledSlots g).1.length = 128 ∧
      filledSlots g' = fillSlots previous current (filledSlots g).1 (filledSlots g).2 := by
  unfold ProductionBlockHooks.saveFilledSlots at hr
  dsimp only at hr
  split at hr
  · cases hr
  next hl =>
  change Except.mapError _ _ = _ at hr
  rw [mapError_eq_ok_iff] at hr
  obtain rfl := saveDynamicInt_eq_ok hr
  have hl' : (filledSlots g).1.length = 128 := not_not.mp hl
  have hi : (filledSlots g).2 < 128 := Nat.mod_lt _ (by decide)
  have hp := fillSlots_place_lt hl' hi hf
  refine ⟨hl', ?_⟩
  change filledSlots ((g.putDynamic "BLOCK_FILLED_SLOTS"
    (fillSlots previous current (filledSlots g).1 (filledSlots g).2).1).putDynamic
      "BLOCK_FILLED_SLOTS_INDEX"
        (be32 (fillSlots previous current (filledSlots g).1 (filledSlots g).2).2)) = _
  generalize fillSlots previous current (filledSlots g).1 (filledSlots g).2 = ring at hp
  rw [filledSlots, dynamicRaw_putDynamic_self, dynamicRaw_putDynamic_of_ne (by decide),
    dynamicRaw_putDynamic_self, Option.bind_some, fromBe32_be32 (by omega) (by omega)]
  simp only [Option.getD_some, Int.toNat_natCast, Nat.mod_eq_of_lt hp]

/-- What the hook of a block counts, over the absolute slots of its parent and its own. -/
structure Counts (g g' : Governance) (previous current : Int) (producer : Bytes) : Prop where
  keyed : Keyed g'.world.witnesses
  counts : ∀ address, countsOf g'.world.witnesses address =
    ((countsOf g.world.witnesses address).1 + (if address = producer then 1 else 0),
      (countsOf g.world.witnesses address).2 + (missedSlots previous current).countP fun slot =>
        slotWitness g.world.activeWitnesses slot = address)
  length : (filledSlots g).1.length = 128
  filled : filledSlots g' = fillSlots previous current (filledSlots g).1 (filledSlots g).2

/-- **The hook of a block** counts absolute slots. -/
theorem countsOf_maintenanceAndDpos {hooks : ProductionBlockHooks} {producer : Bytes}
    {timestamp previousTime : Int} (hk : Keyed g.world.witnesses)
    (ha : ∀ address ∈ g.world.activeWitnesses, address ∈ g.world.witnesses)
    (hpro : producer ∈ g.world.activeWitnesses)
    (ht : g.dynamicLong "LATEST_BLOCK_HEADER_TIMESTAMP" = .ok previousTime)
    {previous current : Int} (hp : productionSlot hooks.genesisTime previousTime = previous)
    (hcu : productionSlot hooks.genesisTime timestamp = current)
    (hfi : InI64 (current - previous))
    (hn : ∀ address, 0 ≤ (countsOf g.world.witnesses address).2)
    (hmi : ∀ address, (countsOf g.world.witnesses address).2 +
      (missedSlots previous current).length ≤ i64Max)
    (hpr : InI64 ((countsOf g.world.witnesses producer).1 + 1))
    (hru : hooks.maintenanceAndDpos producer timestamp g = .ok g') :
    Counts g g' previous current producer := by
  simp only [ProductionBlockHooks.maintenanceAndDpos, bind_eq_ok_iff, pure_eq_ok_iff,
    mapError_eq_ok_iff] at hru
  obtain ⟨previousTime', ht', g₁, hs, ⟨g₂, outcome⟩, hma, rfl⟩ := hru
  cases ht.symm.trans ht'
  rw [hp, hcu] at hs
  have hco : saveWitnesses ∅ (g.world.witnesses.sortedRows keyLe) = g.world.witnesses := by
    refine Finmap.ext_lookup fun address => ?_
    rw [lookup_saveWitnesses hk, Finmap.lookup_empty, Option.or_none]
  rw [hco] at hs
  generalize hnu : saturateI64 (g.longOr "LATEST_BLOCK_HEADER_NUMBER" 0 + 1) = number at *
  have hc : ∀ address, countsOf (accountBlockProduction g.world.activeWitnesses previous current
      number producer g.world.witnesses) address = _ :=
    countsOf_accountBlockProduction ha hpro hn hmi hpr
  have hst : Stands (fun _ _ => True) g.world.witnesses :=
    fun address witness hr => ⟨hk address witness hr, trivial⟩
  have hk' : Keyed (accountBlockProduction g.world.activeWitnesses previous current number
      producer g.world.witnesses) :=
    (hst.accountBlockProduction _ _ _ _ trivial).keyed
  have hro : ∀ address ∈ g.world.witnesses, address ∈ accountBlockProduction
      g.world.activeWitnesses previous current number producer g.world.witnesses := by
    intro address hr
    unfold accountBlockProduction accountProduction
    rw [mem_adjustWitness, mem_adjustWitness]
    split
    · generalize missedSlots previous current = slots
      clear * - hr
      generalize g.world.witnesses = witnesses at *
      induction slots generalizing witnesses with
      | nil => exact hr
      | cons slot slots ih => exact ih _ (mem_adjustWitness.mpr hr)
    · exact hr
  generalize accountBlockProduction g.world.activeWitnesses previous current number producer
    g.world.witnesses = accounted at hc hk' hro hs
  have hsa : saveWitnesses g.world.witnesses (accounted.sortedRows keyLe) = accounted := by
    refine Finmap.ext_lookup fun address => ?_
    rw [lookup_saveWitnesses hk']
    cases hr : accounted.lookup address with
    | some witness => rfl
    | none =>
      rw [Option.none_or, Finmap.lookup_eq_none]
      exact fun hme => Finmap.lookup_eq_none.mp hr (hro address hme)
  rw [hsa] at hs
  obtain ⟨hl, hf⟩ := filledSlots_saveFilledSlots hfi hs
  have hasi := aside_saveFilledSlots hs
  have hw : g₁.world.witnesses = accounted := hasi.witnesses
  obtain ⟨hm, hri⟩ :=
    maintained_applyMaintenanceBlock (hw.symm ▸ hk') hma
  refine ⟨hm.keyed, fun address => ?_, hl, hri.trans hf⟩
  rw [hm.same.counts, hw, hc]

end Hook

/-! ## Blocks -/

section Blocks

variable {g g' g'' : Governance}

/-- What the work of a block before the hook leaves of the statistics. -/
structure Kept (g g' : Governance) : Prop where
  keyed : Keyed g'.world.witnesses
  same : SameCounts g.world.witnesses g'.world.witnesses
  active : g'.world.activeWitnesses = g.world.activeWitnesses
  properties : ∀ name ∈ statisticsNames, g'.dynamicRaw name = g.dynamicRaw name

theorem Kept.refl (hk : Keyed g.world.witnesses) : Kept g g :=
  ⟨hk, .refl _, rfl, fun _ _ => rfl⟩

theorem Kept.trans (h : Kept g g') (h' : Kept g' g'') : Kept g g'' where
  keyed := h'.keyed
  same := h.same.trans h'.same
  active := h'.active.trans h.active
  properties name hn := (h'.properties name hn).trans (h.properties name hn)

theorem Kept.of_eq (hk : Keyed g.world.witnesses)
    (hw : g'.world.witnesses = g.world.witnesses)
    (ha : g'.world.activeWitnesses = g.world.activeWitnesses)
    (hp : ∀ name ∈ statisticsNames, g'.dynamicRaw name = g.dynamicRaw name) :
    Kept g g' where
  keyed := hw.symm ▸ hk
  same := hw.symm ▸ .refl _
  active := ha
  properties := hp

theorem SideWork.kept {work : SideWork} (hk : work.KeepsStatistics)
    (hke : Keyed g.world.witnesses) (hr : work.run g = .ok g') : Kept g g' :=
  .of_eq hke (work.witnesses hr) (work.active hr) (hk hr)

theorem kept_execute {tx : BlockTransaction} (hk : tx.work.KeepsStatistics)
    (hke : Keyed g.world.witnesses) (hr : tx.execute g = .ok g') : Kept g g' := by
  cases tx with
  | createWitness ownerAddress accounts =>
    rw [BlockTransaction.execute] at hr
    split at hr
    · cases hr
    next hn =>
    have hco : countsOf g.world.witnesses ownerAddress = (0, 0) := by
      rw [countsOf, not_not.mp hn]
      rfl
    have hc : Kept g { g with world := { g.world with
        witnesses := saveWitness g.world.witnesses { address := ownerAddress } } } :=
      ⟨hke.saveWitness _, .saveWitness hco, rfl, fun name _ => rfl⟩
    exact hc.trans (SideWork.kept hk hc.keyed hr)
  | other work => exact SideWork.kept hk hke hr

theorem kept_transactions {txs : List BlockTransaction}
    (hk : ∀ tx ∈ txs, tx.work.KeepsStatistics) (hke : Keyed g.world.witnesses)
    (hr : txs.foldlM BlockTransaction.execute g = .ok g') : Kept g g' := by
  induction txs generalizing g with
  | nil =>
    cases hr
    exact .refl hke
  | cons tx txs ih =>
    rw [List.foldlM_cons, bind_eq_ok_iff] at hr
    obtain ⟨g₁, he, hr⟩ := hr
    have hkep := kept_execute (hk tx List.mem_cons_self) hke he
    refine hkep.trans (ih (fun other ho => ?_) hkep.keyed hr)
    exact hk other (List.mem_cons_of_mem _ ho)

theorem not_written_statisticsNames :
    ∀ name ∈ statisticsNames, ¬ Written canonicalParameterRules name := by
  unfold Written
  decide

theorem kept_processExpiredProposals (hk : Keyed g.world.witnesses) {scan : ProposalScan}
    (hr : processExpiredProposals canonicalParameterRules g = .ok (g', scan)) : Kept g g' := by
  have ha := aside_processExpiredProposals hr
  simp only [processExpiredProposals, bind_eq_ok_iff] at hr
  obtain ⟨next, -, hr⟩ := hr
  refine .of_eq hk ha.witnesses ha.active fun name hn => ?_
  exact (scanned_scanFrom (pairwise_idsDownFrom _) hr).properties name
    (not_written_statisticsNames name hn)

/-- The solidified height is taken last, from the rows of the active witnesses, which all exist. -/
theorem updateSolidity_frame {update : SolidityUpdate}
    (hru : updateSolidity g = .ok (g', update)) :
    (∀ address ∈ g'.world.activeWitnesses, address ∈ g'.world.witnesses) ∧
      g'.world.witnesses = g.world.witnesses ∧
      ∀ name, name ≠ "LATEST_SOLIDIFIED_BLOCK_NUM" → g'.dynamicRaw name = g.dynamicRaw name := by
  unfold updateSolidity at hru
  dsimp only at hru
  split at hru
  · cases hru
  simp only [bind_eq_ok_iff, pure_eq_ok_iff, Prod.mk.injEq] at hru
  obtain ⟨numbers, hl, previous, -, g₁, hs, rfl, -⟩ := hru
  obtain ⟨-, hro⟩ := latestBlockNums_eq_ok hl
  have hr : ∀ address ∈ g.world.activeWitnesses, address ∈ g.world.witnesses :=
    fun address ha => Finmap.mem_iff.mpr (hro address ha)
  split at hs
  · obtain ⟨-, rfl⟩ := saveDynamicLong_eq_ok hs
    obtain ⟨hw, hac⟩ := world_putDynamic g "LATEST_SOLIDIFIED_BLOCK_NUM" (be64 _)
    rw [hw, hac]
    exact ⟨hr, rfl, fun name hn => dynamicRaw_putDynamic_of_ne hn⟩
  · cases hs
    exact ⟨hr, rfl, fun _ _ => rfl⟩

/-- **A block** counts the absolute slots between the time of its parent and its own; the time of
the parent is then its own, and all active witnesses have rows. -/
structure Accounted (hooks : ProductionBlockHooks) (b : ProducedBlock) (parentTime : Int)
    (g g' : Governance) : Prop
    extends Counts g g' (productionSlot hooks.genesisTime parentTime)
      (productionSlot hooks.genesisTime b.timestamp) b.witnessAddress where
  time : g'.dynamicRaw "LATEST_BLOCK_HEADER_TIMESTAMP" = some (be64 b.timestamp)
  registered : ∀ address ∈ g'.world.activeWitnesses, address ∈ g'.world.witnesses

theorem accounted_apply {hooks : ProductionBlockHooks} {b : ScheduledBlock} {parentTime : Int}
    (hk : Keyed g.world.witnesses)
    (hac : ∀ address ∈ g.world.activeWitnesses, address ∈ g.world.witnesses)
    (hproducer : b.witnessAddress ∈ g.world.activeWitnesses)
    (hti : g.dynamicRaw "LATEST_BLOCK_HEADER_TIMESTAMP" = some (be64 parentTime))
    (hii64 : InI64 parentTime)
    (hfi : InI64 (productionSlot hooks.genesisTime b.timestamp -
      productionSlot hooks.genesisTime parentTime))
    (hn : ∀ address, 0 ≤ (countsOf g.world.witnesses address).2)
    (hm : ∀ address, (countsOf g.world.witnesses address).2 +
      (missedSlots (productionSlot hooks.genesisTime parentTime)
        (productionSlot hooks.genesisTime b.timestamp)).length ≤ i64Max)
    (hpro : InI64 ((countsOf g.world.witnesses b.witnessAddress).1 + 1))
    (hru : b.toProducedBlock.apply hooks g = .ok g') :
    Accounted hooks b.toProducedBlock parentTime g g' := by
  simp only [ProducedBlock.apply, bind_eq_ok_iff, pure_eq_ok_iff, mapError_eq_ok_iff] at hru
  obtain ⟨g₁, ht, g₂, hre, ⟨g₃, scan⟩, hpr, g₄, hd, g₅, hf,
    ⟨g₆, update⟩, hs, rfl⟩ := hru
  have h₁ := kept_transactions b.transactions_keep hk ht
  have h₂ := h₁.trans (SideWork.kept b.payReward_keeps h₁.keyed hre)
  have h₃ := h₂.trans (kept_processExpiredProposals h₂.keyed hpr)
  have hr₃ : filledSlots g₃ = filledSlots g := filledSlots_congr fun name hna =>
    h₃.properties name (by revert name; decide)
  have ht₃ : g₃.dynamicLong "LATEST_BLOCK_HEADER_TIMESTAMP" = .ok parentTime :=
    dynamicLong_of_raw (by decide) ((h₃.properties _ (by decide)).trans hti) hii64
  have hc : Counts g₃ g₄ (productionSlot hooks.genesisTime parentTime)
      (productionSlot hooks.genesisTime b.timestamp) b.witnessAddress := by
    refine countsOf_maintenanceAndDpos h₃.keyed (fun address ha => ?_)
      (h₃.active.symm ▸ hproducer) ht₃ rfl rfl hfi (fun address => ?_) (fun address => ?_) ?_
      hd
    · exact h₃.same.rows _ (hac _ (h₃.active ▸ ha))
    · rw [h₃.same.counts]
      exact hn address
    · rw [h₃.same.counts]
      exact hm address
    · rw [h₃.same.counts]
      exact hpro
  have h₅ := SideWork.kept b.forkStats_keeps hc.keyed hf
  obtain ⟨hr, hw, hp⟩ := updateSolidity_frame hs
  have hw₅ : (b.persist g₅).world.witnesses = g₅.world.witnesses := by
    rw [ProducedBlock.persist, (world_putDynamic _ _ _).1, (world_putDynamic _ _ _).1]
  have hri : filledSlots g₆ = filledSlots g₄ := filledSlots_congr fun name hna => by
    have hpl : name ∈ statisticsNames ∧ name ≠ "LATEST_SOLIDIFIED_BLOCK_NUM" ∧
        name ≠ "LATEST_BLOCK_HEADER_NUMBER" ∧ name ≠ "LATEST_BLOCK_HEADER_TIMESTAMP" := by
      revert name
      decide
    obtain ⟨hme, hne, hn', hn''⟩ := hpl
    rw [hp name hne, ProducedBlock.persist, dynamicRaw_putDynamic_of_ne hn'',
      dynamicRaw_putDynamic_of_ne hn', h₅.properties name hme]
  refine ⟨⟨?_, fun address => ?_, hr₃ ▸ hc.length, ?_⟩, ?_, hr⟩
  · rw [hw, hw₅]
    exact h₅.keyed
  · rw [hw, hw₅, h₅.same.counts, hc.counts, h₃.same.counts, h₃.active]
  · rw [hri, hc.filled, hr₃]
  · rw [hp _ (by decide), ProducedBlock.persist, dynamicRaw_putDynamic_self]

end Blocks

/-! ## Chains -/

namespace SlotContext

variable {c : SlotContext}

theorem scheduledWitness_of_fits {active : List Bytes} {s : Int} (ha : active ≠ [])
    (hl : (active.length : Int) ≤ i64Max) (hp : 0 ≤ c.absoluteSlot c.headTime + s)
    (hle : c.absoluteSlot c.headTime + s ≤ i64Max) :
    c.scheduledWitness s active = .ok (slotWitness active (c.absoluteSlot c.headTime + s)) := by
  have hsu : checkedAdd (c.absoluteSlot c.headTime) s = some (c.absoluteSlot c.headTime + s) := by
    rw [checkedAdd, toI64_eq_some_iff]
    exact ⟨⟨by unfold i64Min; omega, hle⟩, rfl⟩
  have hs : checkedMul (active.length : Int) singleRepeat = some (active.length : Int) := by
    rw [checkedMul, singleRepeat, Int.mul_one, toI64_eq_some_iff]
    exact ⟨⟨by unfold i64Min; omega, hl⟩, rfl⟩
  unfold scheduledWitness
  simp only [if_neg ha, hsu, hs, orOverflow]
  change (if c.absoluteSlot c.headTime + s < 0 then _ else _) = _
  rw [if_neg (by omega)]
  change Except.ok (active.getD _ []) = _
  rw [slotWitness, singleRepeat, Int.tdiv_one, Int.tmod_eq_emod_of_nonneg hp]

end SlotContext

theorem productionSlot_eq {genesisTime timestamp : Int} (hn : 0 ≤ genesisTime)
    (hle : genesisTime ≤ timestamp) (hm : timestamp ≤ i64Max) :
    productionSlot genesisTime timestamp = (timestamp - genesisTime) / blockIntervalMs := by
  have hf : InI64 (timestamp - genesisTime) := by
    unfold InI64 i64Min
    omega
  rw [productionSlot, wrapI64_of_inI64 hf, Int.tdiv_eq_ediv_of_nonneg (by omega)]
  unfold blockIntervalMs
  omega

namespace Chain

variable {c c' : Chain} {hooks : ProductionBlockHooks} {p : ProductionBlockConsensus}

theorem Accepted.reachable {genesis : Governance} (h : Accepted hooks genesis c) :
    Reachable hooks genesis c := by
  induction h with
  | start => exact .start
  | apply _ _ hr ih => exact .apply ih hr
  | rewind _ ih => exact .rewind ih

/-- **The tally of a chain**: its state is at the time of its head, no witness has produced more
blocks than there are, and none has missed more slots than have passed. -/
structure Tallied (genesisTime : Int) (c : Chain) : Prop where
  genesis_le : genesisTime ≤ c.headTime genesisTime
  le : c.headTime genesisTime ≤ i64Max
  genesis_head : c.height = 0 → c.headTime genesisTime = genesisTime
  time : c.state.dynamicRaw "LATEST_BLOCK_HEADER_TIMESTAMP" =
    some (be64 (c.headTime genesisTime))
  keyed : Keyed c.state.world.witnesses
  registered : ∀ address ∈ c.state.world.activeWitnesses, address ∈ c.state.world.witnesses
  produced : ∀ address, 0 ≤ (countsOf c.state.world.witnesses address).1 ∧
    (countsOf c.state.world.witnesses address).1 ≤ c.height
  missed : ∀ address, 0 ≤ (countsOf c.state.world.witnesses address).2 ∧
    (countsOf c.state.world.witnesses address).2 ≤
      productionSlot genesisTime (c.headTime genesisTime)

theorem checkSchedule_eq_ok {b : ProducedBlock} (h : checkSchedule p b c = .ok ()) :
    c.headTime p.genesisTime < b.timestamp ∧ ∃ n,
      (c.slotContext p).slot p.clock b.timestamp = .ok n ∧
        (c.slotContext p).scheduledWitness n c.state.world.activeWitnesses =
          .ok b.witnessAddress := by
  unfold checkSchedule at h
  split at h
  · cases h
  next hl =>
  split at h
  · cases h
  next scheduled hs =>
  split at h
  · cases h
  next hw =>
  obtain rfl : scheduled = b.witnessAddress := not_not.mp hw
  simp only [scheduledWitness, bind_eq_ok_iff, mapError_eq_ok_iff] at hs
  obtain ⟨flag, hf, n, hsl, hs⟩ := hs
  refine ⟨not_le.mp hl, n, ?_⟩
  rw [slotContext, afterMaintenance, hf]
  simp only [Except.toOption, Option.some.injEq]
  exact ⟨hsl, hs⟩

theorem checks_of_applyBlock {checks : Chain → Except BlockApplyError Unit} {b : ProducedBlock}
    (hr : c.applyBlock hooks checks b = .ok c') : checks c = .ok () := by
  unfold applyBlock at hr
  split at hr
  · cases hr
  split at hr
  · cases hr
  simp only [bind_eq_ok_iff] at hr
  obtain ⟨_, hc, -⟩ := hr
  exact hc

theorem Tallied.valid (h : c.Tallied p.genesisTime) : (c.slotContext p).Valid :=
  ⟨p.genesisTime_nonneg, h.genesis_le, h.le, h.genesis_head, skip_nonneg⟩

/-- **One block** over a tallied chain: it is accounted, and the chain stays tallied. -/
theorem Tallied.applyBlock (h : c.Tallied hooks.genesisTime) (hb : c.Backed)
    (hp : p.genesisTime = hooks.genesisTime) {b : ScheduledBlock}
    (hr : c.applyBlock hooks (checkSchedule p b.toProducedBlock) b.toProducedBlock = .ok c') :
    Accounted hooks b.toProducedBlock (c.headTime hooks.genesisTime) c.state c'.state ∧
      c'.Tallied hooks.genesisTime := by
  obtain ⟨hl, n, -, hs⟩ := checkSchedule_eq_ok (checks_of_applyBlock hr)
  obtain ⟨hii64, hnu, state, hap, rfl⟩ := applyBlock_eq_ok hr
  obtain ⟨-, he⟩ := SlotContext.scheduledWitness_eq_ok hs
  have hn := p.genesisTime_nonneg
  rw [hp] at hl hn
  have hle := h.genesis_le
  have hma := b.inI64.2
  have hhe := hb.nonneg
  have hpr := productionSlot_eq hn hle h.le
  have hc := productionSlot_eq hn (hle.trans hl.le) hma
  -- the slots of the head and the block, in their order
  have hsl : 0 ≤ productionSlot hooks.genesisTime (c.headTime hooks.genesisTime) ∧
      productionSlot hooks.genesisTime (c.headTime hooks.genesisTime) ≤
        productionSlot hooks.genesisTime b.timestamp ∧
      productionSlot hooks.genesisTime b.timestamp ≤ i64Max := by
    rw [hpr, hc]
    unfold blockIntervalMs
    omega
  have ha : Accounted hooks b.toProducedBlock (c.headTime hooks.genesisTime) c.state
      state := by
    refine accounted_apply h.keyed h.registered (List.mem_of_getElem? he) h.time ?_ ?_
      (fun address => (h.missed address).1) (fun address => ?_) ?_ hap
    · unfold InI64 i64Min
      omega
    · unfold InI64 i64Min
      omega
    · have hm := (h.missed address).2
      rw [length_missedSlots]
      omega
    · have hpro := h.produced b.witnessAddress
      unfold InI64 i64Min i64Max at hii64 ⊢
      omega
  refine ⟨ha, ?_⟩
  have hh : headTime { c with blocks := ⟨b.toProducedBlock, state⟩ :: c.blocks }
      hooks.genesisTime = b.timestamp := rfl
  have hn' : height { c with blocks := ⟨b.toProducedBlock, state⟩ :: c.blocks } =
      c.height + 1 := hnu
  refine ⟨?_, ?_, fun hz => ?_, ha.time, ha.keyed, ha.registered,
    fun address => ?_, fun address => ?_⟩
  · rw [hh]
    omega
  · rw [hh]
    exact hma
  · omega
  · have hpro := h.produced address
    change 0 ≤ (countsOf state.world.witnesses address).1 ∧
      (countsOf state.world.witnesses address).1 ≤ b.number
    rw [ha.counts, hnu]
    dsimp only
    split <;> omega
  · have hm := h.missed address
    have hco := List.countP_le_length (p := fun slot =>
      slotWitness c.state.world.activeWitnesses slot = address)
      (l := missedSlots (productionSlot hooks.genesisTime (c.headTime hooks.genesisTime))
        (productionSlot hooks.genesisTime b.timestamp))
    rw [length_missedSlots] at hco
    change 0 ≤ (countsOf state.world.witnesses address).2 ∧
      (countsOf state.world.witnesses address).2 ≤ productionSlot hooks.genesisTime b.timestamp
    rw [ha.counts]
    dsimp only
    omega

theorem tallied_genesis (config : GenesisConfig) {genesisTime : Int} (hii64 : InI64 genesisTime)
    (rest : Governance) :
    (⟨config.rows genesisTime rest, []⟩ : Chain).Tallied genesisTime := by
  have hr : ∀ (witnesses : List GenesisWitnessConfig) (stored : FMap Bytes Witness),
      (Keyed stored ∧ ∀ address, countsOf stored address = (0, 0)) →
        let stored' := witnesses.foldl (fun stored witness => saveWitness stored
          { address := witness.address, voteCount := witness.voteCount, isJobs := true }) stored
        (Keyed stored' ∧ ∀ address, countsOf stored' address = (0, 0)) ∧
          ∀ address, address ∈ stored ∨ address ∈ witnesses.map GenesisWitnessConfig.address →
            address ∈ stored' := by
    intro witnesses
    induction witnesses with
    | nil => exact fun stored h => ⟨h, fun address hm => hm.resolve_right List.not_mem_nil⟩
    | cons witness witnesses ih =>
      rintro stored ⟨hk, hc⟩
      obtain ⟨hl, hm⟩ := ih (saveWitness stored
        { address := witness.address, voteCount := witness.voteCount, isJobs := true })
        ⟨hk.saveWitness _, fun address => by
          rw [saveWitness, countsOf_insert]
          split
          · rfl
          · exact hc address⟩
      refine ⟨hl, fun address ha => hm address ?_⟩
      rw [List.map_cons, List.mem_cons] at ha
      rw [saveWitness, Finmap.mem_insert]
      tauto
  have hw : (config.rows genesisTime rest).world.witnesses = config.witnesses.foldl
      (fun stored witness => saveWitness stored
        { address := witness.address, voteCount := witness.voteCount, isJobs := true }) ∅ := by
    simp only [GenesisConfig.rows, (world_putDynamic _ _ _).1]
  have hac : (config.rows genesisTime rest).world.activeWitnesses =
      config.witnesses.map GenesisWitnessConfig.address := by
    simp only [GenesisConfig.rows, (world_putDynamic _ _ _).2]
  obtain ⟨⟨hk, hc⟩, hm⟩ := hr config.witnesses ∅
    ⟨(fun address witness hro => by cases hro), fun address => rfl⟩
  rw [← hw] at hk hc hm
  have hs : 0 ≤ productionSlot genesisTime genesisTime := le_max_right _ _
  refine ⟨le_rfl, hii64.2, fun _ => rfl, ?_, hk, fun address ha => ?_,
    fun address => ?_, fun address => ?_⟩
  · change (config.rows genesisTime rest).dynamicRaw _ = some (be64 genesisTime)
    rw [GenesisConfig.rows, dynamicRaw_putDynamic_of_ne (by decide),
      dynamicRaw_putDynamic_self]
  · change address ∈ (config.rows genesisTime rest).world.activeWitnesses at ha
    exact hm address (.inr (hac ▸ ha))
  · change 0 ≤ (countsOf (config.rows genesisTime rest).world.witnesses address).1 ∧
      (countsOf (config.rows genesisTime rest).world.witnesses address).1 ≤ 0
    rw [hc]
    exact ⟨le_rfl, le_rfl⟩
  · change 0 ≤ (countsOf (config.rows genesisTime rest).world.witnesses address).2 ∧
      (countsOf (config.rows genesisTime rest).world.witnesses address).2 ≤ _
    rw [hc]
    exact ⟨le_rfl, hs⟩

/-- **What every chain keeps**, by induction on how it was reached: every chain below an accepted
one is tallied. -/
theorem Accepted.tallied {config : GenesisConfig} {rest : Governance}
    (h : Accepted hooks (config.rows hooks.genesisTime rest) c) :
    ∀ count, (c.cut count).Tallied hooks.genesisTime := by
  induction h with
  | start hii64 =>
    intro count
    rw [cut, List.drop_nil]
    exact tallied_genesis config hii64 rest
  | @apply c c' p b ha hp hr ih =>
    have hb := (ha.reachable.backed (backed_genesis config _ rest) 0).1
    obtain ⟨-, ht⟩ := (ih 0).applyBlock hb hp hr
    obtain ⟨-, -, state, -, rfl⟩ := applyBlock_eq_ok hr
    intro count
    cases count with
    | zero => exact ht
    | succ count => exact ih count
  | rewind _ ih =>
    intro count
    rw [cut, parent, List.drop_tail]
    exact ih (count + 1)

/-- The relative slot of a block: the absolute slots since its parent, without those skipped. -/
theorem Tallied.slot_eq (h : c.Tallied p.genesisTime) {t n : Int}
    (hl : c.headTime p.genesisTime < t) (hm : t ≤ i64Max)
    (hs : (c.slotContext p).slot p.clock t = .ok n) :
    0 ≤ c.gap p t ∧ n = max (c.gap p t - (c.slotContext p).skipped) 0 := by
  have hle := h.genesis_le
  rw [h.valid.slot_eq hm hs, gap, productionSlot_eq p.genesisTime_nonneg hle h.le,
    productionSlot_eq p.genesisTime_nonneg (hle.trans hl.le) hm]
  have hb : (c.slotContext p).boundary = c.headTime p.genesisTime -
      (c.headTime p.genesisTime - p.genesisTime) % blockIntervalMs + blockIntervalMs := rfl
  rw [hb]
  unfold blockIntervalMs
  refine ⟨by omega, ?_⟩
  split <;> omega

theorem skipped_slotContext (hp : c.height ≠ 0) :
    (c.slotContext p).skipped = if c.afterMaintenance then 2 else 0 := by
  have hd : (c.slotContext p).skipped =
      if c.afterMaintenance = true ∧ c.height ≠ 0 then (2 : Int) else 0 := rfl
  rw [hd]
  simp only [hp, ne_eq, not_false_eq_true, and_true]

theorem countP_missedSlots (h : c.Tallied p.genesisTime) (hb : c.Backed) {n : Int}
    (hac : c.state.world.activeWitnesses ≠ [])
    (hm : productionSlot p.genesisTime (c.headTime p.genesisTime) + n ≤ i64Max)
    (address : Bytes) :
    (missedSlots (productionSlot p.genesisTime (c.headTime p.genesisTime))
        (productionSlot p.genesisTime (c.headTime p.genesisTime) + n)).countP
      (fun slot => slotWitness c.state.world.activeWitnesses slot = address) =
    (missedSlots 0 n).countP fun s =>
      (c.slotContext p).scheduledWitness s c.state.world.activeWitnesses = .ok address := by
  have hf := hb.committee.fits
  have ha : (c.slotContext p).absoluteSlot (c.slotContext p).headTime =
      productionSlot p.genesisTime (c.headTime p.genesisTime) := by
    rw [productionSlot_eq p.genesisTime_nonneg h.genesis_le h.le]
    exact h.valid.absoluteSlot_eq h.genesis_le h.le
  have hp : 0 ≤ productionSlot p.genesisTime (c.headTime p.genesisTime) := le_max_right _ _
  generalize productionSlot p.genesisTime (c.headTime p.genesisTime) = previous at *
  have hsl : missedSlots previous (previous + n) = (missedSlots 0 n).map (previous + ·) := by
    rw [missedSlots, missedSlots, List.map_map]
    refine congrArg₂ List.map (funext fun k => ?_) (congrArg List.range ?_)
    · simp only [Function.comp_apply]
      omega
    · omega
  rw [hsl, List.countP_map]
  refine List.countP_congr fun s hs => ?_
  simp only [missedSlots, List.mem_map, List.mem_range] at hs
  obtain ⟨k, hk, rfl⟩ := hs
  rw [SlotContext.scheduledWitness_of_fits hac (by unfold i64Max; omega)
    (by rw [ha]; omega) (by rw [ha]; omega), ha]
  simp only [Function.comp_apply, Except.ok.injEq]

/-- **Statistics follow the schedule exactly where a block is counted as it was scheduled**: for
every block of number two or more of an accepted chain, with its relative slot `n`. -/
theorem Accepted.followsSchedule_iff {config : GenesisConfig} {rest : Governance}
    {b : ScheduledBlock} (h : Accepted hooks (config.rows hooks.genesisTime rest) c)
    (hp : p.genesisTime = hooks.genesisTime)
    (hrun : c.applyBlock hooks (checkSchedule p b.toProducedBlock) b.toProducedBlock = .ok c')
    (hnumber : 2 ≤ b.number) :
    ∃ n, (c.slotContext p).slot p.clock b.timestamp = .ok n ∧
      (c.FollowsSchedule p b.toProducedBlock n c' ↔ c.Counted p b.timestamp) := by
  have htallied : c.Tallied hooks.genesisTime := h.tallied 0
  have hbacked := (h.reachable.backed (backed_genesis config _ rest) 0).1
  obtain ⟨haccounted, -⟩ := htallied.applyBlock hbacked hp hrun
  obtain ⟨hlater, n, hslot, hscheduled⟩ := checkSchedule_eq_ok (checks_of_applyBlock hrun)
  obtain ⟨-, hheight, -⟩ := applyBlock_eq_ok hrun
  obtain ⟨-, hentry⟩ := SlotContext.scheduledWitness_eq_ok hscheduled
  have hactive := List.ne_nil_of_mem (List.mem_of_getElem? hentry)
  have hpos : c.height ≠ 0 := by omega
  obtain ⟨hgap, hn⟩ := (hp ▸ htallied : c.Tallied p.genesisTime).slot_eq hlater b.inI64.2 hslot
  rw [skipped_slotContext hpos] at hn
  have hcounts := haccounted.counts
  have hfilled := haccounted.filled
  have hlength := haccounted.length
  rw [← hp] at htallied hcounts hfilled
  have hcurrent := productionSlot_eq p.genesisTime_nonneg
    (htallied.genesis_le.trans hlater.le) b.inI64.2
  have hnonneg := p.genesisTime_nonneg
  have hbound : productionSlot p.genesisTime b.timestamp ≤ i64Max := by
    have hmax := b.inI64.2
    have hle := htallied.genesis_le
    rw [hcurrent]
    unfold blockIntervalMs
    omega
  have hprevious : 0 ≤ productionSlot p.genesisTime (c.headTime p.genesisTime) := le_max_right _ _
  have hsum : productionSlot p.genesisTime b.timestamp =
      productionSlot p.genesisTime (c.headTime p.genesisTime) + c.gap p b.timestamp := by
    unfold gap
    omega
  have hdifference : productionSlot p.genesisTime b.timestamp -
      productionSlot p.genesisTime (c.headTime p.genesisTime) = c.gap p b.timestamp := rfl
  have hfits : InI64 (productionSlot p.genesisTime b.timestamp -
      productionSlot p.genesisTime (c.headTime p.genesisTime)) := by
    unfold InI64 i64Min
    omega
  have hindex : (filledSlots c.state).2 < 128 := Nat.mod_lt _ (by decide)
  refine ⟨n, hslot, fun hfollows => ?_, fun hcounted => ?_⟩
  · -- the place of the ring alone tells whether the block is counted so
    have hplace := congrArg Prod.snd (hfilled.symm.trans hfollows.filled)
    obtain ⟨hlength', hmissed⟩ := fillMissed_place hlength hindex (n - 1).toNat
    rw [fillSlots_place hlength hindex hfits, hdifference] at hplace
    simp only [applyFilledSlot, hlength', hmissed] at hplace
    unfold Counted
    cases hmaintenance : c.afterMaintenance with
    | false =>
      rw [hmaintenance, if_neg Bool.false_ne_true] at hn
      refine ⟨?_, .inl rfl⟩
      split at hplace <;> omega
    | true =>
      rw [hmaintenance, if_pos rfl] at hn
      refine ⟨?_, .inr ?_⟩ <;> split at hplace <;> omega
  · obtain ⟨hlt, hskipped⟩ := hcounted
    -- relative and absolute slots differ only where no slot lies between the two blocks
    have hsame : n = c.gap p b.timestamp ∨ n = 0 ∧ c.gap p b.timestamp ≤ 1 := by
      rcases hskipped with hmaintenance | hle
      · rw [hmaintenance, if_neg Bool.false_ne_true] at hn
        omega
      · split at hn <;> omega
    refine ⟨fun address => ?_, fun address => ?_, ?_⟩
    · rw [hcounts]
    · rw [hcounts]
      dsimp only
      rw [hsum]
      rcases hsame with hn | ⟨rfl, hle⟩
      · rw [hn, countP_missedSlots htallied hbacked hactive (hsum ▸ hbound)]
      · have hempty : missedSlots (productionSlot p.genesisTime (c.headTime p.genesisTime))
            (productionSlot p.genesisTime (c.headTime p.genesisTime) + c.gap p b.timestamp) =
              [] := by
          rw [← List.length_eq_zero_iff, length_missedSlots]
          omega
        rw [hempty]
        rfl
    · have hcount : (c.gap p b.timestamp - 1).toNat = (n - 1).toNat := by
        omega
      rw [hfilled, fillSlots_of_lt hfits (hdifference ▸ hlt), hdifference, hcount]

end Chain

namespace Chain.Sample

/-- The schedule, with the genesis time of the hooks. -/
def schedule : ProductionBlockConsensus := SlotSample.schedule

theorem idle_keeps : idle.KeepsStatistics := by
  rintro g g' ⟨⟩ name -
  rfl

/-- A block in an absolute slot, without transactions. -/
def blockInSlot (number : Int) (slot : UInt8) (producer : Bytes) : ScheduledBlock where
  toProducedBlock := ⟨number, 3000 * slot.toNat, producer, [], idle, idle⟩
  inI64 := by
    have := slot.toNat_lt
    unfold InI64 i64Min i64Max
    omega
  transactions_keep := fun _ h => (nomatch h)
  payReward_keeps := idle_keeps
  forkStats_keeps := idle_keeps

/-- The maintenance times, and the flag of a state that is not in maintenance. -/
def flagged : Governance := properties.putDynamic "STATE_FLAG" (be32 0)

/-- A block over a chain, after the checks of its header. -/
def schedules (c : Chain) (b : ScheduledBlock) : Except BlockApplyError Chain :=
  c.applyBlock hooks (checkSchedule schedule b.toProducedBlock) b.toProducedBlock

/-- The chain with a block, where it is accepted. -/
def accepting (c : Chain) (b : ScheduledBlock) : Chain := (schedules c b).toOption.getD c

theorem schedules_eq {c : Chain} {b : ScheduledBlock} (h : (schedules c b).toOption.isSome) :
    schedules c b = .ok (accepting c b) := by
  unfold accepting
  cases hr : schedules c b with
  | error e =>
    rw [hr] at h
    cases h
  | ok c' => rfl

/-- The first block, of the second witness. -/
def first : Chain := accepting ⟨config.rows 0 flagged, []⟩ (blockInSlot 1 1 (witness 2))

/-- A block with maintenance, of the third witness. -/
def maintained : Chain := accepting first (blockInSlot 2 2 (witness 3))

theorem first_accepted : Accepted hooks (config.rows 0 flagged) first :=
  .apply (p := schedule) (.start (by decide)) rfl (schedules_eq (by decide +kernel))

theorem maintained_eq : schedules first (blockInSlot 2 2 (witness 3)) = .ok maintained :=
  schedules_eq (by decide +kernel)

end Chain.Sample

namespace Chain

theorem Accepted.followsSchedule_iff_sample :
    ∃ n, (Sample.first.slotContext Sample.schedule).slot 0 6000 = .ok n ∧
      Sample.first.FollowsSchedule Sample.schedule
        (Sample.blockInSlot 2 2 (Sample.witness 3)).toProducedBlock n Sample.maintained := by
  obtain ⟨n, hslot, hiff⟩ :=
    Accepted.followsSchedule_iff Sample.first_accepted rfl Sample.maintained_eq (by decide)
  refine ⟨n, hslot, hiff.mpr ⟨?_, .inl ?_⟩⟩ <;> decide +kernel

/-- The block after the maintenance block comes in its slot one, and two slots that were skipped
count as missed; and a block in slot 128 after its parent moves the ring by 129 places. -/
theorem Accepted.followsSchedule_fails :
    (Accepted Sample.hooks (Sample.config.rows 0 Sample.flagged) Sample.maintained ∧
      (Sample.maintained.slotContext Sample.schedule).slot 0 15000 = .ok 1 ∧
      ∃ c', Sample.schedules Sample.maintained (Sample.blockInSlot 3 5 (Sample.witness 1)) =
          .ok c' ∧
        countsOf Sample.maintained.state.world.witnesses (Sample.witness 2) = (1, 0) ∧
        countsOf c'.state.world.witnesses (Sample.witness 2) = (1, 1) ∧
        ¬ Sample.maintained.FollowsSchedule Sample.schedule
          (Sample.blockInSlot 3 5 (Sample.witness 1)).toProducedBlock 1 c') ∧
    (Accepted Sample.hooks (Sample.config.rows 0 Sample.flagged) Sample.first ∧
      (Sample.first.slotContext Sample.schedule).slot 0 387000 = .ok 128 ∧
      ∃ c', Sample.schedules Sample.first (Sample.blockInSlot 2 129 (Sample.witness 1)) =
          .ok c' ∧
        (filledSlots Sample.first.state).2 = 1 ∧ (filledSlots c'.state).2 = 2 ∧
        ¬ Sample.first.FollowsSchedule Sample.schedule
          (Sample.blockInSlot 2 129 (Sample.witness 1)).toProducedBlock 128 c') := by
  refine ⟨⟨?_, by decide +kernel, _, Sample.schedules_eq (by decide +kernel), by decide +kernel,
    by decide +kernel, fun h => ?_⟩, Sample.first_accepted, by decide +kernel, _,
    Sample.schedules_eq (by decide +kernel), by decide +kernel, by decide +kernel, fun h => ?_⟩
  · exact .apply (p := Sample.schedule) Sample.first_accepted rfl Sample.maintained_eq
  · exact absurd (h.missed (Sample.witness 2)) (by decide +kernel)
  · exact absurd (congrArg Prod.snd h.filled) (by decide +kernel)

end Chain

end RustTron.Consensus
