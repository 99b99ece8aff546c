import RustTron.Consensus.Expiry
import RustTron.Consensus.Solidity
import RustTron.Consensus.Tally

/-!
# The backing of solidified heights

A row of a witness says that it produced the block of that number on this very chain: the row is
written in the block, a new witness starts at zero, maintenance copies the number, and a rewind
takes the row back with the block. The sorted list of the numbers of the active witnesses therefore
bounds from below how many of them have come as far as the number at a position.

## Main definitions

* `Stands P`: every row stands under the address of its witness, and its number satisfies `P`
* `Committee P`: the rows, and an active list without repetition
* `Chain.Backed`: the invariant of a chain

## Main results

* `length_sub_le_countP`: how many entries of a list are at or above the one at a position of the
  sorted list
* `solidityPosition_le`: the position is at most three tenths of the length
* `Chain.Reachable.solidified_backed`: the solidified height is backed by the producers of the chain
-/

namespace RustTron.Consensus

open Governance (dynamicRaw_putDynamic_self dynamicRaw_putDynamic_of_ne)

/-! ## Positions in a sorted list -/

/-- At most as many entries are below the entry at a position of the sorted list as its position
says. -/
theorem length_sub_le_countP {α : Type} [LinearOrder α] (numbers : List α) (position : Nat) (d : α)
    (h : position < numbers.length) :
    numbers.length - position ≤ numbers.countP
      fun x => (numbers.insertionSort (· ≤ ·)).getD position d ≤ x := by
  have hp := List.perm_insertionSort (· ≤ ·) numbers
  have hs : (numbers.insertionSort (· ≤ ·)).Pairwise (· ≤ ·) :=
    List.pairwise_insertionSort (· ≤ ·) numbers
  rw [← hp.countP_eq]
  rw [← hp.length_eq] at h ⊢
  generalize numbers.insertionSort (· ≤ ·) = sorted at h hs ⊢
  have he : sorted.getD position d = sorted[position] := by
    rw [List.getD_eq_getElem?_getD, List.getElem?_eq_getElem h, Option.getD_some]
  -- the entries from the position on are not below the one at it
  have hd : (sorted.drop position).countP (fun x => sorted.getD position d ≤ x) =
      (sorted.drop position).length := by
    rw [List.countP_eq_length]
    intro x hx
    obtain ⟨i, hi, rfl⟩ := List.mem_iff_getElem.mp hx
    rw [List.getElem_drop, he, decide_eq_true_iff]
    rcases Nat.eq_zero_or_pos i with rfl | hpo
    · exact le_of_eq (by simp)
    · exact List.pairwise_iff_getElem.mp hs _ _ _ _ (by omega)
  rw [← List.length_drop, ← hd]
  exact (List.drop_sublist position sorted).countP_le

theorem solidityPosition_le {size : Nat} (h : size < 2 ^ 50) :
    solidityPosition size ≤ 3 * size / 10 := by
  have hr := roundSignificand_le (size * threeTenths)
  unfold solidityPosition
  rw [roundSignificand_of_lt (h.trans (by decide))]
  generalize roundSignificand (size * threeTenths) = product at hr ⊢
  unfold threeTenths at hr
  omega

theorem solidityPosition_lt {size : Nat} (hp : 0 < size) (h : size < 2 ^ 50) :
    solidityPosition size < size := by
  have hle := solidityPosition_le h
  omega

/-! ## Rows -/

/-- Every row stands under the address of its witness, and its number is as required there. -/
def Stands (P : Bytes → Int → Prop) (witnesses : FMap Bytes Witness) : Prop :=
  ∀ address witness, witnesses.lookup address = some witness →
    witness.address = address ∧ P address witness.latestBlockNum

section Rows

variable {P Q : Bytes → Int → Prop} {witnesses witnesses' : FMap Bytes Witness}

theorem Stands.mono (h : Stands P witnesses) (hPQ : ∀ address n, P address n → Q address n) :
    Stands Q witnesses := by
  intro address witness hr
  obtain ⟨ha, hn⟩ := h address witness hr
  exact ⟨ha, hPQ _ _ hn⟩

theorem Stands.keyed (h : Stands P witnesses) : Keyed witnesses :=
  fun address witness hr => (h address witness hr).1

theorem stands_empty : Stands P ∅ := by
  intro address witness hr
  rw [Finmap.lookup_empty] at hr
  cases hr

theorem Stands.saveWitness (h : Stands P witnesses) {witness : Witness}
    (hn : P witness.address witness.latestBlockNum) :
    Stands P (saveWitness witnesses witness) := by
  intro address found hr
  unfold Consensus.saveWitness at hr
  by_cases hs : address = witness.address
  · subst hs
    rw [Finmap.lookup_insert, Option.some.injEq] at hr
    subst hr
    exact ⟨rfl, hn⟩
  · rw [Finmap.lookup_insert_of_ne _ hs] at hr
    exact h address found hr

theorem Stands.saveWitnesses (h : Stands P witnesses) {rows : List (Bytes × Witness)}
    (hr : ∀ row ∈ rows, P row.2.address row.2.latestBlockNum) :
    Stands P (saveWitnesses witnesses rows) := by
  unfold Consensus.saveWitnesses
  induction rows generalizing witnesses with
  | nil => exact h
  | cons row rows ih =>
    apply ih (h.saveWitness (hr row List.mem_cons_self))
    intro other ho
    exact hr other (List.mem_cons_of_mem _ ho)

theorem Stands.of_mem_sortedRows (h : Stands P witnesses) {row : Bytes × Witness}
    (hr : row ∈ witnesses.sortedRows keyLe) : P row.2.address row.2.latestBlockNum := by
  obtain ⟨ha, hn⟩ := h row.1 row.2 ((FMap.mem_sortedRows keyLe).mp hr)
  rw [ha]
  exact hn

theorem Stands.adjustWitness (h : Stands P witnesses) {address : Bytes}
    {change : Witness → Witness} (ha : ∀ witness, (change witness).address = witness.address)
    (hc : ∀ witness, P address witness.latestBlockNum →
      P address (change witness).latestBlockNum) :
    Stands P (adjustWitness address change witnesses) := by
  unfold Consensus.adjustWitness
  split
  · exact h
  · next witness hr =>
    obtain ⟨hk, hn⟩ := h address witness hr
    have hs : witnesses.insert address (change witness) =
        Consensus.saveWitness witnesses (change witness) := by
      rw [Consensus.saveWitness, ha, hk]
    rw [hs]
    apply h.saveWitness
    rw [ha, hk]
    exact hc witness hn

theorem Stands.accountProduction (h : Stands P witnesses) (active : List Bytes)
    (previous current : Int) (producer : Bytes) :
    Stands P (accountProduction active previous current producer witnesses) := by
  have hm : ∀ slots : List Int,
      Stands P (slots.foldl (accountMissed active) witnesses) := by
    intro slots
    induction slots generalizing witnesses with
    | nil => exact h
    | cons slot slots ih => exact ih (h.adjustWitness (fun _ => rfl) fun _ hn => hn)
  unfold Consensus.accountProduction
  refine Stands.adjustWitness ?_ (fun _ => rfl) fun _ hn => hn
  split
  · exact hm _
  · exact h

/-- **The statistics of a block**: only the row of the producer gets a new number. -/
theorem Stands.accountBlockProduction (h : Stands P witnesses) (active : List Bytes)
    (previous current number : Int) {producer : Bytes} (hn : P producer number) :
    Stands P (accountBlockProduction active previous current number producer witnesses) :=
  (h.accountProduction active previous current producer).adjustWitness (fun _ => rfl)
    fun _ _ => hn

theorem Stands.changeCounts (h : Stands P witnesses)
    {change : Int → Int → Except StateError Int} {amounts : List (Bytes × Int)}
    (hr : changeCounts change witnesses amounts = .ok witnesses') : Stands P witnesses' := by
  induction amounts generalizing witnesses with
  | nil =>
    cases hr
    exact h
  | cons e amounts ih =>
    rw [Consensus.changeCounts] at hr
    split at hr
    · exact ih h hr
    · next witness hro =>
      rw [bind_eq_ok_iff] at hr
      obtain ⟨voteCount, -, hr⟩ := hr
      obtain ⟨ha, hn⟩ := h _ _ hro
      refine ih (h.saveWitness ?_) hr
      rw [← ha] at hn
      exact hn

theorem Stands.saveJobs (h : Stands P witnesses) {active : List Bytes} {rows : List Witness}
    (hr : ∀ witness ∈ rows, P witness.address witness.latestBlockNum) :
    Stands P (saveJobs active witnesses rows) := by
  induction rows generalizing witnesses with
  | nil => exact h
  | cons witness rows ih =>
    refine ih (h.saveWitness (hr witness List.mem_cons_self)) ?_
    intro other ho
    exact hr other (List.mem_cons_of_mem _ ho)

end Rows

/-! ## Maintenance -/

/-- The rows of the witnesses, and the active ones: no address is listed twice, and the list fits
into a value of a store. -/
structure Committee (P : Bytes → Int → Prop) (w : World) : Prop where
  rows : Stands P w.witnesses
  distinct : w.activeWitnesses.Nodup
  fits : 21 * w.activeWitnesses.length < 2 ^ 32

section Maintenance

variable {P Q : Bytes → Int → Prop} {cfg : MaintenanceConfig} {w w' : World}

theorem Committee.congr (h : Committee P w) (hw : w'.witnesses = w.witnesses)
    (ha : w'.activeWitnesses = w.activeWitnesses) : Committee P w' where
  rows := by
    rw [hw]
    exact h.rows
  distinct := by
    rw [ha]
    exact h.distinct
  fits := by
    rw [ha]
    exact h.fits

theorem Committee.mono (h : Committee P w) (hPQ : ∀ address n, P address n → Q address n) :
    Committee Q w where
  rows := h.rows.mono hPQ
  distinct := h.distinct
  fits := h.fits

theorem Committee.withWitnesses (h : Committee P w) {witnesses : FMap Bytes Witness}
    (hr : Stands P witnesses) : Committee P { w with witnesses } :=
  ⟨hr, h.distinct, h.fits⟩

theorem Committee.removeThePower (h : Committee P w)
    (hr : removeThePower cfg w = .ok w') : Committee P w' := by
  unfold Consensus.removeThePower at hr
  split at hr
  · simp only [bind_eq_ok_iff, pure_eq_ok_iff] at hr
    obtain ⟨witnesses, hc, rfl⟩ := hr
    exact ⟨h.rows.changeCounts hc, h.distinct, h.fits⟩
  · cases hr
    exact h

theorem Committee.countVotes (h : Committee P w) (hr : countVotes w = .ok w') :
    Committee P w' := by
  simp only [Consensus.countVotes, bind_eq_ok_iff, pure_eq_ok_iff] at hr
  obtain ⟨deltas, -, witnesses, hc, rfl⟩ := hr
  exact ⟨h.rows.changeCounts hc, h.distinct, h.fits⟩

theorem payEach_frame {reward : Int → Int} {rows : List Witness}
    (hr : payEach reward w rows = .ok w') :
    w'.witnesses = w.witnesses ∧ w'.activeWitnesses = w.activeWitnesses := by
  induction rows generalizing w with
  | nil =>
    cases hr
    exact ⟨rfl, rfl⟩
  | cons witness rows ih =>
    rw [payEach] at hr
    split at hr
    · cases hr
    · obtain ⟨hw, ha⟩ := ih hr
      exact ⟨hw, ha⟩

theorem payLegacyStandby_frame {rows : List Witness}
    (hr : payLegacyStandby cfg w rows = .ok w') :
    w'.witnesses = w.witnesses ∧ w'.activeWitnesses = w.activeWitnesses := by
  unfold payLegacyStandby at hr
  dsimp only at hr
  split at hr
  · cases hr
    exact ⟨rfl, rfl⟩
  · rw [bind_eq_ok_iff] at hr
    obtain ⟨allowance, -, hr⟩ := hr
    exact payEach_frame hr

/-- The witnesses in the order of the election have distinct addresses, those of their rows. -/
theorem nodup_sortWitnesses {witnesses : FMap Bytes Witness} (h : Keyed witnesses)
    (optimized : Bool) :
    ((sortWitnesses optimized ((witnesses.sortedRows keyLe).map Prod.snd)).map
      Witness.address).Nodup := by
  have hk : ((witnesses.sortedRows keyLe).map Prod.snd).map Witness.address =
      witnesses.sortedKeys keyLe := by
    rw [List.map_map, ← FMap.map_fst_sortedRows]
    apply List.map_congr_left
    intro row hr
    exact h row.1 row.2 ((FMap.mem_sortedRows keyLe).mp hr)
  have hp := (List.perm_insertionSort (witnessLe optimized)
    ((witnesses.sortedRows keyLe).map Prod.snd)).map Witness.address
  rw [sortWitnesses, hp.nodup_iff, hk]
  exact FMap.nodup_sortedKeys keyLe witnesses

/-- **An election** leaves the numbers of the witnesses, and makes a list of distinct ones. -/
theorem Committee.elect (h : Committee P w) {changed : Bool} {active : List Bytes}
    (hr : elect cfg w changed = .ok (w', active)) : Committee P w' := by
  unfold Consensus.elect at hr
  split at hr
  · simp only [bind_eq_ok_iff, pure_eq_ok_iff, Prod.mk.injEq] at hr
    obtain ⟨w₁, hs, w₂, hp, rfl, -⟩ := hr
    generalize hso : sortWitnesses cfg.witnessSortOptimized
      ((w.witnesses.sortedRows keyLe).map Prod.snd) = sorted at hs hp
    have hn : (sorted.map Witness.address).Nodup :=
      hso ▸ nodup_sortWitnesses h.rows.keyed cfg.witnessSortOptimized
    have hro : ∀ witness ∈ sorted, P witness.address witness.latestBlockNum := by
      intro witness hm
      rw [← hso, sortWitnesses, List.mem_insertionSort, List.mem_map] at hm
      obtain ⟨row, hrow, rfl⟩ := hm
      exact h.rows.of_mem_sortedRows hrow
    obtain ⟨hw, ha⟩ : w₂.witnesses = w.witnesses ∧
        w₂.activeWitnesses = (sorted.take maxActiveWitnesses).map Witness.address := by
      unfold saveActiveWitnesses at hs
      split at hs
      · cases hs
      · cases hs
        split at hp
        · exact payLegacyStandby_frame hp
        · cases hp
          exact ⟨rfl, rfl⟩
    refine ⟨?_, ?_, ?_⟩
    · rw [hw]
      exact h.rows.saveJobs hro
    · rw [ha, List.map_take]
      exact hn.sublist (List.take_sublist _ _)
    · have hl : w₂.activeWitnesses.length ≤ 27 := by
        rw [ha, List.length_map, List.length_take]
        exact Nat.min_le_left _ _
      dsimp only
      omega
  · cases hr
    exact h

theorem Committee.nextCycle (h : Committee P w) {cycle : Int}
    (hr : nextCycle w = .ok (w', cycle)) : Committee P w' := by
  unfold Consensus.nextCycle at hr
  dsimp only at hr
  split at hr
  · simp only [bind_eq_ok_iff, pure_eq_ok_iff, Prod.mk.injEq] at hr
    obtain ⟨next, -, rfl, -⟩ := hr
    exact ⟨h.rows, h.distinct, h.fits⟩
  · cases hr
    exact h

theorem Committee.doMaintenance (h : Committee P w) {active : List Bytes} {consumed : Nat}
    {cycle : Int} (hru : doMaintenance cfg w = .ok (w', active, consumed, cycle)) :
    Committee P w' := by
  simp only [Consensus.doMaintenance, bind_eq_ok_iff, pure_eq_ok_iff, Prod.mk.injEq] at hru
  obtain ⟨w₁, hr, w₂, hc, ⟨w₃, active'⟩, he, ⟨w₄, cycle'⟩, hcy, rfl, -⟩ := hru
  exact (((h.removeThePower hr).countVotes hc).elect he).nextCycle hcy

end Maintenance

/-! ## The hooks of a block -/

/-- The work leaves the witnesses and the properties of solidified heights as they are. -/
structure Aside (g g' : Governance) : Prop where
  witnesses : g'.world.witnesses = g.world.witnesses
  active : g'.world.activeWitnesses = g.world.activeWitnesses
  properties : ∀ name ∈ solidityNames, g'.dynamicRaw name = g.dynamicRaw name

section Hooks

variable {P : Bytes → Int → Prop} {g g' g'' : Governance}

theorem Aside.refl (g : Governance) : Aside g g := ⟨rfl, rfl, fun _ _ => rfl⟩

theorem Aside.trans (h : Aside g g') (h' : Aside g' g'') : Aside g g'' where
  witnesses := h'.witnesses.trans h.witnesses
  active := h'.active.trans h.active
  properties name hn := (h'.properties name hn).trans (h.properties name hn)

theorem SideWork.aside (work : SideWork) (hr : work.run g = .ok g') : Aside g g' :=
  ⟨work.witnesses hr, work.active hr, work.properties hr⟩

theorem Committee.aside (h : Committee P g.world) (ha : Aside g g') : Committee P g'.world :=
  h.congr ha.witnesses ha.active

theorem world_putDynamic (g : Governance) (name : String) (bytes : Bytes) :
    (g.putDynamic name bytes).world.witnesses = g.world.witnesses ∧
      (g.putDynamic name bytes).world.activeWitnesses = g.world.activeWitnesses := by
  unfold Governance.putDynamic
  split <;> exact ⟨rfl, rfl⟩

theorem aside_putDynamic {name : String} (hn : name ∉ solidityNames) (bytes : Bytes) :
    Aside g (g.putDynamic name bytes) := by
  obtain ⟨hw, ha⟩ := world_putDynamic g name bytes
  refine ⟨hw, ha, fun other ho => ?_⟩
  apply dynamicRaw_putDynamic_of_ne
  rintro rfl
  exact hn ho

theorem saveDynamicLong_eq_ok {name : String} {value : Int}
    (hr : g.saveDynamicLong name value = .ok g') :
    name ∈ dynamicKeys ∧ g' = g.putDynamic name (be64 value) := by
  unfold Governance.saveDynamicLong at hr
  split at hr
  · next hk =>
    cases hr
    exact ⟨hk, rfl⟩
  · cases hr

theorem saveDynamicInt_eq_ok {name : String} {value : Int}
    (hr : g.saveDynamicInt name value = .ok g') :
    g' = g.putDynamic name (be32 value) := by
  unfold Governance.saveDynamicInt at hr
  split at hr
  · cases hr
    rfl
  · cases hr

theorem aside_applyParametersFrom {rules : List (Int × ParameterRule)}
    (hru : ∀ name ∈ solidityNames, ¬ Written rules name) {params : FMap Int Int}
    {rows : List (Int × Int)} {writes writes' : List (String × Int)}
    (hr : applyParametersFrom rules params rows g writes = .ok (g', writes')) :
    Aside g g' := by
  induction rows generalizing g writes with
  | nil =>
    cases hr
    exact .refl _
  | cons row rows ih =>
    obtain ⟨id, value⟩ := row
    rw [applyParametersFrom] at hr
    split at hr
    · exact ih hr
    · next rule hrul =>
      split at hr
      · exact ih hr
      · split at hr
        · exact ih hr
        · rw [bind_eq_ok_iff] at hr
          obtain ⟨g₁, hs, hr⟩ := hr
          obtain ⟨-, rfl⟩ := saveDynamicLong_eq_ok hs
          refine (aside_putDynamic (fun hn => ?_) _).trans (ih hr)
          exact hru _ hn ⟨_, mem_of_lookup_eq_some hrul, rfl⟩

theorem aside_decideProposal {rules : List (Int × ParameterRule)}
    (hru : ∀ name ∈ solidityNames, ¬ Written rules name) {active : List Bytes} {id : Int}
    {p : Proposal} {entry : ProposalHistory}
    (hr : decideProposal rules active g id p = .ok (g', entry)) : Aside g g' := by
  simp only [decideProposal, bind_eq_ok_iff] at hr
  obtain ⟨⟨g₁, writes⟩, ha, hr⟩ := hr
  cases hr
  have hp : Aside g g₁ := by
    split at ha
    · exact aside_applyParametersFrom hru ha
    · cases ha
      exact .refl _
  exact ⟨hp.witnesses, hp.active, hp.properties⟩

theorem aside_scanFrom {rules : List (Int × ParameterRule)}
    (hru : ∀ name ∈ solidityNames, ¬ Written rules name) {now : Int} {active : List Bytes}
    {ids : List Int} {scan scan' : ProposalScan}
    (hr : scanFrom rules now active ids g scan = .ok (g', scan')) : Aside g g' := by
  induction ids generalizing g scan with
  | nil =>
    cases hr
    exact .refl _
  | cons id ids ih =>
    rw [scanFrom] at hr
    split at hr
    · exact ih hr
    · split at hr
      · cases hr
        exact .refl _
      · split at hr
        · exact ih hr
        · rw [bind_eq_ok_iff] at hr
          obtain ⟨⟨g₁, entry⟩, hd, hr⟩ := hr
          exact (aside_decideProposal hru hd).trans (ih hr)

/-- No proposal writes a property that solidified heights are derived from. -/
theorem not_written_solidityNames :
    ∀ name ∈ solidityNames, ¬ Written canonicalParameterRules name := by
  unfold Written
  decide

theorem aside_processExpiredProposals {scan : ProposalScan}
    (hr : processExpiredProposals canonicalParameterRules g = .ok (g', scan)) : Aside g g' := by
  simp only [processExpiredProposals, bind_eq_ok_iff] at hr
  obtain ⟨next, -, hr⟩ := hr
  exact aside_scanFrom not_written_solidityNames hr

theorem Committee.applyMaintenanceBlock (h : Committee P g.world) {cfg : MaintenanceConfig}
    {number time : Int} {outcome : MaintenanceOutcome}
    (hr : applyMaintenanceBlock cfg number time g = .ok (g', outcome)) :
    Committee P g'.world ∧ ∀ name ∈ solidityNames, g'.dynamicRaw name = g.dynamicRaw name := by
  simp only [Consensus.applyMaintenanceBlock, bind_eq_ok_iff] at hr
  obtain ⟨previousNext, -, ⟨world, current, consumed, cycle⟩, hw, next, -, g₁, hn, g₂, hf,
    hr⟩ := hr
  cases hr
  have hc : Committee P world := by
    split at hw
    · exact h.doMaintenance hw
    · cases hw
      exact h
  have hs : Aside { g with world } g₁ := by
    split at hn
    · obtain ⟨-, rfl⟩ := saveDynamicLong_eq_ok hn
      exact aside_putDynamic (by decide) _
    · cases hn
      exact .refl _
  have ha : Aside { g with world } g' := by
    rw [saveDynamicInt_eq_ok hf]
    exact hs.trans (aside_putDynamic (by decide) _)
  refine ⟨Committee.aside (g := { g with world }) hc ha, fun name hna => ?_⟩
  rw [ha.properties name hna]
  -- neither of the names is a property that staking and voting read
  have hp : ∀ name ∈ solidityNames, propertyOf name = none := by decide
  exact dynamicRaw_of_properties (hp name hna) rfl

theorem aside_saveFilledSlots {previousSlot currentSlot : Int}
    (hr : ProductionBlockHooks.saveFilledSlots previousSlot currentSlot g = .ok g') :
    Aside g g' := by
  unfold ProductionBlockHooks.saveFilledSlots at hr
  dsimp only at hr
  split at hr
  · cases hr
  · change Except.mapError _ _ = _ at hr
    rw [mapError_eq_ok_iff] at hr
    rw [saveDynamicInt_eq_ok hr]
    exact (aside_putDynamic (by decide) _).trans (aside_putDynamic (by decide) _)

/-- **The statistics of a block and its maintenance**: the producer gets the number of the block,
and every other number stays. -/
theorem Committee.maintenanceAndDpos (h : Committee P g.world) {hooks : ProductionBlockHooks}
    {producer : Bytes} {timestamp : Int}
    (hnu : P producer (saturateI64 (g.longOr "LATEST_BLOCK_HEADER_NUMBER" 0 + 1)))
    (hru : hooks.maintenanceAndDpos producer timestamp g = .ok g') :
    Committee P g'.world ∧ ∀ name ∈ solidityNames, g'.dynamicRaw name = g.dynamicRaw name := by
  simp only [ProductionBlockHooks.maintenanceAndDpos, bind_eq_ok_iff, pure_eq_ok_iff,
    mapError_eq_ok_iff] at hru
  obtain ⟨previousTime, -, g₁, hs, ⟨g₂, outcome⟩, hm, rfl⟩ := hru
  have ha := aside_saveFilledSlots hs
  have hst : Stands P (saveWitnesses ∅ (g.world.witnesses.sortedRows keyLe)) :=
    stands_empty.saveWitnesses fun row hr => h.rows.of_mem_sortedRows hr
  have hpr := hst.accountBlockProduction g.world.activeWitnesses
    (productionSlot hooks.genesisTime previousTime) (productionSlot hooks.genesisTime timestamp) _
    hnu
  have hro := h.rows.saveWitnesses fun row hr => hpr.of_mem_sortedRows hr
  have hc₁ : Committee P g₁.world := by
    refine Committee.aside ?_ ha
    exact h.withWitnesses hro
  obtain ⟨hc, hp⟩ := hc₁.applyMaintenanceBlock hm
  refine ⟨hc, fun name hn => ?_⟩
  exact (hp name hn).trans (ha.properties name hn)

theorem Committee.execute (h : Committee P g.world) (hn : ∀ address, P address 0)
    {tx : BlockTransaction} (hr : tx.execute g = .ok g') :
    Committee P g'.world ∧ ∀ name ∈ solidityNames, g'.dynamicRaw name = g.dynamicRaw name := by
  cases tx with
  | createWitness ownerAddress accounts =>
    rw [BlockTransaction.execute] at hr
    split at hr
    · cases hr
    · have ha := accounts.aside hr
      have hc : Stands P (saveWitness g.world.witnesses { address := ownerAddress }) :=
        h.rows.saveWitness (hn _)
      refine ⟨Committee.aside ?_ ha, ha.properties⟩
      exact h.withWitnesses hc
  | other work =>
    have ha := work.aside hr
    exact ⟨h.aside ha, ha.properties⟩

theorem Committee.transactions (h : Committee P g.world) (hne : ∀ address, P address 0)
    {txs : List BlockTransaction} (hr : txs.foldlM BlockTransaction.execute g = .ok g') :
    Committee P g'.world ∧ ∀ name ∈ solidityNames, g'.dynamicRaw name = g.dynamicRaw name := by
  induction txs generalizing g with
  | nil =>
    cases hr
    exact ⟨h, fun _ _ => rfl⟩
  | cons tx txs ih =>
    rw [List.foldlM_cons, bind_eq_ok_iff] at hr
    obtain ⟨g₁, he, hr⟩ := hr
    obtain ⟨hc, hp⟩ := h.execute hne he
    obtain ⟨hc', hp'⟩ := ih hc hr
    exact ⟨hc', fun name hn => (hp' name hn).trans (hp name hn)⟩

/-! ## The solidified height -/

/-- The number of a witness that has a row. -/
def latestOf (witnesses : FMap Bytes Witness) (address : Bytes) : Int :=
  ((witnesses.lookup address).map Witness.latestBlockNum).getD 0

theorem latestBlockNums_eq_ok {witnesses : FMap Bytes Witness} {active : List Bytes}
    {numbers : List Int} (hr : latestBlockNums witnesses active = .ok numbers) :
    numbers = active.map (latestOf witnesses) ∧
      ∀ address ∈ active, ∃ witness, witnesses.lookup address = some witness := by
  induction active generalizing numbers with
  | nil =>
    cases hr
    exact ⟨rfl, fun address h => absurd h List.not_mem_nil⟩
  | cons address active ih =>
    rw [latestBlockNums] at hr
    split at hr
    · cases hr
    · next witness hro =>
      simp only [bind_eq_ok_iff, pure_eq_ok_iff] at hr
      obtain ⟨rest, hre, rfl⟩ := hr
      obtain ⟨rfl, hrows⟩ := ih hre
      refine ⟨by simp [latestOf, hro], fun other ho => ?_⟩
      rcases List.mem_cons.mp ho with rfl | ho
      · exact ⟨witness, hro⟩
      · exact hrows other ho

theorem dynamicLong_of_raw {name : String} {x : Int} (hk : name ∈ dynamicKeys)
    (hr : g.dynamicRaw name = some (be64 x)) (hx : InI64 x) : g.dynamicLong name = .ok x := by
  rw [Governance.dynamicLong, if_pos hk, hr]
  dsimp only
  rw [fromBe64_be64 hx]

/-- **A solidified height**: the larger of the height before it and the number of an active witness
that at least seven tenths of them have come up to. -/
structure Solidifies (g : Governance) (previous n : Int) : Prop where
  le : previous ≤ n
  latest : previous < n → ∃ address ∈ g.world.activeWitnesses, ∃ witness,
    g.world.witnesses.lookup address = some witness ∧ witness.latestBlockNum = n
  most : previous < n →
    g.world.activeWitnesses.length - 3 * g.world.activeWitnesses.length / 10 ≤
      g.world.activeWitnesses.countP fun address => n ≤ latestOf g.world.witnesses address

theorem Committee.updateSolidity (h : Committee P g.world) {previous : Int}
    {update : SolidityUpdate} (hpr : InI64 previous)
    (hnu : ∀ address n, P address n → InI64 n)
    (hra : g.dynamicRaw "LATEST_SOLIDIFIED_BLOCK_NUM" = some (be64 previous))
    (hru : updateSolidity g = .ok (g', update)) :
    ∃ n, InI64 n ∧ Solidifies g previous n ∧
      g'.dynamicRaw "LATEST_SOLIDIFIED_BLOCK_NUM" = some (be64 n) ∧
      g'.world.witnesses = g.world.witnesses ∧
      g'.world.activeWitnesses = g.world.activeWitnesses ∧
      g'.dynamicRaw "LATEST_BLOCK_HEADER_NUMBER" = g.dynamicRaw "LATEST_BLOCK_HEADER_NUMBER" := by
  unfold Consensus.updateSolidity at hru
  dsimp only at hru
  split at hru
  · cases hru
  next hac =>
  simp only [bind_eq_ok_iff, pure_eq_ok_iff, Prod.mk.injEq] at hru
  obtain ⟨numbers, hl, previous', hlo, g₁, hs, rfl, -⟩ := hru
  cases hlo.symm.trans (dynamicLong_of_raw (by decide) hra hpr)
  obtain ⟨rfl, hrows⟩ := latestBlockNums_eq_ok hl
  have hpo : 0 < g.world.activeWitnesses.length := List.length_pos_iff.mpr hac
  have hsi : g.world.activeWitnesses.length < 2 ^ 50 := by
    have hf := h.fits
    omega
  rw [(List.perm_insertionSort _ _).length_eq, List.length_map] at hs
  have hp := solidityPosition_lt hpo hsi
  have hm := length_sub_le_countP (g.world.activeWitnesses.map (latestOf g.world.witnesses))
    (solidityPosition g.world.activeWitnesses.length) 0 (by rw [List.length_map]; exact hp)
  -- the candidate is an entry of the list
  have hme : ((g.world.activeWitnesses.map (latestOf g.world.witnesses)).insertionSort
      (· ≤ ·)).getD (solidityPosition g.world.activeWitnesses.length) 0 ∈
      g.world.activeWitnesses.map (latestOf g.world.witnesses) := by
    rw [← (List.perm_insertionSort (· ≤ ·) _).mem_iff, List.getD_eq_getElem?_getD,
      List.getElem?_eq_getElem (by
        rw [(List.perm_insertionSort _ _).length_eq, List.length_map]; exact hp),
      Option.getD_some]
    exact List.getElem_mem _
  generalize ((g.world.activeWitnesses.map (latestOf g.world.witnesses)).insertionSort
      (· ≤ ·)).getD (solidityPosition g.world.activeWitnesses.length) 0 = candidate
    at hs hm hme
  obtain ⟨address, ha, hc⟩ := List.mem_map.mp hme
  obtain ⟨witness, hro⟩ := hrows address ha
  have hn : witness.latestBlockNum = candidate := by
    rw [← hc, latestOf, hro]
    rfl
  rw [List.length_map, List.countP_map] at hm
  have hle := solidityPosition_le hsi
  by_cases hr : previous < candidate
  · rw [max_eq_right hr.le, if_pos hr.ne'] at hs
    obtain ⟨-, rfl⟩ := saveDynamicLong_eq_ok hs
    obtain ⟨hw, ha'⟩ :=
      world_putDynamic g "LATEST_SOLIDIFIED_BLOCK_NUM" (be64 candidate)
    refine ⟨candidate, ?_, ⟨hr.le, fun _ => ⟨address, ha, witness, hro, hn⟩,
      fun _ => ?_⟩, dynamicRaw_putDynamic_self, hw, ha',
      dynamicRaw_putDynamic_of_ne (by decide)⟩
    · rw [← hn]
      exact hnu _ _ (h.rows _ _ hro).2
    · exact le_trans (by omega) hm
  · rw [max_eq_left (not_lt.mp hr), if_neg (not_not.mpr rfl)] at hs
    cases hs
    exact ⟨previous, hpr, ⟨le_rfl, fun hlt => absurd hlt (lt_irrefl _),
      fun hlt => absurd hlt (lt_irrefl _)⟩, hra, rfl, rfl, rfl⟩

end Hooks

/-! ## Chains -/

namespace Chain

/-- What the row of a witness says about the chain: zero, or the number of a block it produced. -/
def Latest (c : Chain) (address : Bytes) (n : Int) : Prop :=
  0 ≤ n ∧ n ≤ c.height ∧
    (n = 0 ∨ ∃ a ∈ c.blocks, a.block.witnessAddress = address ∧ a.block.number = n)

/-- **The invariant of a chain**: its state is at its height, and the rows of the witnesses and the
solidified height are about its blocks. -/
structure Backed (c : Chain) : Prop where
  nonneg : 0 ≤ c.height
  inI64 : InI64 c.height
  number : c.state.dynamicRaw "LATEST_BLOCK_HEADER_NUMBER" = some (be64 c.height)
  committee : Committee c.Latest c.state.world
  solidified : ∃ n, 0 ≤ n ∧ n ≤ c.height ∧
    c.state.dynamicRaw "LATEST_SOLIDIFIED_BLOCK_NUM" = some (be64 n)

variable {c c' : Chain}

theorem Backed.inI64_of_le (h : c.Backed) {n : Int} (hp : 0 ≤ n) (hle : n ≤ c.height) :
    InI64 n := by
  have hh := h.inI64
  unfold InI64 i64Min i64Max at hh ⊢
  omega

theorem Backed.solidified_eq (h : c.Backed) {n : Int} (hp : 0 ≤ n) (hle : n ≤ c.height)
    (hr : c.state.dynamicRaw "LATEST_SOLIDIFIED_BLOCK_NUM" = some (be64 n)) :
    c.solidified = .ok n :=
  dynamicLong_of_raw (by decide) hr (h.inI64_of_le hp hle)

/-- The height of the newest block, as far as it is backed by the blocks of the chain. -/
def Raised (c : Chain) : Prop :=
  ∃ m n, c.parent.solidified = .ok m ∧ c.solidified = .ok n ∧ n ≤ c.height ∧ m ≤ n ∧
    (m < n → c.state.world.activeWitnesses.Nodup ∧
      c.state.world.activeWitnesses.length - 3 * c.state.world.activeWitnesses.length / 10 ≤
        c.state.world.activeWitnesses.countP fun witness => c.Produced witness n)

theorem applyBlock_eq_ok {hooks : ProductionBlockHooks}
    {checks : Chain → Except Execution.BlockApplyError Unit} {b : ProducedBlock}
    (hr : c.applyBlock hooks checks b = .ok c') :
    InI64 (c.height + 1) ∧ b.number = c.height + 1 ∧
      ∃ state, b.apply hooks c.state = .ok state ∧
        c' = { c with blocks := ⟨b, state⟩ :: c.blocks } := by
  unfold applyBlock at hr
  split at hr
  · cases hr
  next hh =>
  split at hr
  · cases hr
  next hn =>
  simp only [bind_eq_ok_iff, pure_eq_ok_iff] at hr
  obtain ⟨-, -, state, ha, rfl⟩ := hr
  exact ⟨not_not.mp hh, not_not.mp hn, state, ha, rfl⟩

/-- **One block**: the hooks in their order, with the producer at the new height. -/
theorem Backed.applyBlock (h : c.Backed) {hooks : ProductionBlockHooks}
    {checks : Chain → Except Execution.BlockApplyError Unit} {b : ProducedBlock}
    (hru : c.applyBlock hooks checks b = .ok c') : c'.Backed ∧ c'.Raised := by
  obtain ⟨hii64, hnu, state, hap, rfl⟩ := applyBlock_eq_ok hru
  have hno := h.nonneg
  obtain ⟨previous, hp, hbe, hso⟩ := h.solidified
  generalize hc : ({ c with blocks := ⟨b, state⟩ :: c.blocks } : Chain) = c'
  have hh : c'.height = c.height + 1 := by
    rw [← hc, ← hnu]
    rfl
  have hst : c'.state = state := by
    rw [← hc]
    rfl
  have hpa : c'.parent = c := by
    rw [← hc]
    rfl
  have hnew : ∀ address, c'.Latest address 0 := fun address => ⟨le_rfl, by omega, .inl rfl⟩
  have hpro : c'.Latest b.witnessAddress (c.height + 1) := by
    refine ⟨by omega, by omega, .inr ⟨⟨b, state⟩, ?_, rfl, hnu⟩⟩
    rw [← hc]
    exact List.mem_cons_self
  have ho : ∀ address n, c.Latest address n → c'.Latest address n := by
    rintro address n ⟨hpo, hle, hbl⟩
    refine ⟨hpo, by omega, hbl.imp_right ?_⟩
    rintro ⟨a, ha, hw⟩
    refine ⟨a, ?_, hw⟩
    rw [← hc]
    exact List.mem_cons_of_mem _ ha
  -- the hooks, one after the other
  simp only [ProducedBlock.apply, bind_eq_ok_iff, pure_eq_ok_iff, mapError_eq_ok_iff] at hap
  obtain ⟨g₁, ht, g₂, hre, ⟨g₃, scan⟩, hpr, g₄, hd, g₅, hf,
    ⟨g₆, update⟩, hsol, rfl⟩ := hap
  obtain ⟨hc₁, hk₁⟩ := (h.committee.mono ho).transactions hnew ht
  have ha₃ := (b.payReward.aside hre).trans (aside_processExpiredProposals hpr)
  have hk₃ : ∀ name ∈ solidityNames, g₃.dynamicRaw name = c.state.dynamicRaw name :=
    fun name hna => (ha₃.properties name hna).trans (hk₁ name hna)
  have hsa : saturateI64 (g₃.longOr "LATEST_BLOCK_HEADER_NUMBER" 0 + 1) = c.height + 1 := by
    rw [Governance.longOr, dynamicLong_of_raw (by decide)
      ((hk₃ _ (by decide)).trans h.number) h.inI64]
    exact saturateI64_of_inI64 hii64
  obtain ⟨hc₄, hk₄⟩ :=
    (hc₁.aside ha₃).maintenanceAndDpos (hsa.symm ▸ hpro) hd
  have ha₅ := b.forkStats.aside hf
  have hpe : ∀ name, name ≠ "LATEST_BLOCK_HEADER_NUMBER" →
      name ≠ "LATEST_BLOCK_HEADER_TIMESTAMP" →
      (b.persist g₅).dynamicRaw name = g₅.dynamicRaw name := fun name hne hn' => by
    rw [ProducedBlock.persist, dynamicRaw_putDynamic_of_ne hn', dynamicRaw_putDynamic_of_ne hne]
  have hc₅ : Committee c'.Latest (b.persist g₅).world := by
    unfold ProducedBlock.persist
    refine (hc₄.aside ha₅).congr ?_ ?_
    · rw [(world_putDynamic _ _ _).1, (world_putDynamic _ _ _).1]
    · rw [(world_putDynamic _ _ _).2, (world_putDynamic _ _ _).2]
  have hs₅ : (b.persist g₅).dynamicRaw "LATEST_SOLIDIFIED_BLOCK_NUM" =
      some (be64 previous) := by
    rw [hpe _ (by decide) (by decide), ha₅.properties _ (by decide),
      hk₄ _ (by decide), hk₃ _ (by decide)]
    exact hso
  have hii64' : InI64 c'.height := hh ▸ hii64
  obtain ⟨n, hn, hs, hra, hwi, hac, hhe⟩ :=
    hc₅.updateSolidity (h.inI64_of_le hp hbe)
      (fun address x hx => by
        obtain ⟨hpo, hle, -⟩ := hx
        unfold InI64 i64Min i64Max at hii64' ⊢
        omega) hs₅ hsol
  have hle : n ≤ c'.height := by
    rcases hs.le.eq_or_lt with heq | hlt
    · omega
    · obtain ⟨address, -, witness, hro, rfl⟩ := hs.latest hlt
      exact (hc₅.rows address witness hro).2.2.1
  have hl' := hs.le
  have hb : c'.Backed := by
    refine ⟨by omega, hii64', ?_, ?_, n, by omega, hle, ?_⟩
    · rw [hst, hhe, ProducedBlock.persist, dynamicRaw_putDynamic_of_ne (by decide),
        dynamicRaw_putDynamic_self, hnu, hh]
    · rw [hst]
      exact hc₅.congr hwi hac
    · rw [hst]
      exact hra
  refine ⟨hb, previous, n, ?_, ?_, hle, hl', fun hlt => ⟨hb.committee.distinct, ?_⟩⟩
  · rw [hpa]
    exact h.solidified_eq hp hbe hso
  · exact hb.solidified_eq (by omega) hle (hst ▸ hra)
  · rw [hst, hac]
    refine (hs.most hlt).trans (List.countP_mono_left fun address had hr => ?_)
    rw [decide_eq_true_iff] at hr ⊢
    -- the number is positive, so the row is that of a block of the chain
    cases hro : (b.persist g₅).world.witnesses.lookup address with
    | none =>
      rw [latestOf, hro] at hr
      simp only [Option.map_none, Option.getD_none] at hr
      omega
    | some witness =>
      rw [latestOf, hro] at hr
      simp only [Option.map_some, Option.getD_some] at hr
      obtain ⟨-, -, -, hz | ⟨a, ha, hw, hblo⟩⟩ := hc₅.rows address witness hro
      · omega
      · exact ⟨a, ha, hw, by omega⟩

theorem backed_genesis (config : GenesisConfig) (timestamp : Int) (rest : Governance) :
    (⟨config.rows timestamp rest, []⟩ : Chain).Backed := by
  have hs : ∀ (witnesses : List GenesisWitnessConfig) (stored : FMap Bytes Witness),
      Stands (fun _ n => n = 0) stored → Stands (fun _ n => n = 0) (witnesses.foldl
        (fun stored witness => saveWitness stored
          { address := witness.address, voteCount := witness.voteCount, isJobs := true })
        stored) := by
    intro witnesses
    induction witnesses with
    | nil => exact fun _ h => h
    | cons witness witnesses ih => exact fun stored h => ih _ (h.saveWitness rfl)
  have hc : Committee (fun _ n => n = 0) (config.rows timestamp rest).world := by
    refine Committee.congr (w := { rest.world with
      witnesses := config.witnesses.foldl (fun stored witness => saveWitness stored
        { address := witness.address, voteCount := witness.voteCount, isJobs := true }) ∅
      activeWitnesses := config.witnesses.map GenesisWitnessConfig.address })
      ⟨hs _ _ stands_empty, config.distinct, ?_⟩ ?_ ?_
    · rw [List.length_map]
      exact config.fits
    · simp only [GenesisConfig.rows, (world_putDynamic _ _ _).1]
    · simp only [GenesisConfig.rows, (world_putDynamic _ _ _).2]
  refine ⟨le_rfl, inI64_zero, ?_, ?_, 0, le_rfl, le_rfl, ?_⟩
  · change (config.rows timestamp rest).dynamicRaw _ = some (be64 0)
    rw [GenesisConfig.rows, dynamicRaw_putDynamic_of_ne (by decide),
      dynamicRaw_putDynamic_of_ne (by decide), dynamicRaw_putDynamic_self]
  · refine hc.mono ?_
    rintro address n rfl
    exact ⟨le_rfl, le_rfl, .inl rfl⟩
  · change (config.rows timestamp rest).dynamicRaw _ = some (be64 0)
    rw [GenesisConfig.rows, dynamicRaw_putDynamic_self]

theorem Backed.raised_start {genesis : Governance} (h : (⟨genesis, []⟩ : Chain).Backed) :
    (⟨genesis, []⟩ : Chain).Raised := by
  obtain ⟨n, hp, hle, hr⟩ := h.solidified
  have hn := h.solidified_eq hp hle hr
  exact ⟨n, n, hn, hn, hle, le_rfl, fun hlt => absurd hlt (lt_irrefl n)⟩

/-- The chain up to a block below the head. -/
def cut (c : Chain) (count : Nat) : Chain := { c with blocks := c.blocks.drop count }

/-- **What every chain keeps**, by induction on how it was reached: a new block is backed by the
chain below it, and a rewind leaves a chain that was there before. -/
theorem Reachable.backed {hooks : ProductionBlockHooks} {genesis : Governance}
    (hg : (⟨genesis, []⟩ : Chain).Backed) (h : Reachable hooks genesis c) :
    ∀ count, (c.cut count).Backed ∧ (c.cut count).Raised := by
  induction h with
  | start =>
    intro count
    rw [cut, List.drop_nil]
    exact ⟨hg, hg.raised_start⟩
  | @apply c c' checks b _ hr ih =>
    have hh : c.Backed := (ih 0).1
    have hb := hh.applyBlock hr
    obtain ⟨-, -, state, -, rfl⟩ := applyBlock_eq_ok hr
    intro count
    cases count with
    | zero => exact hb
    | succ count => exact ih count
  | rewind _ ih =>
    intro count
    rw [cut, parent, List.drop_tail]
    exact ih (count + 1)

/-- **Solidified heights are backed**: in every committed state the solidified height is at most
the height of the head and at least that of the parent, and a block that raises it to `n` leaves
an active list of distinct witnesses of which at least `len - 3 len / 10` have produced a block at
`n` or above on this chain. -/
theorem Reachable.solidified_backed {hooks : ProductionBlockHooks} {config : GenesisConfig}
    {timestamp : Int} {rest : Governance}
    (h : Reachable hooks (config.rows timestamp rest) c) :
    ∃ m n, c.parent.solidified = .ok m ∧ c.solidified = .ok n ∧ n ≤ c.height ∧ m ≤ n ∧
      (m < n → c.state.world.activeWitnesses.Nodup ∧
        c.state.world.activeWitnesses.length - 3 * c.state.world.activeWitnesses.length / 10 ≤
          c.state.world.activeWitnesses.countP fun witness => c.Produced witness n) :=
  (h.backed (backed_genesis config timestamp rest) 0).2

namespace Sample

/-- Work that does nothing. -/
def idle : SideWork where
  run := .ok
  witnesses h := by
    cases h
    rfl
  active h := by
    cases h
    rfl
  properties h name _ := by
    cases h
    rfl

/-- A witness of genesis. -/
def witness (i : UInt8) : Bytes := 0x41 :: List.replicate 20 i

/-- Three witnesses. -/
def config : GenesisConfig where
  witnesses := [⟨witness 1, 3⟩, ⟨witness 2, 2⟩, ⟨witness 3, 1⟩]
  distinct := by decide
  fits := by decide

/-- The maintenance times. -/
def properties : Governance :=
  (Governance.putDynamic {} "NEXT_MAINTENANCE_TIME" (be64 6000)).putDynamic
    "MAINTENANCE_TIME_INTERVAL" (be64 21600000)

/-- Genesis. -/
def start : Chain := ⟨config.rows 0 properties, []⟩

/-- The hooks, with genesis at time zero. -/
def hooks : ProductionBlockHooks := ⟨⟨[], true, fun _ _ _ => 0⟩, 0⟩

/-- The chain with a block, where it can be applied. -/
def after (c : Chain) (number : Int) (producer : Bytes) : Chain :=
  match c.applyBlock hooks (fun _ => .ok ()) ⟨number, 3000 * number, producer, [], idle, idle⟩ with
  | .ok c' => c'
  | .error _ => c

theorem reachable_after {number : Int} {producer : Bytes}
    (h : Reachable hooks (config.rows 0 properties) c) :
    Reachable hooks (config.rows 0 properties) (after c number producer) := by
  unfold after
  split
  · next c' hr => exact .apply h hr
  · exact h

/-- Three blocks, each of another witness, after a first block that was taken back. -/
def chain : Chain :=
  after (after (after (after start 1 (witness 3)).parent 1 (witness 1)) 2 (witness 2)) 3 (witness 3)

end Sample

theorem Reachable.solidified_backed_sample : ∃ n, 0 < n ∧ Sample.chain.solidified = .ok n ∧
    3 ≤ Sample.chain.state.world.activeWitnesses.countP
      fun witness => Sample.chain.Produced witness n := by
  have hreachable : Reachable Sample.hooks (Sample.config.rows 0 Sample.properties) Sample.chain :=
    Sample.reachable_after (Sample.reachable_after (Sample.reachable_after
      (.rewind (Sample.reachable_after .start))))
  obtain ⟨m, n, hm, hn, -, -, hraised⟩ := hreachable.solidified_backed
  have hparent : Sample.chain.parent.solidified = .ok 0 := by decide +kernel
  have hhead : Sample.chain.solidified = .ok 1 := by decide +kernel
  have hsize : Sample.chain.state.world.activeWitnesses.length = 3 := by decide +kernel
  cases hm.symm.trans hparent
  cases hn.symm.trans hhead
  obtain ⟨-, hmost⟩ := hraised (by decide)
  rw [hsize] at hmost
  exact ⟨1, by decide, hhead, hmost⟩

end Chain

end RustTron.Consensus
