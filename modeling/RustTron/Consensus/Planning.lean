import RustTron.Consensus.Schedule

/-!
# Planning a block

A producer reads its clock a little ahead, asks which slot that is, whose slot it is and when the
slot begins. A verifier goes the other way, from the time of a block to its slot. The slots after a
head lie on the grid of the genesis time, three seconds apart, past those that a maintenance block
skips.

## Main definitions

* `ProductionPlan`, `ProductionGuard.plan`: the plan of a block
* `SlotContext.Ordered`: a head that is not before the genesis time

## Main results

* `SlotContext.Ordered.time_eq_ok_iff`: when a slot begins, and where nothing overflows
* `SlotContext.Ordered.slot_time`, `SlotContext.Ordered.time_slot`: from slots to times and back
* `slot_laws`: the laws of slots and times, and the plans that they bear out
-/

namespace RustTron.Consensus

/-! ## Plans -/

inductive ProductionState where
  | ok
  | notSynced
  | duplicateWitness
  | clockError
  | notMyTurn
  | notTimeYet
  | permissionError
  | lowParticipation
  | produceBlockFailed
  | backupIsNotMaster
  | equivocation
  deriving DecidableEq, Repr

structure ProductionPlan where
  slot : Int
  timestamp : Int
  timeout : Int
  witness : Bytes
  deriving DecidableEq, Repr

def mapSchedule : ScheduleError → ProductionState
  | .noActiveWitnesses | .negativeCurrentSlot | .overflow => .produceBlockFailed

/-- The time that a plan is made for: fifty milliseconds ahead of the clock. -/
def planTime (now : Int) : Int := saturateI64 (now + 50)

/-- The end of the time that a block may take. -/
def planTimeout (timestamp timeoutPercent : Int) : Option Int :=
  checkedAdd timestamp ((saturateI64 (blockIntervalMs.tdiv 2 * timeoutPercent)).tdiv 100)

/-- `ProductionGuard::plan`: the clock of the guard reads `now`, that of the slots `clock`. -/
def ProductionGuard.plan (now clock : Int) (slots : SlotContext) (active localWitnesses : List Bytes)
    (timeoutPercent : Int) : Except ProductionState ProductionPlan := do
  let slot ← (slots.slot clock (planTime now)).mapError mapSchedule
  if slot = 0 then throw .notTimeYet
  let witness ← (slots.scheduledWitness slot active).mapError mapSchedule
  if witness ∉ localWitnesses then throw .notMyTurn
  let timestamp ← (slots.time clock slot).mapError mapSchedule
  match planTimeout timestamp timeoutPercent with
  | none => throw .produceBlockFailed
  | some timeout => pure ⟨slot, timestamp, timeout, witness⟩

namespace SlotContext

/-! ## Slots and times -/

/-- A context whose head is not before the genesis time, nor further from it than an `i64` holds. -/
structure Ordered (c : SlotContext) : Prop where
  genesis_le : c.genesisTime ≤ c.headTime
  genesis_head : c.headNumber = 0 → c.headTime = c.genesisTime
  skip_nonneg : 0 ≤ c.maintenanceSkipSlots
  genesis_fits : InI64 c.genesisTime
  head_fits : InI64 c.headTime
  delta_fits : InI64 (c.headTime - c.genesisTime)

/-- The time of the head on the grid of the genesis time. -/
def aligned (c : SlotContext) : Int :=
  c.headTime - (c.headTime - c.genesisTime) % blockIntervalMs

/-- The numbers that the time of a slot is computed from all fit. -/
def Fits (c : SlotContext) (slot : Int) : Prop :=
  InI64 (slot + c.skipped) ∧ InI64 ((slot + c.skipped) * blockIntervalMs) ∧
    InI64 (c.aligned + (slot + c.skipped) * blockIntervalMs)

variable {c : SlotContext} {now s t u : Int}

theorem Ordered.skipped_nonneg (h : c.Ordered) : 0 ≤ c.skipped := by
  unfold skipped
  split
  · exact h.skip_nonneg
  · exact Int.le_refl 0

theorem Ordered.aligned_bounds (h : c.Ordered) :
    c.genesisTime ≤ c.aligned ∧ c.aligned ≤ c.headTime ∧
      c.headTime < c.aligned + blockIntervalMs := by
  have hle := h.genesis_le
  unfold aligned blockIntervalMs
  omega

/-- A slot begins on the grid, past the slots that are skipped, where nothing overflows. -/
theorem Ordered.time_eq_ok_iff (h : c.Ordered) (hs : InI64 s) (hne : s ≠ 0) :
    c.time now s = .ok u ↔ c.Fits s ∧ u = c.aligned + (s + c.skipped) * blockIntervalMs := by
  have hbo := h.aligned_bounds
  have hg := h.genesis_fits
  have hh := h.head_fits
  have hr : (c.headTime - c.genesisTime).tmod blockIntervalMs =
      (c.headTime - c.genesisTime) % blockIntervalMs :=
    Int.tmod_eq_emod_of_nonneg (Int.sub_nonneg.mpr h.genesis_le)
  have hal : wrapI64 (c.headTime - (c.headTime - c.genesisTime) % blockIntervalMs) =
      c.aligned := by
    refine wrapI64_of_inI64 ?_
    change InI64 c.aligned
    unfold InI64 at *
    omega
  unfold time Fits
  rw [if_neg hne]
  simp only [wrapI64_of_inI64 h.delta_fits, hr, hal]
  by_cases hz : c.headNumber = 0
  · have hsk : c.skipped = 0 := if_neg fun hk => hk.2 hz
    have hb : c.aligned = c.genesisTime := by
      rw [aligned, h.genesis_head hz, Int.sub_self, Int.zero_emod, Int.sub_zero]
    rw [if_pos hz, hsk, hb, Int.add_zero]
    simp only [bind_eq_ok_iff, orOverflow_eq_ok, checkedAdd, checkedMul, toI64_eq_some_iff]
    constructor
    · rintro ⟨_, ⟨hm, rfl⟩, ha, rfl⟩
      exact ⟨⟨hs, hm, ha⟩, rfl⟩
    · rintro ⟨⟨-, hm, ha⟩, rfl⟩
      exact ⟨_, ⟨hm, rfl⟩, ha, rfl⟩
  rw [if_neg hz]
  cases hma : c.headIsMaintenance with
  | true =>
    have hsk : c.skipped = c.maintenanceSkipSlots := if_pos ⟨hma, hz⟩
    rw [hsk]
    simp only [if_true, bind_eq_ok_iff, orOverflow_eq_ok, checkedAdd, checkedMul,
      toI64_eq_some_iff]
    constructor
    · rintro ⟨_, ⟨hsu, rfl⟩, _, ⟨hm, rfl⟩, ha, rfl⟩
      exact ⟨⟨hsu, hm, ha⟩, rfl⟩
    · rintro ⟨⟨hsu, hm, ha⟩, rfl⟩
      exact ⟨_, ⟨hsu, rfl⟩, _, ⟨hm, rfl⟩, ha, rfl⟩
  | false =>
    have hsk : c.skipped = 0 := if_neg fun hk => by simp [hma] at hk
    rw [hsk, Int.add_zero]
    simp only [Bool.false_eq_true, if_false, bind_eq_ok_iff, pure_eq_ok_iff, orOverflow_eq_ok,
      checkedAdd, checkedMul, toI64_eq_some_iff]
    constructor
    · rintro ⟨_, rfl, _, ⟨hm, rfl⟩, ha, rfl⟩
      exact ⟨⟨hs, hm, ha⟩, rfl⟩
    · rintro ⟨⟨-, hm, ha⟩, rfl⟩
      exact ⟨_, rfl, _, ⟨hm, rfl⟩, ha, rfl⟩

/-- Where the time of a slot is computed, that of an earlier slot after the head is too. -/
theorem Ordered.fits_of_le (h : c.Ordered) {r : Int} (hr : 1 ≤ r) (hle : r ≤ s) (hs : c.Fits s) :
    c.Fits r := by
  have hb := h.aligned_bounds
  have hsk := h.skipped_nonneg
  have hg := h.genesis_fits
  obtain ⟨hsu, hm, ha⟩ := hs
  unfold Fits InI64 blockIntervalMs i64Min i64Max at *
  omega

/-- The beginning of the first slot after the head. -/
def first (c : SlotContext) : Int := c.aligned + (1 + c.skipped) * blockIntervalMs

theorem Ordered.genesis_lt_first (h : c.Ordered) : c.genesisTime + blockIntervalMs ≤ c.first := by
  have hb := h.aligned_bounds
  have hs := h.skipped_nonneg
  unfold first blockIntervalMs at *
  omega

/-- The slot of a time is counted from the first slot after the head, where its time fits. -/
theorem Ordered.slot_eq_ok_iff (h : c.Ordered) :
    c.slot now t = .ok s ↔ c.Fits 1 ∧
      s = if t < c.first then 0 else (wrapI64 (t - c.first)).tdiv blockIntervalMs + 1 := by
  have ht : ∀ u, c.time now 1 = .ok u ↔ c.Fits 1 ∧ u = c.first := fun u =>
    h.time_eq_ok_iff (by decide) (by decide)
  unfold slot
  simp only [bind_eq_ok_iff, pure_eq_ok_iff, ht]
  constructor
  · rintro ⟨_, ⟨ho, rfl⟩, rfl⟩
    exact ⟨ho, rfl⟩
  · rintro ⟨ho, rfl⟩
    exact ⟨_, ⟨ho, rfl⟩, rfl⟩

/-- **From a slot to its time and back.** The time of a slot after the head is of that slot. -/
theorem Ordered.slot_time (h : c.Ordered) (hpo : 1 ≤ s) (hf : c.Fits s) :
    c.slot now (c.aligned + (s + c.skipped) * blockIntervalMs) = .ok s := by
  refine h.slot_eq_ok_iff.mpr ⟨h.fits_of_le (le_refl 1) hpo hf, ?_⟩
  have hs := h.skipped_nonneg
  have hp : c.aligned + (s + c.skipped) * blockIntervalMs - c.first = (s - 1) * blockIntervalMs := by
    unfold first
    ring
  have hw : wrapI64 ((s - 1) * blockIntervalMs) = (s - 1) * blockIntervalMs := by
    refine wrapI64_of_inI64 ?_
    have hm := hf.2.1
    unfold InI64 blockIntervalMs i64Min at *
    omega
  have hl : ¬ c.aligned + (s + c.skipped) * blockIntervalMs < c.first := by
    have hn : 0 ≤ (s - 1) * blockIntervalMs := by
      unfold blockIntervalMs
      omega
    omega
  rw [if_neg hl, hp, hw, Int.mul_tdiv_cancel _ (by decide)]
  omega

/-- A time of a slot after the head is past the beginning of the first slot, and the difference
is computed without wrapping around: one that wraps around is of no slot after the head. -/
theorem Ordered.slot_pos (h : c.Ordered) (ht : InI64 t) (hs : c.slot now t = .ok s)
    (hp : 1 ≤ s) : c.first ≤ t ∧ s = (t - c.first) / blockIntervalMs + 1 := by
  obtain ⟨-, rfl⟩ := h.slot_eq_ok_iff.mp hs
  have hg := h.genesis_fits
  have hfi := h.genesis_lt_first
  by_cases he : t < c.first
  · rw [if_pos he] at hp
    omega
  rw [if_neg he] at hp ⊢
  by_cases hf : InI64 (t - c.first)
  · rw [wrapI64_of_inI64 hf, Int.tdiv_eq_ediv_of_nonneg (by omega)]
    exact ⟨by omega, rfl⟩
  · exfalso
    unfold InI64 i64Min i64Max blockIntervalMs at *
    have hw : wrapI64 (t - c.first) = -(2 ^ 64 - (t - c.first)) := by
      unfold wrapI64
      omega
    have hd : (2 ^ 64 - (t - c.first)).tdiv 3000 = (2 ^ 64 - (t - c.first)) / 3000 :=
      Int.tdiv_eq_ediv_of_nonneg (by omega)
    rw [hw, Int.neg_tdiv, hd] at hp
    omega

/-- **From a time to its slot and back.** A time of a slot after the head is in the three seconds
from the beginning of that slot. -/
theorem Ordered.time_slot (h : c.Ordered) (ht : InI64 t) (hsl : c.slot now t = .ok s)
    (hp : 1 ≤ s) (hti : c.time now s = .ok u) : u ≤ t ∧ t < u + blockIntervalMs := by
  obtain ⟨hle, hs⟩ := h.slot_pos ht hsl hp
  have hf : InI64 s := by
    have hg := h.genesis_fits
    have hfi := h.genesis_lt_first
    unfold InI64 i64Min i64Max blockIntervalMs at *
    omega
  obtain ⟨-, rfl⟩ := (h.time_eq_ok_iff hf (by omega)).mp hti
  have hb : c.aligned + (s + c.skipped) * blockIntervalMs = c.first + (s - 1) * blockIntervalMs := by
    unfold first
    ring
  rw [hb]
  unfold blockIntervalMs at *
  omega

theorem Ordered.time_succ (h : c.Ordered) (hp : 1 ≤ s) (hs : InI64 s)
    (ht : c.time now s = .ok u) :
    c.headTime < u ∧ ∀ v, InI64 (s + 1) → c.time now (s + 1) = .ok v → v = u + blockIntervalMs := by
  obtain ⟨-, rfl⟩ := (h.time_eq_ok_iff hs (by omega)).mp ht
  have hb := h.aligned_bounds
  have hsk := h.skipped_nonneg
  refine ⟨?_, fun v hv hsu => ?_⟩
  · unfold blockIntervalMs at *
    omega
  · obtain ⟨-, rfl⟩ := (h.time_eq_ok_iff hv (by omega)).mp hsu
    ring

end SlotContext

/-! ## Plans and their verification -/

namespace ProductionGuard

variable {now clock timeoutPercent : Int} {slots : SlotContext} {active localWitnesses : List Bytes}
  {made : ProductionPlan}

theorem plan_eq_ok
    (h : plan now clock slots active localWitnesses timeoutPercent = .ok made) :
    slots.slot clock (planTime now) = .ok made.slot ∧ made.slot ≠ 0 ∧
      slots.scheduledWitness made.slot active = .ok made.witness ∧
      slots.time clock made.slot = .ok made.timestamp := by
  unfold plan at h
  simp only [bind_eq_ok_iff, mapError_eq_ok_iff] at h
  obtain ⟨slot, hs, h⟩ := h
  by_cases hz : slot = 0
  · rw [if_pos hz] at h
    cases h
  rw [if_neg hz] at h
  simp only [bind_eq_ok_iff, mapError_eq_ok_iff] at h
  obtain ⟨witness, hw, h⟩ := h
  by_cases hl : witness ∉ localWitnesses
  · rw [if_pos hl] at h
    cases h
  rw [if_neg hl] at h
  simp only [bind_eq_ok_iff, mapError_eq_ok_iff] at h
  obtain ⟨timestamp, hti, h⟩ := h
  cases ht : planTimeout timestamp timeoutPercent with
  | none =>
    rw [ht] at h
    cases h
  | some timeout =>
    rw [ht] at h
    cases h
    exact ⟨hs, hz, hw, hti⟩

/-- **A planned block passes the check of its verifier**, which computes the slot and the witness
from the time of the block, by any clock of its own. -/
theorem verified_of_plan (hc : slots.Ordered) (hf : InI64 (planTime now - slots.first))
    (h : plan now clock slots active localWitnesses timeoutPercent = .ok made) (verifier : Int) :
    slots.slot verifier made.timestamp = .ok made.slot ∧
      slots.scheduledWitness made.slot active = .ok made.witness := by
  obtain ⟨hsl, hne, hw, ht⟩ := plan_eq_ok h
  refine ⟨?_, hw⟩
  obtain ⟨-, hs⟩ := hc.slot_eq_ok_iff.mp hsl
  have hp : 1 ≤ made.slot ∧ InI64 made.slot := by
    rw [wrapI64_of_inI64 hf] at hs
    by_cases he : planTime now < slots.first
    · rw [if_pos he] at hs
      exact absurd hs hne
    · rw [if_neg he, Int.tdiv_eq_ediv_of_nonneg (by omega)] at hs
      unfold InI64 i64Min i64Max blockIntervalMs at *
      omega
  obtain ⟨hst, hb⟩ := (hc.time_eq_ok_iff hp.2 hne).mp ht
  rw [hb]
  exact hc.slot_time hp.1 hst

end ProductionGuard

/-- **The laws of slots and times.** For a head that is not before the genesis time, and wherever
nothing overflows: slots are three seconds apart and after the head, the time of a slot is of that
slot, a time is within its slot, and a planned block has the slot and the witness of its time. -/
theorem slot_laws {c : SlotContext} (hc : c.Ordered) (now : Int) :
    (∀ s u, InI64 s → 1 ≤ s → c.time now s = .ok u →
      (∀ v, InI64 (s + 1) → c.time now (s + 1) = .ok v → v = u + blockIntervalMs) ∧
        c.headTime < u ∧ c.slot now u = .ok s) ∧
    (∀ t s u, InI64 t → c.slot now t = .ok s → 1 ≤ s → c.time now s = .ok u →
      u ≤ t ∧ t < u + blockIntervalMs) ∧
    (∀ clock timeoutPercent active localWitnesses made,
      InI64 (planTime now - c.first) →
      ProductionGuard.plan now clock c active localWitnesses timeoutPercent = .ok made →
      ∀ verifier, c.slot verifier made.timestamp = .ok made.slot ∧
        c.scheduledWitness made.slot active = .ok made.witness) := by
  refine ⟨fun s u hs hpos htime => ?_, fun t s u ht hslot hpos htime => ?_, ?_⟩
  · obtain ⟨hafter, hsucc⟩ := hc.time_succ hpos hs htime
    obtain ⟨hstarts, rfl⟩ := (hc.time_eq_ok_iff hs (by omega)).mp htime
    exact ⟨hsucc, hafter, hc.slot_time hpos hstarts⟩
  · exact hc.time_slot ht hslot hpos htime
  · intro clock timeoutPercent active localWitnesses made hfits hplan verifier
    exact ProductionGuard.verified_of_plan hc hfits hplan verifier

/-- A head in the middle of a slot, after a maintenance block. -/
def maintainedHead : SlotContext := ⟨0, 5, 16500, true, 2⟩

theorem maintainedHead_laws :
    (SlotContext.time 0 maintainedHead 1 = .ok 24000 ∧
      SlotContext.slot 0 maintainedHead 24000 = .ok 1) ∧
      ∃ made, ProductionGuard.plan 27100 0 maintainedHead [[1], [2]] [[2]] 50 = .ok made ∧
        SlotContext.slot 9 maintainedHead made.timestamp = .ok made.slot ∧
        maintainedHead.scheduledWitness made.slot [[1], [2]] = .ok made.witness := by
  have hc : maintainedHead.Ordered := ⟨by decide, by decide, by decide, by decide, by decide, by decide⟩
  have htime : SlotContext.time 0 maintainedHead 1 = .ok 24000 := rfl
  have hplan : ProductionGuard.plan 27100 0 maintainedHead [[1], [2]] [[2]] 50 =
      .ok ⟨2, 27000, 27750, [2]⟩ := rfl
  have hlaws := slot_laws hc 27100
  exact ⟨⟨htime, ((slot_laws hc 0).1 1 24000 (by decide) (by decide) htime).2.2⟩, _, hplan,
    hlaws.2.2 _ _ _ _ _ (by decide) hplan 9⟩

end RustTron.Consensus
