import RustTron.Library.Results
import RustTron.Primitives.Bytes
import RustTron.Primitives.I64
import Mathlib

/-!
# The witness schedule

Time is cut into slots of three seconds from the genesis time on. The slot of a time is counted
from the head block: the first slot after it is slot one, two slots are skipped after a maintenance
block, and a time before the first slot is of slot zero. The witness of a slot is the entry of the
active list at the absolute slot of the head plus the slot.

## Main definitions

* `SlotContext.absoluteSlot`, `slot`, `time`, `scheduledWitness`: `DposSlot`
* `SlotContext.boundary`: the end of the slot of the head block

## Main results

* `SlotContext.slot_eq_zero_iff`: which times are of slot zero
* `SlotContext.absoluteSlot_lt_iff`: which blocks are in a later absolute slot than the head
* `SlotContext.absoluteSlot_add_slot`: the slot of the witness is the absolute slot of the block
-/

namespace RustTron.Consensus

def blockIntervalMs : Int := 3000

def singleRepeat : Int := 1

structure SlotContext where
  genesisTime : Int
  headNumber : Int
  headTime : Int
  headIsMaintenance : Bool
  maintenanceSkipSlots : Int

inductive ScheduleError where
  | overflow
  | negativeCurrentSlot
  | noActiveWitnesses
  deriving DecidableEq, Repr

/-- `Display` of `ScheduleError`. -/
def ScheduleError.toText : ScheduleError → String
  | overflow => "schedule error: Overflow"
  | negativeCurrentSlot => "schedule error: NegativeCurrentSlot"
  | noActiveWitnesses => "schedule error: NoActiveWitnesses"

/-- `ok_or(ScheduleError::Overflow)`. -/
def orOverflow {α : Type} : Option α → Except ScheduleError α
  | some a => .ok a
  | none => .error .overflow

namespace SlotContext

def absoluteSlot (c : SlotContext) (time : Int) : Int :=
  (wrapI64 (time - c.genesisTime)).tdiv blockIntervalMs

/-- `DposSlot::time`, with a clock that reads `now`. -/
def time (now : Int) (c : SlotContext) (slot : Int) : Except ScheduleError Int := do
  if slot = 0 then return now
  if c.headNumber = 0 then
    let offset ← orOverflow (checkedMul slot blockIntervalMs)
    return ← orOverflow (checkedAdd c.genesisTime offset)
  let slot ←
    if c.headIsMaintenance then orOverflow (checkedAdd slot c.maintenanceSkipSlots) else pure slot
  let delta := wrapI64 (c.headTime - c.genesisTime)
  let aligned := wrapI64 (c.headTime - delta.tmod blockIntervalMs)
  let offset ← orOverflow (checkedMul slot blockIntervalMs)
  orOverflow (checkedAdd aligned offset)

def slot (now : Int) (c : SlotContext) (time : Int) : Except ScheduleError Int := do
  let first ← c.time now 1
  pure (if time < first then 0 else (wrapI64 (time - first)).tdiv blockIntervalMs + 1)

def scheduledWitness (c : SlotContext) (slot : Int) (active : List Bytes) :
    Except ScheduleError Bytes := do
  if active = [] then throw .noActiveWitnesses
  let current ← orOverflow (checkedAdd (c.absoluteSlot c.headTime) slot)
  if current < 0 then throw .negativeCurrentSlot
  let repeatSpan ← orOverflow (checkedMul active.length singleRepeat)
  let index := (current.tmod repeatSpan).tdiv singleRepeat
  -- the source indexes with the nonnegative remainder
  pure (active.getD index.toNat [])

/-! ## The slots of blocks after the head -/

/-- The times of a context that a block manager asks about: they start at the genesis time. -/
structure Valid (c : SlotContext) : Prop where
  genesis_nonneg : 0 ≤ c.genesisTime
  genesis_le : c.genesisTime ≤ c.headTime
  head_le : c.headTime ≤ i64Max
  genesis_head : c.headNumber = 0 → c.headTime = c.genesisTime
  skip_nonneg : 0 ≤ c.maintenanceSkipSlots

/-- The end of the slot of the head block. -/
def boundary (c : SlotContext) : Int :=
  c.headTime - (c.headTime - c.genesisTime) % blockIntervalMs + blockIntervalMs

/-- The slots skipped after the head block. -/
def skipped (c : SlotContext) : Int :=
  if c.headIsMaintenance ∧ c.headNumber ≠ 0 then c.maintenanceSkipSlots else 0

variable {c : SlotContext} {now t s : Int}

theorem orOverflow_eq_ok {o : Option Int} {x : Int} : orOverflow o = .ok x ↔ o = some x := by
  cases o <;> simp [orOverflow]

theorem Valid.absoluteSlot_eq (h : c.Valid) (hg : c.genesisTime ≤ t) (ht : t ≤ i64Max) :
    c.absoluteSlot t = (t - c.genesisTime) / blockIntervalMs := by
  have hf : InI64 (t - c.genesisTime) := by
    have := h.genesis_nonneg
    unfold InI64 i64Min
    omega
  rw [absoluteSlot, wrapI64_of_inI64 hf, Int.tdiv_eq_ediv_of_nonneg (by omega)]

/-- The first slot after the head starts at the boundary, past the slots that are skipped. -/
theorem Valid.time_one (h : c.Valid) {first : Int} (hf : c.time now 1 = .ok first) :
    first = c.boundary + c.skipped * blockIntervalMs ∧ first ≤ i64Max := by
  obtain ⟨hg, hle, hma, hge, hs⟩ := h
  have hd : wrapI64 (c.headTime - c.genesisTime) = c.headTime - c.genesisTime :=
    wrapI64_of_inI64 (by unfold InI64 i64Min; omega)
  have hr : (c.headTime - c.genesisTime).tmod blockIntervalMs =
      (c.headTime - c.genesisTime) % blockIntervalMs :=
    Int.tmod_eq_emod_of_nonneg (by omega)
  have ha : wrapI64 (c.headTime - (c.headTime - c.genesisTime) % blockIntervalMs) =
      c.headTime - (c.headTime - c.genesisTime) % blockIntervalMs := by
    refine wrapI64_of_inI64 ?_
    unfold InI64 i64Min
    unfold blockIntervalMs
    omega
  unfold time at hf
  rw [if_neg (by decide)] at hf
  simp only [hd, hr, ha] at hf
  unfold boundary skipped
  by_cases hz : c.headNumber = 0
  · simp only [hz, if_true, bind_eq_ok_iff, orOverflow_eq_ok, checkedAdd, checkedMul,
      toI64_eq_some_iff] at hf
    obtain ⟨_, ⟨-, rfl⟩, hfi, rfl⟩ := hf
    have hh := hge hz
    rw [if_neg fun h => h.2 hz, hh, Int.sub_self]
    exact ⟨by simp, hfi.2⟩
  · rw [if_neg hz] at hf
    cases hm : c.headIsMaintenance with
    | true =>
      simp only [hm, if_true, bind_eq_ok_iff, orOverflow_eq_ok, checkedAdd, checkedMul,
        toI64_eq_some_iff] at hf
      obtain ⟨_, ⟨-, rfl⟩, _, ⟨-, rfl⟩, hfi, rfl⟩ := hf
      rw [if_pos ⟨rfl, hz⟩]
      exact ⟨by ring, hfi.2⟩
    | false =>
      simp only [hm, Bool.false_eq_true, if_false, bind_eq_ok_iff, pure_eq_ok_iff,
        orOverflow_eq_ok, checkedAdd, checkedMul, toI64_eq_some_iff] at hf
      obtain ⟨_, rfl, _, ⟨-, rfl⟩, hfi, rfl⟩ := hf
      rw [if_neg fun h => Bool.false_ne_true h.1]
      exact ⟨by ring, hfi.2⟩

theorem Valid.skipped_nonneg (h : c.Valid) : 0 ≤ c.skipped := by
  unfold skipped
  split
  · exact h.skip_nonneg
  · exact Int.le_refl 0

theorem Valid.le_boundary (h : c.Valid) : c.genesisTime < c.boundary := by
  have := h.genesis_le
  unfold boundary blockIntervalMs
  omega

/-- The times of slot zero are those before the first slot. -/
theorem Valid.slot_eq (h : c.Valid) (ht : t ≤ i64Max) (hs : c.slot now t = .ok s) :
    s = if t < c.boundary + c.skipped * blockIntervalMs then 0
      else (t - c.boundary) / blockIntervalMs + 1 - c.skipped := by
  simp only [slot, bind_eq_ok_iff, pure_eq_ok_iff] at hs
  obtain ⟨first, hf, rfl⟩ := hs
  obtain ⟨rfl, hm⟩ := h.time_one hf
  split
  · rfl
  next hle =>
  have hfi : InI64 (t - (c.boundary + c.skipped * blockIntervalMs)) := by
    have := h.le_boundary
    have := h.genesis_nonneg
    have := h.skipped_nonneg
    unfold InI64 i64Min
    unfold blockIntervalMs at *
    omega
  rw [wrapI64_of_inI64 hfi, Int.tdiv_eq_ediv_of_nonneg (by omega)]
  unfold blockIntervalMs
  omega

theorem Valid.slot_eq_zero_iff (h : c.Valid) (ht : t ≤ i64Max) (hs : c.slot now t = .ok s) :
    s = 0 ↔ t < c.boundary + c.skipped * blockIntervalMs := by
  rw [h.slot_eq ht hs]
  split
  · next hlt => exact ⟨fun _ => hlt, fun _ => rfl⟩
  next hle =>
  refine ⟨fun hz => ?_, fun hlt => absurd hlt hle⟩
  unfold blockIntervalMs at *
  omega

/-- **A later absolute slot.** A block is in a later absolute slot than the head unless its time is
before the boundary, and then it is of slot zero. -/
theorem Valid.absoluteSlot_lt_iff (h : c.Valid) (hlt : c.headTime < t) (ht : t ≤ i64Max)
    (hs : c.slot now t = .ok s) :
    c.absoluteSlot c.headTime < c.absoluteSlot t ↔ ¬ (s = 0 ∧ t < c.boundary) := by
  have hle := h.genesis_le
  rw [h.absoluteSlot_eq hle h.head_le, h.absoluteSlot_eq (by omega) ht, h.slot_eq_zero_iff ht hs]
  have := h.skipped_nonneg
  unfold boundary blockIntervalMs
  omega

/-- **The slot of the witness.** Where no slot is skipped, the slot of a block counted from that of
the head is the absolute slot of the block. -/
theorem Valid.absoluteSlot_add_slot (h : c.Valid) (hlt : c.headTime < t) (ht : t ≤ i64Max)
    (hsl : c.slot now t = .ok s) (hs : c.skipped = 0) :
    c.absoluteSlot c.headTime + s = c.absoluteSlot t := by
  have hle := h.genesis_le
  rw [h.absoluteSlot_eq hle h.head_le, h.absoluteSlot_eq (by omega) ht, h.slot_eq ht hsl, hs]
  split
  · next he =>
    unfold boundary blockIntervalMs at he
    unfold blockIntervalMs
    omega
  · next hl =>
    unfold boundary blockIntervalMs at *
    omega

theorem skipped_of_not_maintenance (hm : c.headIsMaintenance = false) :
    c.skipped = 0 := by
  rw [skipped, if_neg fun h => Bool.false_ne_true (hm ▸ h.1)]

/-- The witness of a slot is the entry of the active list at the absolute slot. -/
theorem scheduledWitness_eq_ok {active : List Bytes} {witness : Bytes}
    (h : c.scheduledWitness s active = .ok witness) :
    0 ≤ c.absoluteSlot c.headTime + s ∧
      active[((c.absoluteSlot c.headTime + s) % active.length).toNat]? = some witness := by
  unfold scheduledWitness at h
  by_cases hne : active = []
  · rw [if_pos hne] at h
    cases h
  rw [if_neg hne] at h
  simp only [bind_eq_ok_iff, orOverflow_eq_ok, checkedAdd, checkedMul, toI64_eq_some_iff] at h
  obtain ⟨_, ⟨-, rfl⟩, h⟩ := h
  by_cases hle : c.absoluteSlot c.headTime + s < 0
  · rw [if_pos hle] at h
    cases h
  rw [if_neg hle] at h
  simp only [bind_eq_ok_iff, pure_eq_ok_iff, orOverflow_eq_ok, toI64_eq_some_iff,
    singleRepeat] at h
  obtain ⟨_, ⟨-, rfl⟩, rfl⟩ := h
  rw [Int.not_lt] at hle
  have hl : 0 < (active.length : Int) := by
    exact_mod_cast List.length_pos_of_ne_nil hne
  refine ⟨hle, ?_⟩
  rw [Int.mul_one, Int.tmod_eq_emod_of_nonneg hle, Int.tdiv_one]
  have hn' := Int.emod_nonneg (c.absoluteSlot c.headTime + s) hl.ne'
  have hlt := Int.emod_lt_of_pos (c.absoluteSlot c.headTime + s) hl
  rw [List.getD_eq_getElem?_getD, List.getElem?_eq_getElem (by omega)]
  rfl

end SlotContext

end RustTron.Consensus
