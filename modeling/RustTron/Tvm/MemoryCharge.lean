import RustTron.Tvm.Interpreter
import Mathlib

/-!
# What instructions are charged for memory

An instruction that reaches into the memory pays for the words it adds to it. The three families of
instructions compute this on their own: the second and the third charge nothing for a range within
the memory, the first charges the difference between the memory up to the end of the range and the
memory there is.

## Main definitions

* `wordsCost`: the energy of a memory of so many bytes
* `ranges`, `reach`: the ranges of an instruction, and the end of the last of them
* `flatEnergy`: what an instruction is charged beside the memory
* `rawDelta`, `clampedDelta`: what the families charge for the memory

## Main results

* `memoryCost_eq`, `memoryDelta_eq`: the meter within the limit of the memory
* `charges_sha3`, `charges_call`, ..: `Charges`, of each instruction that reaches into the memory
-/

namespace RustTron.Tvm

open EnergyMeter (memoryCost checked)

/-! ## The cost of memory -/

/-- The bytes of whole words. -/
def roundUp (bytes : Nat) : Nat := (bytes + 31) / 32 * 32

/-- The energy of a memory of so many bytes. -/
def wordsCost (bytes : Nat) : Int :=
  let w : Int := ((bytes + 31) / 32 : Nat)
  w * 3 + w * w / 512

/-- The end of a range; an empty range ends nowhere. -/
def rangeOf (offset size : Nat) : Nat := if size = 0 then 0 else offset + size

section Cost

variable {bytes other : Nat}

theorem wordsCost_roundUp (bytes : Nat) : wordsCost (roundUp bytes) = wordsCost bytes := by
  have hw : (roundUp bytes + 31) / 32 = (bytes + 31) / 32 := by
    unfold roundUp
    omega
  rw [wordsCost, wordsCost, hw]

theorem roundUp_zero : roundUp 0 = 0 := rfl

theorem wordsCost_nonneg (bytes : Nat) : 0 ≤ wordsCost bytes := by
  have hs := Int.mul_self_le_mul_self le_rfl (Int.natCast_nonneg ((bytes + 31) / 32))
  unfold wordsCost
  dsimp only
  omega

theorem wordsCost_mono (h : bytes ≤ other) : wordsCost bytes ≤ wordsCost other := by
  have hw : ((bytes + 31) / 32 : Nat) ≤ (other + 31) / 32 := by omega
  have hs := Int.mul_self_le_mul_self (Int.natCast_nonneg ((bytes + 31) / 32))
    (Int.ofNat_le.mpr hw)
  unfold wordsCost
  dsimp only
  omega

/-- A memory of fewer words costs less. -/
theorem wordsCost_lt (h : roundUp bytes < roundUp other) : wordsCost bytes < wordsCost other := by
  have hw : ((bytes + 31) / 32 : Nat) < (other + 31) / 32 := by
    unfold roundUp at h
    omega
  have hs := Int.mul_self_le_mul_self (Int.natCast_nonneg ((bytes + 31) / 32))
    (Int.ofNat_le.mpr hw.le)
  unfold wordsCost
  dsimp only
  omega

theorem wordsCost_le (h : bytes ≤ memoryLimit) : wordsCost bytes ≤ 19169280 := by
  refine (wordsCost_mono h).trans ?_
  decide

/-- **The cost of a memory** within the limit. -/
theorem memoryCost_eq (h : bytes ≤ memoryLimit) : memoryCost bytes = .ok (wordsCost bytes) := by
  have hb : bytes ≤ 3145728 := h
  have hle : (((bytes + 31) / 32 : Nat) : Int) ≤ 98304 := by omega
  have hn := Int.natCast_nonneg ((bytes + 31) / 32)
  have hs := Int.mul_self_le_mul_self hn hle
  have hs' := Int.mul_self_le_mul_self le_rfl hn
  unfold memoryCost wordsCost
  generalize (((bytes + 31) / 32 : Nat) : Int) = w at *
  dsimp only
  have h₁ : InI64 (w * w) := by
    unfold InI64 i64Min i64Max
    omega
  have h₂ : InI64 (w * 3) := by
    unfold InI64 i64Min i64Max
    omega
  have h₃ : InI64 (w * 3 + w * w / 512) := by
    unfold InI64 i64Min i64Max
    omega
  simp only [checked, h₁, h₂, h₃, if_true, bind, Except.bind]

/-- The difference between two memories within the limit. -/
theorem memoryDelta_eq (h : bytes ≤ memoryLimit) (h' : other ≤ memoryLimit) :
    EnergyMeter.memoryDelta bytes other = .ok (wordsCost other - wordsCost bytes) := by
  have hl := wordsCost_nonneg bytes
  have hl' := wordsCost_nonneg other
  have hh := wordsCost_le h
  have hh' := wordsCost_le h'
  have hf : InI64 (wordsCost other - wordsCost bytes) := by
    unfold InI64 i64Min i64Max
    omega
  unfold EnergyMeter.memoryDelta
  rw [memoryCost_eq h, memoryCost_eq h']
  simp only [bind, Except.bind, checked, hf, if_true]

theorem roundUp_le_memoryLimit (h : bytes ≤ memoryLimit) : roundUp bytes ≤ memoryLimit := by
  have hb : bytes ≤ 3145728 := h
  change roundUp bytes ≤ 3145728
  unfold roundUp
  omega

theorem checked_eq_ok {x : Int} {fault : VmFault} (h : -2 ^ 63 ≤ x ∧ x < 2 ^ 63) :
    checked x fault = .ok x := by
  rw [checked, if_pos (by unfold InI64 i64Min i64Max; omega)]

end Cost

/-! ## Memory -/

section Memory

variable {m m' : Memory} {offset size : Nat}

/-- **Expansion** to a range: it stays within the limit, and the memory is extended by whole
words. -/
theorem expand_eq_ok (h : m.expand offset size = .ok m') :
    rangeOf offset size ≤ memoryLimit ∧
      m'.softLen = max m.softLen (roundUp (rangeOf offset size)) := by
  unfold Memory.expand at h
  unfold rangeOf
  split at h
  · next hz =>
    cases h
    rw [if_pos hz]
    rw [roundUp_zero, Nat.max_zero]
    exact ⟨Nat.zero_le _, rfl⟩
  · next hs =>
    rw [if_neg hs]
    dsimp only at h
    split at h
    · cases h
    · next hle =>
      cases h
      exact ⟨Nat.not_lt.mp hle, rfl⟩

theorem read_eq_ok {bytes : Bytes} (h : m.read offset size = .ok (bytes, m')) :
    rangeOf offset size ≤ memoryLimit ∧
      m'.softLen = max m.softLen (roundUp (rangeOf offset size)) := by
  simp only [Memory.read, bind_eq_ok_iff, pure_eq_ok_iff, Prod.mk.injEq] at h
  obtain ⟨m₁, he, -, rfl⟩ := h
  exact expand_eq_ok he

theorem write_eq_ok {data : Bytes} (h : m.write offset data = .ok m') :
    rangeOf offset data.length ≤ memoryLimit ∧
      m'.softLen = max m.softLen (roundUp (rangeOf offset data.length)) := by
  simp only [Memory.write, bind_eq_ok_iff, pure_eq_ok_iff] at h
  obtain ⟨m₁, he, rfl⟩ := h
  obtain ⟨hle, hs⟩ := expand_eq_ok he
  refine ⟨hle, ?_⟩
  split <;> exact hs

theorem writePadded_eq_ok {source : Bytes} {sourceOffset : Nat}
    (h : m.writePadded offset size source sourceOffset = .ok m') :
    rangeOf offset size ≤ memoryLimit ∧
      m'.softLen = max m.softLen (roundUp (rangeOf offset size)) := by
  simp only [Memory.writePadded, bind_eq_ok_iff] at h
  obtain ⟨m₁, he, h⟩ := h
  obtain ⟨hle, hs⟩ := expand_eq_ok he
  refine ⟨hle, ?_⟩
  split at h <;> cases h <;> exact hs

theorem roundUp_max (a b : Nat) : roundUp (max a b) = max (roundUp a) (roundUp b) := by
  unfold roundUp
  omega

theorem copyWithin_eq_ok {dst src : Nat} (h : m.copyWithin dst src size = .ok m') :
    max (rangeOf src size) (rangeOf dst size) ≤ memoryLimit ∧
      m'.softLen = max m.softLen (roundUp (max (rangeOf src size) (rangeOf dst size))) := by
  unfold Memory.copyWithin at h
  split at h
  · next hz =>
    cases h
    rw [rangeOf, rangeOf, if_pos hz, if_pos hz]
    rw [Nat.max_zero, roundUp_zero, Nat.max_zero]
    exact ⟨Nat.zero_le _, rfl⟩
  · simp only [bind_eq_ok_iff, pure_eq_ok_iff] at h
    obtain ⟨m₁, hsr, m₂, hd, rfl⟩ := h
    obtain ⟨hle, hs⟩ := expand_eq_ok hsr
    obtain ⟨hl', hs'⟩ := expand_eq_ok hd
    refine ⟨max_le hle hl', ?_⟩
    rw [roundUp_max, ← max_assoc, ← hs]
    exact hs'

/-- The end of a range of words, as the machine reads them. -/
def wordRange (offset size : Word) : Nat := rangeOf offset.toNat size.toNat

theorem toI32Safe_eq_min (word : Word) : word.toI32Safe = min word.toNat 2147483647 := by
  unfold Word.toI32Safe
  split <;> omega

theorem toI32Safe_eq_zero {word : Word} : word.toI32Safe = 0 ↔ word.toNat = 0 := by
  rw [toI32Safe_eq_min]
  omega

theorem rangeOf_toI32Safe {offset size : Word}
    (h : rangeOf offset.toI32Safe size.toI32Safe ≤ memoryLimit ∨
      wordRange offset size ≤ memoryLimit) :
    rangeOf offset.toI32Safe size.toI32Safe = wordRange offset size := by
  unfold wordRange rangeOf at *
  by_cases hz : size.toNat = 0
  · rw [if_pos hz, if_pos (toI32Safe_eq_zero.mpr hz)]
  rw [if_neg hz, if_neg fun h => hz (toI32Safe_eq_zero.mp h)] at *
  change _ ≤ 3145728 ∨ _ ≤ 3145728 at h
  rw [toI32Safe_eq_min, toI32Safe_eq_min] at *
  omega

end Memory

/-! ## The instructions that reach into the memory -/

/-- The words of a size. -/
def wordsOf (size : Word) : Int := ((size.toNat + 31) / 32 : Nat)

/-- The instructions of the first family that reach into the memory. -/
def copyOpcodes : List UInt8 := [0x20, 0x37, 0x39, 0x3c, 0x3e]

/-- The instructions that reach into the memory. -/
def memoryOpcodes : List UInt8 :=
  copyOpcodes ++ [0x51, 0x52, 0x53, 0x5e, 0xa0, 0xa1, 0xa2, 0xa3, 0xa4, 0xd0, 0xf0, 0xf1, 0xf2,
    0xf3, 0xf4, 0xf5, 0xfa, 0xfd]

/-- The ranges of an instruction, by their offsets and sizes. -/
def ranges (opcode : UInt8) (stack : Stack1024) : List (Nat × Nat) :=
  let operand (i : Nat) : Nat := (stack.getD i 0).toNat
  if opcode ∈ [0x20, 0xa0, 0xa1, 0xa2, 0xa3, 0xa4, 0xf3, 0xfd] then [(operand 0, operand 1)]
  else if opcode ∈ [0x37, 0x39, 0x3e] then [(operand 0, operand 2)]
  else if opcode = 0x3c then [(operand 1, operand 3)]
  else if opcode ∈ [0x51, 0x52] then [(operand 0, 32)]
  else if opcode = 0x53 then [(operand 0, 1)]
  else if opcode = 0x5e then [(operand 0, operand 2), (operand 1, operand 2)]
  else if opcode ∈ [0xf0, 0xf5] then [(operand 1, operand 2)]
  else if opcode ∈ [0xf4, 0xfa] then [(operand 2, operand 3), (operand 4, operand 5)]
  else if opcode ∈ [0xf1, 0xf2] then [(operand 3, operand 4), (operand 5, operand 6)]
  else if opcode = 0xd0 then [(operand 4, operand 5), (operand 6, operand 7)]
  else []

/-- The end of the last range of an instruction. -/
def reach (opcode : UInt8) (stack : Stack1024) : Nat :=
  (ranges opcode stack).foldr (fun range last => max (rangeOf range.1 range.2) last) 0

/-- What an instruction that reaches into the memory is charged beside the memory. -/
def flatEnergy (opcode : UInt8) (c : OperationContext) : Int :=
  let operand (i : Nat) : Word := c.stack.getD i 0
  let isNew := c.repository.account (operand 1).toTronAddress = none
  if opcode = 0x20 then 30 + wordsOf (operand 1) * 6
  else if opcode ∈ [0x37, 0x39, 0x3e] then wordsOf (operand 2) * 3
  else if opcode = 0x3c then 20 + wordsOf (operand 3) * 3
  else if opcode ∈ [0x51, 0x52, 0x53] then if c.rules.higherCpuMemory then 1 else 0
  else if opcode = 0x5e then 3 + wordsOf (operand 2) * 3
  else if opcode ∈ [0xa0, 0xa1, 0xa2, 0xa3, 0xa4] then
    375 + (opcode.toNat - 0xa0) * 375 + (operand 1).toNat * 8
  else if opcode ∈ [0xf4, 0xfa] then 40
  else if opcode = 0xf2 then 40 + if operand 2 = 0 then 0 else 9000
  else if opcode ∈ [0xd0, 0xf1] then
    40 + if operand 2 = 0 then 0 else 9000 + if isNew then 25000 else 0
  else if opcode = 0xf0 then 32000
  else if opcode = 0xf5 then 32000 + wordsOf (operand 2) * 6
  else 0

/-! ## What is charged -/

/-- The charge of the first family. -/
def rawDelta (softLen last : Nat) : Int :=
  if last = 0 then 0 else wordsCost last - wordsCost softLen

/-- The charge of the other families. -/
def clampedDelta (softLen last : Nat) : Int :=
  if last ≤ softLen then 0 else wordsCost last - wordsCost softLen

/-- The energy of an instruction that reaches into the memory. -/
def Charges (required : Nat) (energy : EnergyFn) (reach : Stack1024 → Nat)
    (flat : OperationContext → Int) (delta : Nat → Nat → Int) : Prop :=
  ∀ host c, required ≤ c.stack.length → reach c.stack ≤ memoryLimit →
    c.memory.softLen ≤ memoryLimit →
      energy host c = .ok (flat c + delta c.memory.softLen (reach c.stack))

section Energy

variable {c : OperationContext} {offset size : Word} {last : Nat}

theorem peek_eq {stack : Stack1024} {i : Nat} (h : i < stack.length) :
    stack.peek i = .ok (stack.getD i 0) := by
  rw [Stack1024.peek, List.getElem?_eq_getElem h, List.getD_eq_getElem?_getD,
    List.getElem?_eq_getElem h]
  rfl

theorem size_le (h : wordRange offset size ≤ memoryLimit) : size.toNat ≤ memoryLimit := by
  unfold wordRange rangeOf at h
  split at h <;> omega

theorem size_toI32Safe (h : wordRange offset size ≤ memoryLimit) :
    size.toI32Safe = size.toNat := by
  have hle : size.toNat ≤ 3145728 := size_le h
  rw [toI32Safe_eq_min]
  omega

theorem wordsOf_le (h : wordRange offset size ≤ memoryLimit) :
    0 ≤ wordsOf size ∧ wordsOf size ≤ 98304 := by
  have hle : size.toNat ≤ 3145728 := size_le h
  unfold wordsOf
  omega

theorem rawDelta_bounds {softLen : Nat} (hs : softLen ≤ memoryLimit) (h : last ≤ memoryLimit) :
    -19169280 ≤ rawDelta softLen last ∧ rawDelta softLen last ≤ 19169280 := by
  have hl := wordsCost_nonneg last
  have hl' := wordsCost_nonneg softLen
  have hh := wordsCost_le h
  have hh' := wordsCost_le hs
  unfold rawDelta
  split <;> omega

theorem clampedDelta_bounds (softLen : Nat) (h : last ≤ memoryLimit) :
    0 ≤ clampedDelta softLen last ∧ clampedDelta softLen last ≤ 19169280 := by
  have hl' := wordsCost_nonneg softLen
  have hh := wordsCost_le h
  unfold clampedDelta
  split
  · omega
  · next hlt =>
    have hm := wordsCost_mono (Nat.not_le.mp hlt).le
    omega

theorem memEnergy_eq {base perWord : Int} (hs : c.memory.softLen ≤ memoryLimit)
    (h : wordRange offset size ≤ memoryLimit) (hba : 0 ≤ base ∧ base ≤ 100)
    (hw : perWord = 3 ∨ perWord = 6) :
    OpcodesA.memEnergy c offset size base perWord =
      .ok (base + wordsOf size * perWord +
        rawDelta c.memory.softLen (wordRange offset size)) := by
  have hr := rangeOf_toI32Safe (.inr h)
  have hb := rawDelta_bounds hs h
  have hwo := wordsOf_le h
  have hl : (if size.toI32Safe = 0 then (.ok c.memory.softLen : Faulting Nat)
      else if offset.toI32Safe + size.toI32Safe > memoryLimit then .error .outOfMemory
      else .ok (offset.toI32Safe + size.toI32Safe)) =
        .ok (if wordRange offset size = 0 then c.memory.softLen else wordRange offset size) := by
    by_cases hz : size.toI32Safe = 0
    · rw [if_pos hz, ← hr, rangeOf, if_pos hz, if_pos rfl]
    · have hre : offset.toI32Safe + size.toI32Safe = wordRange offset size := by
        rw [← hr, rangeOf, if_neg hz]
      rw [if_neg hz, hre, if_neg (Nat.not_lt.mpr h), if_neg (by omega)]
  have hd : EnergyMeter.memoryDelta c.memory.softLen
      (if wordRange offset size = 0 then c.memory.softLen else wordRange offset size) =
        .ok (rawDelta c.memory.softLen (wordRange offset size)) := by
    unfold rawDelta
    split
    · rw [memoryDelta_eq hs hs, Int.sub_self]
    · exact memoryDelta_eq hs h
  have hsi : (((size.toI32Safe + 31) / 32 : Nat) : Int) = wordsOf size := by
    rw [size_toI32Safe h]
    rfl
  have hw' : 0 ≤ wordsOf size * perWord ∧ wordsOf size * perWord ≤ 589824 := by
    rcases hw with rfl | rfl <;> omega
  unfold OpcodesA.memEnergy
  dsimp only
  rw [hl]
  simp only [bind, Except.bind, hd, hsi]
  generalize wordsOf size * perWord = copied at *
  generalize rawDelta c.memory.softLen (wordRange offset size) = delta at *
  rw [checked_eq_ok (by omega)]
  dsimp only
  rw [checked_eq_ok (by omega)]
  dsimp only
  rw [checked_eq_ok (by omega)]
  exact congrArg Except.ok (by omega)

/-- The delta of the second family, and of the third. -/
theorem clampedDelta_eq (hs : c.memory.softLen ≤ memoryLimit) (h : last ≤ memoryLimit) :
    OpcodesB.memoryDelta c last = .ok (clampedDelta c.memory.softLen last) ∧
      OpcodesC.memoryDelta c last = .ok (clampedDelta c.memory.softLen last) := by
  have hi : (last = 0 ∨ last ≤ c.memory.softLen) ↔ last ≤ c.memory.softLen := by omega
  unfold OpcodesB.memoryDelta OpcodesC.memoryDelta clampedDelta
  simp only [hi]
  split
  · exact ⟨rfl, rfl⟩
  · exact ⟨memoryDelta_eq hs h, memoryDelta_eq hs h⟩

theorem memoryEnd_eq (h : wordRange offset size ≤ memoryLimit) :
    OpcodesB.memoryEnd offset size = wordRange offset size :=
  rangeOf_toI32Safe (.inr h)

/-- The end of a range in the third family. -/
theorem rangeEnd_eq_ok {last : Nat} : OpcodesC.rangeEnd offset size = .ok last ↔
    wordRange offset size ≤ memoryLimit ∧ last = wordRange offset size := by
  have hli : memoryLimit = 3145728 := rfl
  have hf : ∀ {word : Word}, word.toNat ≤ memoryLimit →
      OpcodesC.wordUsize word = .ok word.toNat := by
    intro word hw
    rw [OpcodesC.wordUsize, if_neg]
    unfold i64Max
    omega
  have hv : ∀ {word : Word} {n : Nat}, OpcodesC.wordUsize word = .ok n → n = word.toNat := by
    intro word n hw
    unfold OpcodesC.wordUsize at hw
    split at hw
    · cases hw
    · cases hw
      rfl
  unfold OpcodesC.rangeEnd
  simp only [bind_eq_ok_iff]
  constructor
  · rintro ⟨n, hs, hl⟩
    obtain rfl := hv hs
    unfold wordRange rangeOf
    split at hl
    · next hz =>
      cases hl
      rw [if_pos hz]
      exact ⟨Nat.zero_le _, rfl⟩
    · next hz =>
      simp only [bind_eq_ok_iff] at hl
      obtain ⟨o, ho, hl⟩ := hl
      obtain rfl := hv ho
      rw [if_neg hz]
      split at hl
      · cases hl
      · next hle =>
        cases hl
        exact ⟨Nat.not_lt.mp hle, rfl⟩
  · rintro ⟨hle, rfl⟩
    refine ⟨size.toNat, hf (size_le hle), ?_⟩
    unfold wordRange rangeOf at hle ⊢
    split
    · rfl
    · next hz =>
      rw [if_neg hz] at hle
      simp only [bind_eq_ok_iff]
      refine ⟨offset.toNat, hf (by omega), ?_⟩
      rw [if_neg (Nat.not_lt.mpr hle)]
      rfl

theorem reach_one {opcode : UInt8} {stack : Stack1024} {offset size : Nat}
    (h : ranges opcode stack = [(offset, size)]) : reach opcode stack = rangeOf offset size := by
  rw [reach, h]
  exact Nat.max_zero _

theorem reach_two {opcode : UInt8} {stack : Stack1024} {offset size offset' size' : Nat}
    (h : ranges opcode stack = [(offset, size), (offset', size')]) :
    reach opcode stack = max (rangeOf offset size) (rangeOf offset' size') := by
  rw [reach, h]
  exact congrArg (max _) (Nat.max_zero _)

theorem charges_sha3 : Charges 2 OpcodesA.sha3Energy (reach 0x20) (flatEnergy 0x20) rawDelta := by
  intro host c hst hr hs
  have hra : reach 0x20 c.stack = wordRange (c.stack.getD 0 0) (c.stack.getD 1 0) :=
    reach_one rfl
  rw [hra] at hr ⊢
  unfold OpcodesA.sha3Energy
  rw [peek_eq (by omega), peek_eq (by omega)]
  exact memEnergy_eq hs hr (by decide) (.inr rfl)

/-- The copies of the first family: their destination and their size. -/
theorem charges_copy {opcode : UInt8} (h : opcode ∈ [0x37, 0x39, 0x3e]) :
    Charges 3 OpcodesA.copyEnergy (reach opcode) (flatEnergy opcode) rawDelta := by
  intro host c hst hr hs
  have hra : reach opcode c.stack = wordRange (c.stack.getD 0 0) (c.stack.getD 2 0) := by
    fin_cases h <;> exact reach_one rfl
  have hf : flatEnergy opcode c = 0 + wordsOf (c.stack.getD 2 0) * 3 := by
    rw [Int.zero_add]
    fin_cases h <;> rfl
  rw [hra] at hr ⊢
  unfold OpcodesA.copyEnergy
  rw [peek_eq (by omega), peek_eq (by omega), hf]
  exact memEnergy_eq hs hr (by decide) (.inl rfl)

theorem charges_extcopy :
    Charges 4 OpcodesA.extcopyEnergy (reach 0x3c) (flatEnergy 0x3c) rawDelta := by
  intro host c hst hr hs
  have hra : reach 0x3c c.stack = wordRange (c.stack.getD 1 0) (c.stack.getD 3 0) :=
    reach_one rfl
  rw [hra] at hr ⊢
  unfold OpcodesA.extcopyEnergy
  rw [peek_eq (by omega), peek_eq (by omega)]
  exact memEnergy_eq hs hr (by decide) (.inl rfl)

/-- The loads and stores of a word or a byte. -/
theorem charges_memory {opcode : UInt8} {size : Word} {required : Nat} (hp : 0 < required)
    (h : (opcode ∈ [0x51, 0x52] ∧ size = 32) ∨ (opcode = 0x53 ∧ size = 1)) :
    Charges required (OpcodesB.energyMemory size) (reach opcode) (flatEnergy opcode)
      clampedDelta := by
  intro host c hst hr hs
  have hra : reach opcode c.stack = wordRange (c.stack.getD 0 0) size := by
    rcases h with ⟨h, rfl⟩ | ⟨rfl, rfl⟩
    · fin_cases h <;> exact reach_one rfl
    · exact reach_one rfl
  have hf : flatEnergy opcode c = if c.rules.higherCpuMemory then 1 else 0 := by
    rcases h with ⟨h, rfl⟩ | ⟨rfl, rfl⟩
    · fin_cases h <;> rfl
    · rfl
  rw [hra] at hr ⊢
  have hb := clampedDelta_bounds c.memory.softLen hr
  unfold OpcodesB.energyMemory
  rw [peek_eq (by omega), hf]
  simp only [bind, Except.bind, memoryEnd_eq hr, (clampedDelta_eq hs hr).1]
  rw [checked_eq_ok, Int.add_comm]
  split <;> omega

theorem rangeOf_max {offset offset' size : Nat} :
    rangeOf (max offset offset') size = max (rangeOf offset size) (rangeOf offset' size) := by
  unfold rangeOf
  split <;> omega

/-- The copy within the memory is charged for the later of its two ranges. -/
theorem charges_mcopy :
    Charges 3 OpcodesB.energyMcopy (reach 0x5e) (flatEnergy 0x5e) clampedDelta := by
  intro host c hst hr hso
  have hl : (if c.stack.getD 0 0 > c.stack.getD 1 0 then c.stack.getD 0 0
      else c.stack.getD 1 0).toNat = max (c.stack.getD 0 0).toNat (c.stack.getD 1 0).toNat := by
    split
    · next hlt =>
      have := BitVec.lt_def.mp hlt
      omega
    · next hle =>
      have := BitVec.not_lt.mp hle
      have := BitVec.le_def.mp this
      omega
  have hra : reach 0x5e c.stack = wordRange (if c.stack.getD 0 0 > c.stack.getD 1 0
      then c.stack.getD 0 0 else c.stack.getD 1 0) (c.stack.getD 2 0) := by
    rw [wordRange, hl, rangeOf_max]
    exact reach_two rfl
  rw [hra] at hr ⊢
  have hb := clampedDelta_bounds c.memory.softLen hr
  have hw := wordsOf_le hr
  have hs : ((((c.stack.getD 2 0).toI32Safe + 31) / 32 : Nat) : Int) =
      wordsOf (c.stack.getD 2 0) := by
    rw [size_toI32Safe hr]
    rfl
  change _ = Except.ok (3 + wordsOf (c.stack.getD 2 0) * 3 + _)
  unfold OpcodesB.energyMcopy
  rw [peek_eq (by omega), peek_eq (by omega), peek_eq (by omega)]
  simp only [bind, Except.bind, memoryEnd_eq hr, (clampedDelta_eq hso hr).1, hs]
  generalize clampedDelta c.memory.softLen _ = delta at *
  rw [checked_eq_ok (by omega)]
  dsimp only
  rw [checked_eq_ok (by omega)]
  dsimp only
  rw [checked_eq_ok (by omega)]
  exact congrArg Except.ok (by omega)

theorem charges_log {topics : Nat} (h : topics < 5) :
    Charges (topics + 2) (OpcodesB.energyLog topics) (reach (UInt8.ofNat (0xa0 + topics)))
      (flatEnergy (UInt8.ofNat (0xa0 + topics))) clampedDelta := by
  intro host c hst hr hs
  have hra : reach (UInt8.ofNat (0xa0 + topics)) c.stack =
      wordRange (c.stack.getD 0 0) (c.stack.getD 1 0) := by
    interval_cases topics <;> exact reach_one rfl
  have hf : flatEnergy (UInt8.ofNat (0xa0 + topics)) c =
      375 + topics * 375 + (c.stack.getD 1 0).toNat * 8 := by
    interval_cases topics <;> rfl
  rw [hra] at hr ⊢
  have hb := clampedDelta_bounds c.memory.softLen hr
  have hsi : (c.stack.getD 1 0).toNat ≤ 3145728 := size_le hr
  rw [hf]
  unfold OpcodesB.energyLog
  rw [peek_eq (by omega), peek_eq (by omega)]
  simp only [bind, Except.bind, memoryEnd_eq hr, (clampedDelta_eq hs hr).1,
    size_toI32Safe hr, OpcodesB.orOutOfEnergy]
  generalize clampedDelta c.memory.softLen _ = delta at *
  rw [checked_eq_ok (by omega)]
  dsimp only
  rw [checked_eq_ok (by omega)]
  dsimp only
  rw [checked_eq_ok (by omega)]

theorem charges_return {opcode : UInt8} (h : opcode ∈ [0xf3, 0xfd]) :
    Charges 2 OpcodesB.energyReturn (reach opcode) (flatEnergy opcode) clampedDelta := by
  intro host c hst hr hs
  have hra : reach opcode c.stack = wordRange (c.stack.getD 0 0) (c.stack.getD 1 0) := by
    fin_cases h <;> exact reach_one rfl
  have hf : flatEnergy opcode c = 0 := by
    fin_cases h <;> rfl
  rw [hra] at hr ⊢
  unfold OpcodesB.energyReturn
  rw [peek_eq (by omega), peek_eq (by omega), hf, Int.zero_add]
  simp only [bind, Except.bind, memoryEnd_eq hr]
  exact (clampedDelta_eq hs hr).1

/-- The energy of a call: the later end of its input and its output. -/
theorem callEnergy_eq (withValue payAccount token : Bool) {host : Host} {i : Nat}
    (hi : (if token then 4 else if withValue then 3 else 2) = i) (hst : i + 4 ≤ c.stack.length)
    (hs : c.memory.softLen ≤ memoryLimit)
    (hl : max (wordRange (c.stack.getD i 0) (c.stack.getD (i + 1) 0))
      (wordRange (c.stack.getD (i + 2) 0) (c.stack.getD (i + 3) 0)) = last)
    (h : last ≤ memoryLimit) :
    OpcodesC.callEnergy withValue payAccount token host c =
      .ok (40 + (if (if withValue then c.stack.getD 2 0 else 0) = 0 then 0
        else 9000 + if payAccount ∧ c.repository.account (c.stack.getD 1 0).toTronAddress = none
          then 25000 else 0) + clampedDelta c.memory.softLen last) := by
  have hle : 2 ≤ i := by
    rw [← hi]
    cases token <;> cases withValue <;> decide
  have hb := clampedDelta_bounds c.memory.softLen h
  have hin : OpcodesC.rangeEnd (c.stack.getD i 0) (c.stack.getD (i + 1) 0) =
      .ok (wordRange (c.stack.getD i 0) (c.stack.getD (i + 1) 0)) :=
    rangeEnd_eq_ok.mpr ⟨(le_max_left _ _).trans (hl.trans_le h), rfl⟩
  have ho : OpcodesC.rangeEnd (c.stack.getD (i + 2) 0) (c.stack.getD (i + 3) 0) =
      .ok (wordRange (c.stack.getD (i + 2) 0) (c.stack.getD (i + 3) 0)) :=
    rangeEnd_eq_ok.mpr ⟨(le_max_right _ _).trans (hl.trans_le h), rfl⟩
  have hv : (if withValue then c.stack.peek 2 else pure 0 : Faulting Word) =
      .ok (if withValue then c.stack.getD 2 0 else 0) := by
    split
    · exact peek_eq (by omega)
    · rfl
  unfold OpcodesC.callEnergy
  rw [hi, peek_eq (by omega), hv]
  simp only [bind, Except.bind]
  rw [peek_eq (by omega), peek_eq (by omega), peek_eq (by omega), peek_eq (by omega)]
  simp only [hin, ho, hl, (clampedDelta_eq hs h).2]
  generalize clampedDelta c.memory.softLen last = delta at *
  generalize (if withValue then c.stack.getD 2 0 else 0 : Word) = value
  unfold OpcodesC.callBase OpcodesC.valueTransfer OpcodesC.newAccount
  rw [checked_eq_ok (by omega)]
  dsimp only
  split
  · exact congrArg Except.ok (by omega)
  · rw [checked_eq_ok (by omega)]
    dsimp only
    split
    · rw [checked_eq_ok (by omega)]
      exact congrArg Except.ok (by omega)
    · exact congrArg Except.ok (by omega)

theorem charges_call : Charges 7 OpcodesC.callE (reach 0xf1) (flatEnergy 0xf1) clampedDelta := by
  intro host c hs hr hso
  refine (callEnergy_eq true true false rfl hs hso (reach_two rfl).symm hr).trans ?_
  simp only [if_true, true_and]
  rfl

theorem charges_calltoken :
    Charges 8 OpcodesC.calltokenE (reach 0xd0) (flatEnergy 0xd0) clampedDelta := by
  intro host c hs hr hso
  refine (callEnergy_eq true true true rfl hs hso (reach_two rfl).symm hr).trans ?_
  simp only [if_true, true_and]
  rfl

theorem charges_callcode :
    Charges 7 OpcodesC.callcodeE (reach 0xf2) (flatEnergy 0xf2) clampedDelta := by
  intro host c hs hr hso
  refine (callEnergy_eq true false false rfl hs hso (reach_two rfl).symm hr).trans ?_
  simp only [if_true, Bool.false_eq_true, false_and, if_false, Int.add_zero]
  rfl

theorem charges_delegate {opcode : UInt8} (h : opcode ∈ [0xf4, 0xfa]) :
    Charges 6 OpcodesC.delegateE (reach opcode) (flatEnergy opcode) clampedDelta := by
  intro host c hs hre hso
  have hr : reach opcode c.stack = max (wordRange (c.stack.getD 2 0) (c.stack.getD 3 0))
      (wordRange (c.stack.getD 4 0) (c.stack.getD 5 0)) := by
    fin_cases h <;> exact reach_two rfl
  have hf : flatEnergy opcode c = 40 := by
    fin_cases h <;> rfl
  refine (callEnergy_eq false false false rfl hs hso hr.symm hre).trans ?_
  rw [hf]
  simp only [Bool.false_eq_true, if_false, if_true, Int.add_zero]

theorem createE_eq {host : Host} (hst : 3 ≤ c.stack.length)
    (hs : c.memory.softLen ≤ memoryLimit)
    (h : wordRange (c.stack.getD 1 0) (c.stack.getD 2 0) ≤ memoryLimit) :
    OpcodesC.createE host c = .ok (32000 +
      clampedDelta c.memory.softLen (wordRange (c.stack.getD 1 0) (c.stack.getD 2 0))) := by
  have hb := clampedDelta_bounds c.memory.softLen h
  unfold OpcodesC.createE
  rw [peek_eq (by omega), peek_eq (by omega)]
  simp only [bind, Except.bind, rangeEnd_eq_ok.mpr ⟨h, rfl⟩, (clampedDelta_eq hs h).2]
  exact checked_eq_ok (by omega)

theorem charges_create :
    Charges 3 OpcodesC.createE (reach 0xf0) (flatEnergy 0xf0) clampedDelta := by
  intro host c hs hr hso
  have hra : reach 0xf0 c.stack = wordRange (c.stack.getD 1 0) (c.stack.getD 2 0) :=
    reach_one rfl
  rw [hra] at hr ⊢
  exact createE_eq hs hso hr

theorem charges_create2 :
    Charges 4 OpcodesC.create2E (reach 0xf5) (flatEnergy 0xf5) clampedDelta := by
  intro host c hst hr hs
  have hra : reach 0xf5 c.stack = wordRange (c.stack.getD 1 0) (c.stack.getD 2 0) :=
    reach_one rfl
  rw [hra] at hr ⊢
  have hb := clampedDelta_bounds c.memory.softLen hr
  have hw := wordsOf_le hr
  have hsi : (c.stack.getD 2 0).toNat ≤ 3145728 := size_le hr
  have hf : OpcodesC.wordUsize (c.stack.getD 2 0) = .ok (c.stack.getD 2 0).toNat := by
    rw [OpcodesC.wordUsize, if_neg]
    unfold i64Max
    omega
  have hd : ((((c.stack.getD 2 0).toNat + 31) / 32 : Nat) : Int) =
      wordsOf (c.stack.getD 2 0) := rfl
  change _ = Except.ok (32000 + wordsOf (c.stack.getD 2 0) * 6 + _)
  unfold OpcodesC.create2E
  rw [peek_eq (by omega)]
  simp only [bind, Except.bind, hf, createE_eq (by omega) hs hr, hd]
  generalize clampedDelta c.memory.softLen _ = delta at *
  rw [checked_eq_ok (by omega)]
  dsimp only
  rw [checked_eq_ok (by omega)]
  exact congrArg Except.ok (by omega)

end Energy

end RustTron.Tvm
