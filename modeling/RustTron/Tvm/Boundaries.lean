import RustTron.Tvm.Machine

/-!
# Instruction boundaries

The code of a program is decoded from its first byte on: an opcode, the bytes that belong to it if
it is a `PUSH`, and then the next one. A program counter that starts at a boundary of this decoding
and moves over whole instructions stays at one, and the destinations that a program allows jumps to
are boundaries that hold a `JUMPDEST`.

## Main definitions

* `immediate`, `Boundary`: the bytes after an opcode, and the positions that the decoding visits
* `Program.advance`: the program after the bytes of its instruction
* `Program.readPushSlices`: `read_push` with the ranges that it slices

## Main results

* `boundary_of_jump`: jumps reach boundaries that hold a `JUMPDEST`
* `Program.readPushSlices_eq`, `Program.readPush_value`: the constants are read within the code,
  and bytes past its end count as zeros
-/

namespace RustTron.Tvm

/-! ## The linear decoding -/

/-- How many bytes belong to an instruction after its opcode. -/
def immediate (op : UInt8) : Nat := if 0x60 ≤ op ∧ op ≤ 0x7f then op.toNat - 0x5f else 0

/-- The positions that the linear decoding of a code visits, the one where it ends included. -/
inductive Boundary (code : Bytes) : Nat → Prop
  | zero : Boundary code 0
  | next {i : Nat} {op : UInt8} : Boundary code i → code[i]? = some op →
      Boundary code (i + 1 + immediate op)

theorem immediate_le (op : UInt8) : immediate op ≤ 32 := by
  unfold immediate
  split
  · next h =>
    have hle : op.toNat ≤ 0x7f := UInt8.le_iff_toNat_le.mp h.2
    omega
  · exact Nat.zero_le _

/-! ## Jump destinations -/

/-- What the scan notes down: `i` bytes of the code have been scanned, and the next boundary is
`skip` bytes away. -/
theorem boundary_of_mem_jumpdestsFrom {code scanned rest : Bytes} {i skip target : Nat}
    (hc : code = scanned ++ rest) (hl : scanned.length = i)
    (hn : Boundary code (i + skip)) (h : target ∈ jumpdestsFrom i skip rest) :
    Boundary code target ∧ code[target]? = some 0x5b := by
  induction rest generalizing scanned i skip with
  | nil => cases h
  | cons op rest ih =>
    have hc' : code = (scanned ++ [op]) ++ rest := by
      rw [List.append_assoc]
      exact hc
    have hl' : (scanned ++ [op]).length = i + 1 := by
      rw [List.length_append, hl]
      rfl
    cases skip with
    | succ skip =>
      refine ih hc' hl' ?_ h
      rw [Nat.add_right_comm]
      exact hn
    | zero =>
      have hop : code[i]? = some op := by
        rw [hc, List.getElem?_append_right (Nat.le_of_eq hl), hl, Nat.sub_self]
        rfl
      have hr : target ∈ jumpdestsFrom (i + 1) (immediate op) rest →
          Boundary code target ∧ code[target]? = some 0x5b :=
        ih hc' hl' (hn.next hop)
      simp only [jumpdestsFrom] at h
      split at h
      · next heq =>
        rcases List.mem_cons.mp h with rfl | h
        · exact ⟨hn, hop.trans (congrArg some heq)⟩
        · exact hr h
      · exact hr h

/-- A program over a code, whatever its counter is. -/
structure Program.Runs (code : Bytes) (p : Program) : Prop where
  code_eq : p.code = code
  jumpdests_eq : p.jumpdests = jumpdestsFrom 0 0 code

theorem Program.runs_new (code : Bytes) : (Program.new code).Runs code := ⟨rfl, rfl⟩

/-- **Jumps reach boundaries that hold a `JUMPDEST`**, and nothing else. -/
theorem boundary_of_jump {code : Bytes} {p p' : Program} {target : Nat} (hr : p.Runs code)
    (h : p.jump target = .ok p') :
    p' = { p with pc := target } ∧ Boundary code target ∧ code[target]? = some 0x5b := by
  unfold Program.jump at h
  split at h
  · next hm =>
    cases h
    rw [Program.isJumpdest, List.contains_iff_mem, hr.jumpdests_eq] at hm
    exact ⟨rfl, boundary_of_mem_jumpdestsFrom (List.nil_append code).symm rfl .zero hm⟩
  · cases h

namespace Program

variable {p p' : Program} {op : UInt8}

/-! ## Fetching -/

theorem nextOpcode_eq_some (h : p.nextOpcode = some (op, p')) :
    p.code[p.pc]? = some op ∧ p' = { p with pc := p.pc + 1 } := by
  obtain ⟨op', hop, heq⟩ := Option.map_eq_some_iff.mp h
  cases heq
  exact ⟨hop, rfl⟩

/-- The opcode under execution is the one that was fetched. -/
theorem current_of_nextOpcode (h : p.nextOpcode = some (op, p')) : p'.current = .ok op := by
  obtain ⟨hop, rfl⟩ := nextOpcode_eq_some h
  simp only [current, Nat.add_sub_cancel, hop]

/-! ## Constants -/

/-- The program after the bytes that belong to its opcode. -/
def advance (p : Program) (op : UInt8) : Program := { p with pc := p.pc + immediate op }

/-- `read_push` as it is written, with an array of 32 bytes and the two ranges that are copied;
`none` where one of them is out of range. -/
def readPushSlices (p : Program) (count : Nat) : Option (Word × Program) :=
  let available := min count (p.code.length - p.pc)
  if count ≤ 32 ∧ 32 - count + available ≤ 32 ∧ p.pc ≤ p.code.length ∧
      p.pc + available ≤ p.code.length then
    some
      (Word.fromBeBytes (List.replicate (32 - count) 0 ++ (p.code.drop p.pc).take available ++
        List.replicate (count - available) 0), { p with pc := p.pc + count })
  else none

/-- Leading zeros do not count. -/
theorem fromBeBytes_zeros (n : Nat) (bytes : Bytes) :
    Word.fromBeBytes (List.replicate n 0 ++ bytes) = Word.fromBeBytes bytes := by
  have hz : (List.replicate n (0 : UInt8)).foldl (fun n b => n * 256 + b.toNat) 0 = 0 := by
    induction n with
    | zero => rfl
    | succ n ih =>
      rw [List.replicate_succ, List.foldl_cons]
      exact ih
  rw [Word.fromBeBytes, Word.fromBeBytes, List.foldl_append, hz]

/-- **No constant is sliced out of range**, where the counter is not past the end of the code. -/
theorem readPushSlices_eq {count : Nat} (hc : count ≤ 32) (hpc : p.pc ≤ p.code.length) :
    p.readPushSlices count = some (p.readPush count) := by
  have hl : ((p.code.drop p.pc).take count).length = min count (p.code.length - p.pc) := by
    rw [List.length_take, List.length_drop]
  have ht : (p.code.drop p.pc).take (min count (p.code.length - p.pc)) =
      (p.code.drop p.pc).take count := by
    rw [← List.length_drop, ← List.take_eq_take_min]
  unfold readPushSlices readPush
  dsimp only
  rw [if_pos (by omega), hl, ht, List.append_assoc, fromBeBytes_zeros]

/-- **A constant is made of the bytes after its opcode**, with zeros for those past the end. -/
theorem readPush_value (p : Program) (count : Nat) : p.readPush count =
    (Word.fromBeBytes ((List.range count).map fun i => p.code.getD (p.pc + i) 0),
      { p with pc := p.pc + count }) := by
  have hl : ((p.code.drop p.pc).take count).length = min count (p.code.length - p.pc) := by
    rw [List.length_take, List.length_drop]
  unfold readPush
  dsimp only
  refine congrArg (fun bytes => (Word.fromBeBytes bytes, _)) (List.ext_getElem ?_ fun i _ hi => ?_)
  · rw [List.length_append, List.length_replicate, List.length_map, List.length_range, hl]
    omega
  · rw [List.length_map, List.length_range] at hi
    rw [List.getElem_map, List.getElem_range, List.getElem_append]
    split
    · next hw =>
      rw [hl] at hw
      rw [List.getElem_take, List.getElem_drop, List.getD_eq_getElem?_getD,
        List.getElem?_eq_getElem (by omega), Option.getD_some]
    · next hp =>
      rw [hl] at hp
      rw [List.getElem_replicate, List.getD_eq_getElem?_getD,
        List.getElem?_eq_none (by omega), Option.getD_none]

end Program

end RustTron.Tvm
