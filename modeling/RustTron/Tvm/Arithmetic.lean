import RustTron.Primitives.WordIntegers
import RustTron.Tvm.MemoryEnergy

/-!
# Arithmetic instructions over the integers

An arithmetic instruction takes its operands from the stack, pushes one word and changes nothing
else. The word is what the integers give.

## Main definitions

* `Computes₂`, `Computes₃`: an instruction that pushes a value of its operands

## Main results

* `computes₂_binary`, `computes₃_ternary`: the instructions of two and of three operands
* `arithmetic_computes_integers`: the twelve instructions over the integers
* `step_binary`, `step_ternary`: what the opcodes of these instructions do in a frame
-/

namespace RustTron.Tvm.OpcodesA

/-- The instruction replaces two operands by a value of them, and changes nothing else. -/
def Computes₂ (execute : ExecuteFn) (value : Word → Word → Word) : Prop :=
  ∀ (host : Host) (c : OperationContext) (a b : Word) (rest : Stack1024),
    c.stack = a :: b :: rest → c.stack.length ≤ stackLimit →
      execute host c = (.ok .continue, { c with stack := value a b :: rest })

/-- The instruction replaces three operands by a value of them, and changes nothing else. -/
def Computes₃ (execute : ExecuteFn) (value : Word → Word → Word → Word) : Prop :=
  ∀ (host : Host) (c : OperationContext) (a b m : Word) (rest : Stack1024),
    c.stack = a :: b :: m :: rest → c.stack.length ≤ stackLimit →
      execute host c = (.ok .continue, { c with stack := value a b m :: rest })

theorem pop_cons (a : Word) (rest : Stack1024) (memory : Memory) :
    pop ⟨a :: rest, memory⟩ = (.ok a, ⟨rest, memory⟩) := rfl

theorem pushed_of_lt (value : Word) {stack : Stack1024} (h : stack.length < stackLimit)
    (memory : Memory) : pushed value ⟨stack, memory⟩ = (.ok .continue, ⟨value :: stack, memory⟩) := by
  have hr : stack.push value = .ok (value :: stack) := if_neg (by omega)
  have hp : push value ⟨stack, memory⟩ = (.ok (), ⟨value :: stack, memory⟩) := by
    rw [push, hr]
  exact Prog.bind_of_ok hp

theorem onScratch_of_run {x : Host → OperationContext → Prog Scratch VmFault OperationControl}
    {host : Host} {c : OperationContext} {stack : Stack1024}
    (h : x host c ⟨c.stack, c.memory⟩ = (.ok .continue, ⟨stack, c.memory⟩)) :
    onScratch x host c = (.ok .continue, { c with stack }) := by
  unfold onScratch scratch
  exact Prog.zoom_eq_ok.mpr ⟨⟨stack, c.memory⟩, h, rfl⟩

theorem computes₂_binary {f value : Word → Word → Word} (h : ∀ a b, f a b = value a b) :
    Computes₂ (binary f) value := by
  intro host c a b rest hs hl
  rw [hs, List.length_cons, List.length_cons] at hl
  apply onScratch_of_run
  rw [hs, ← h a b, Prog.bind_of_ok (pop_cons a _ _), Prog.bind_of_ok (pop_cons b _ _)]
  exact pushed_of_lt _ (by omega) _

theorem computes₃_ternary {f value : Word → Word → Word → Word}
    (h : ∀ a b m, f a b m = value a b m) : Computes₃ (ternary f) value := by
  intro host c a b m rest hs hl
  rw [hs, List.length_cons, List.length_cons, List.length_cons] at hl
  apply onScratch_of_run
  rw [hs, ← h a b m, Prog.bind_of_ok (pop_cons a _ _), Prog.bind_of_ok (pop_cons b _ _),
    Prog.bind_of_ok (pop_cons m _ _)]
  exact pushed_of_lt _ (by omega) _

theorem byteAt_eq_integers (i v : Word) : byteAt i v = Word.Integers.byte i v := by
  unfold byteAt Word.Integers.byte
  by_cases hi : i.toNat < 32
  · rw [if_pos hi, if_pos (BitVec.lt_def.mpr hi), Word.toNat_getD_toBeBytes v hi]
    rfl
  · rw [if_neg hi, if_neg fun h => hi (BitVec.lt_def.mp h)]
    rfl

/-- Every arithmetic instruction pushes what the integers give for its operands. -/
theorem arithmetic_computes_integers :
    Computes₂ div Word.Integers.div ∧ Computes₂ sdiv Word.Integers.sdiv ∧
      Computes₂ modu Word.Integers.mod ∧ Computes₂ smod Word.Integers.smod ∧
      Computes₃ addmod Word.Integers.addmod ∧ Computes₃ mulmod Word.Integers.mulmod ∧
      Computes₂ exp Word.Integers.exp ∧ Computes₂ signextend Word.Integers.signextend ∧
      Computes₂ byte Word.Integers.byte ∧ Computes₂ shl Word.Integers.shl ∧
      Computes₂ shr Word.Integers.shr ∧ Computes₂ sar Word.Integers.sar := by
  refine ⟨?_, ?_, ?_, ?_, ?_, ?_, ?_, ?_, ?_, ?_, ?_, ?_⟩
  · exact computes₂_binary Word.unsignedDiv_eq_integers
  · exact computes₂_binary Word.signedDiv_eq_integers
  · exact computes₂_binary Word.unsignedRem_eq_integers
  · exact computes₂_binary Word.signedRem_eq_integers
  · exact computes₃_ternary fun a b m => (Word.modular_eq_integers a b m).1
  · exact computes₃_ternary fun a b m => (Word.modular_eq_integers a b m).2
  · exact computes₂_binary Word.exp_eq_integers
  · exact computes₂_binary Word.signExtend_eq_integers
  · exact computes₂_binary byteAt_eq_integers
  · exact computes₂_binary Word.shl_eq_integers
  · exact computes₂_binary Word.shr_eq_integers
  · exact computes₂_binary Word.sar_eq_integers

/-- A quotient of two negative numbers, over what else is on the stack. -/
theorem sdiv_sample : OpcodesA.sdiv MemorySample.host
    { MemorySample.frame [] with stack := [-7, -2, 9] } =
      (.ok .continue, { MemorySample.frame [] with stack := [3, 9] }) :=
  arithmetic_computes_integers.2.1 _ { MemorySample.frame [] with stack := [-7, -2, 9] } (-7) (-2)
    [9] rfl (by decide)

/-- The one quotient that leaves the range wraps around to the least word. -/
example : Word.Integers.sdiv (BitVec.intMin 256) (-1) = BitVec.intMin 256 := by decide

/-! ## The opcodes -/

/-- The instructions of two operands, with what they compute. -/
def binaries : List (UInt8 × (Word → Word → Word)) :=
  [(0x04, Word.Integers.div), (0x05, Word.Integers.sdiv), (0x06, Word.Integers.mod),
    (0x07, Word.Integers.smod), (0x0a, Word.Integers.exp), (0x0b, Word.Integers.signextend),
    (0x1a, Word.Integers.byte), (0x1b, Word.Integers.shl), (0x1c, Word.Integers.shr),
    (0x1d, Word.Integers.sar)]

/-- The instructions of three operands, with what they compute. -/
def ternaries : List (UInt8 × (Word → Word → Word → Word)) :=
  [(0x08, Word.Integers.addmod), (0x09, Word.Integers.mulmod)]

theorem lookup_binaries : ∀ row ∈ binaries, ∃ operation, integration.lookup row.1 = some operation ∧
    Computes₂ operation.execute row.2 := by
  simp only [binaries, List.forall_mem_cons, List.not_mem_nil, false_imp_iff, implies_true,
    and_true]
  exact ⟨⟨_, rfl, computes₂_binary Word.unsignedDiv_eq_integers⟩,
    ⟨_, rfl, computes₂_binary Word.signedDiv_eq_integers⟩,
    ⟨_, rfl, computes₂_binary Word.unsignedRem_eq_integers⟩,
    ⟨_, rfl, computes₂_binary Word.signedRem_eq_integers⟩,
    ⟨_, rfl, computes₂_binary Word.exp_eq_integers⟩,
    ⟨_, rfl, computes₂_binary Word.signExtend_eq_integers⟩,
    ⟨_, rfl, computes₂_binary byteAt_eq_integers⟩, ⟨_, rfl, computes₂_binary Word.shl_eq_integers⟩,
    ⟨_, rfl, computes₂_binary Word.shr_eq_integers⟩,
    ⟨_, rfl, computes₂_binary Word.sar_eq_integers⟩⟩

theorem lookup_ternaries : ∀ row ∈ ternaries, ∃ operation,
    integration.lookup row.1 = some operation ∧ Computes₃ operation.execute row.2 := by
  simp only [ternaries, List.forall_mem_cons, List.not_mem_nil, false_imp_iff, implies_true,
    and_true]
  exact ⟨⟨_, rfl, computes₃_ternary fun a b m => (Word.modular_eq_integers a b m).1⟩,
    ⟨_, rfl, computes₃_ternary fun a b m => (Word.modular_eq_integers a b m).2⟩⟩

variable {host : Host} {check : Nat} {c c' : OperationContext} {cost : Int}
  {control : OperationControl} {a b m : Word} {rest : Stack1024}

/-- **An arithmetic opcode in a frame** replaces two operands by what the integers give, and is
charged. -/
theorem step_binary {row : UInt8 × (Word → Word → Word)} (hrow : row ∈ binaries)
    (hs : c.stack = a :: b :: rest) (hl : c.stack.length ≤ stackLimit)
    (h : step host check row.1 c = (.ok (cost, control), c')) :
    control = .continue ∧ ∃ energy, c' = { c with energy, stack := row.2 a b :: rest } := by
  obtain ⟨operation, hr, -, -, energy, hexec⟩ := step_eq_ok h
  obtain ⟨operation', hlookup, hcomputes⟩ := lookup_binaries row hrow
  obtain ⟨hfound, -⟩ := Option.filter_eq_some_iff.mp hr
  cases hfound.symm.trans hlookup
  cases (hcomputes host { c with energy } a b rest hs hl).symm.trans hexec
  exact ⟨rfl, energy, rfl⟩

theorem step_ternary {row : UInt8 × (Word → Word → Word → Word)} (hrow : row ∈ ternaries)
    (hs : c.stack = a :: b :: m :: rest) (hl : c.stack.length ≤ stackLimit)
    (h : step host check row.1 c = (.ok (cost, control), c')) :
    control = .continue ∧ ∃ energy, c' = { c with energy, stack := row.2 a b m :: rest } := by
  obtain ⟨operation, hr, -, -, energy, hexec⟩ := step_eq_ok h
  obtain ⟨operation', hlookup, hcomputes⟩ := lookup_ternaries row hrow
  obtain ⟨hfound, -⟩ := Option.filter_eq_some_iff.mp hr
  cases hfound.symm.trans hlookup
  cases (hcomputes host { c with energy } a b m rest hs hl).symm.trans hexec
  exact ⟨rfl, energy, rfl⟩

end RustTron.Tvm.OpcodesA
