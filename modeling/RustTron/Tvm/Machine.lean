import RustTron.Library.Prog
import RustTron.Primitives.Word

/-!
# The machine under the interpreter

The stack, the memory and the program of a frame, and the meter of its energy. Each operation
either succeeds or faults; a meter that faults keeps what it has charged.

## Main definitions

* `VmFault`, `ExitStatus`: how a frame ends
* `Stack1024`, `Memory`, `Program`: what a frame computes on
* `EnergyMeter`: the limit of a frame and the energy used

## Main results

* `EnergyMeter.spend_run`: what a meter charges
-/

namespace RustTron.Tvm

/-! ## Faults -/

inductive VmFault where
  | illegalOperation
  | outOfEnergy
  | badJumpDestination
  | outOfTime
  | outOfMemory
  | precompiledContract
  | stackTooSmall
  | stackTooLarge
  | jvmStackOverflow
  | transferFailed
  | invalidCode
  | staticViolation
  | returnDataBounds
  | outOfStorage
  | arithmetic
  | other
  deriving DecidableEq, Repr

inductive ExitStatus where
  | succeeded
  | reverted
  | faulted (fault : VmFault)
  deriving DecidableEq, Repr

/-- `Result<α, VmFault>`. -/
abbrev Faulting (α : Type) : Type := Except VmFault α

/-! ## The stack -/

def stackLimit : Nat := 1024

/-- `Stack1024`, the top of the stack first. -/
abbrev Stack1024 : Type := List Word

namespace Stack1024

def checkShape (stack : Stack1024) (required resulting : Nat) : Faulting Unit :=
  if stack.length < required then .error .stackTooSmall
  else if stack.length - required + resulting > stackLimit then .error .stackTooLarge
  else .ok ()

def push (stack : Stack1024) (value : Word) : Faulting Stack1024 :=
  if stack.length = stackLimit then .error .stackTooLarge else .ok (value :: stack)

def pop : Stack1024 → Faulting (Word × Stack1024)
  | [] => .error .stackTooSmall
  | value :: stack => .ok (value, stack)

def peek (stack : Stack1024) (indexFromTop : Nat) : Faulting Word :=
  match stack[indexFromTop]? with
  | some value => .ok value
  | none => .error .stackTooSmall

def swap (stack : Stack1024) (indexFromTop : Nat) : Faulting Stack1024 :=
  match stack[0]?, stack[indexFromTop]? with
  | some top, some other => .ok ((stack.set 0 other).set indexFromTop top)
  | _, _ => .error .stackTooSmall

end Stack1024

/-! ## Memory -/

def memoryLimit : Nat := 3 * 1024 * 1024

/-- `Memory`: the bytes, and the length that programs see and pay for. -/
structure Memory where
  bytes : Bytes := []
  softLen : Nat := 0
  deriving DecidableEq, Repr

namespace Memory

def expand (m : Memory) (offset size : Nat) : Faulting Memory :=
  if size = 0 then .ok m
  else
    let last := offset + size
    if last > memoryLimit then .error .outOfMemory
    else
      let soft := (last + 31) / 32 * 32
      let physical := (last + 1023) / 1024 * 1024
      .ok
        { bytes := m.bytes ++ List.replicate (physical - m.bytes.length) 0
          softLen := max m.softLen soft }

/-- The bytes with `data` at an offset. -/
def splice (bytes : Bytes) (offset : Nat) (data : Bytes) : Bytes :=
  bytes.take offset ++ data ++ bytes.drop (offset + data.length)

def write (m : Memory) (offset : Nat) (data : Bytes) : Faulting Memory := do
  let m ← m.expand offset data.length
  pure (if data = [] then m else { m with bytes := splice m.bytes offset data })

/-- `write_padded`: the part of `source` from its offset, with zeros after its end. -/
def writePadded (m : Memory) (offset size : Nat) (source : Bytes) (sourceOffset : Nat) :
    Faulting Memory := do
  let m ← m.expand offset size
  if size = 0 then pure m
  else
    let copied := (source.drop sourceOffset).take size
    let data := copied ++ List.replicate (size - copied.length) 0
    pure { m with bytes := splice m.bytes offset data }

def read (m : Memory) (offset size : Nat) : Faulting (Bytes × Memory) := do
  let m ← m.expand offset size
  pure (if size = 0 then [] else (m.bytes.drop offset).take size, m)

def copyWithin (m : Memory) (dst src size : Nat) : Faulting Memory :=
  if size = 0 then .ok m
  else do
    let m ← m.expand src size
    let m ← m.expand dst size
    pure { m with bytes := splice m.bytes dst ((m.bytes.drop src).take size) }

end Memory

/-! ## Programs -/

/-- The jump destinations of the code from position `i` on, of which `skip` bytes belong to a
`PUSH`. -/
def jumpdestsFrom (i skip : Nat) : Bytes → List Nat
  | [] => []
  | op :: code =>
    match skip with
    | skip + 1 => jumpdestsFrom (i + 1) skip code
    | 0 =>
      let rest :=
        jumpdestsFrom (i + 1) (if 0x60 ≤ op ∧ op ≤ 0x7f then op.toNat - 0x5f else 0) code
      if op = 0x5b then i :: rest else rest

structure Program where
  code : Bytes
  pc : Nat
  jumpdests : List Nat
  deriving DecidableEq, Repr

namespace Program

def new (code : Bytes) : Program := ⟨code, 0, jumpdestsFrom 0 0 code⟩

def isJumpdest (p : Program) (pc : Nat) : Bool := p.jumpdests.contains pc

def jump (p : Program) (pc : Nat) : Faulting Program :=
  if p.isJumpdest pc then .ok { p with pc } else .error .badJumpDestination

def nextOpcode (p : Program) : Option (UInt8 × Program) :=
  p.code[p.pc]?.map fun op => (op, { p with pc := p.pc + 1 })

/-- `read_push`: the bytes after the opcode, with zeros after the end of the code. -/
def readPush (p : Program) (count : Nat) : Word × Program :=
  let available := (p.code.drop p.pc).take count
  (Word.fromBeBytes (available ++ List.replicate (count - available.length) 0),
    { p with pc := p.pc + count })

/-- The opcode under execution, which the program counter has just passed. -/
def current (p : Program) : Faulting UInt8 :=
  match p.code[p.pc - 1]? with
  | some op => .ok op
  | none => .error .illegalOperation

end Program

/-! ## Energy -/

structure EnergyMeter where
  limit : Int
  used : Int
  deriving DecidableEq, Repr

namespace EnergyMeter

/-- `EnergyMeter::new`, of a limit that is not negative. -/
def new (limit : Int) : EnergyMeter := ⟨limit, 0⟩

def remaining (m : EnergyMeter) : Int := m.limit - m.used

/-- `spend`: a charge beyond the limit uses the meter up. -/
def spend (amount : Int) : Prog EnergyMeter VmFault Unit := do
  if amount < 0 then throw .arithmetic
  let m ← get
  if ¬ InI64 (m.used + amount) then throw .outOfEnergy
  if m.used + amount > m.limit then
    set { m with used := m.limit }
    throw .outOfEnergy
  set { m with used := m.used + amount }

def refund (amount : Int) : Prog EnergyMeter VmFault Unit := do
  let m ← get
  if amount < 0 ∨ amount > m.used then throw .arithmetic
  set { m with used := m.used - amount }

def exhaust (m : EnergyMeter) : EnergyMeter := { m with used := m.limit }

/-- A checked result, or a fault. -/
def checked (x : Int) (fault : VmFault) : Faulting Int := if InI64 x then .ok x else .error fault

def memoryCost (bytes : Nat) : Faulting Int := do
  let w : Int := ((bytes + 31) / 32 : Nat)
  let square ← checked (w * w) .outOfEnergy
  let linear ← checked (w * 3) .outOfEnergy
  checked (linear + square / 512) .outOfEnergy

def memoryDelta (oldBytes newBytes : Nat) : Faulting Int := do
  let new ← memoryCost newBytes
  let old ← memoryCost oldBytes
  checked (new - old) .arithmetic

variable {m : EnergyMeter}

/-- The result of a charge, and the meter after it. -/
theorem spend_run (amount : Int) (m : EnergyMeter) : spend amount m =
    if amount < 0 then (.error .arithmetic, m)
    else if ¬ InI64 (m.used + amount) then (.error .outOfEnergy, m)
    else if m.used + amount > m.limit then (.error .outOfEnergy, m.exhaust)
    else (.ok (), { m with used := m.used + amount }) := by
  unfold spend
  by_cases hn : amount < 0
  · simp only [hn, if_true]
    rfl
  · by_cases hf : InI64 (m.used + amount)
    · by_cases hl : m.used + amount > m.limit
      · simp only [hn, hf, hl, if_true, if_false, not_true, Prog.bind_run,
          Prog.get_run, Prog.set_run, Prog.throw_run]
        rfl
      · simp only [hn, hf, hl, if_false, not_true, Prog.bind_run, Prog.get_run,
          Prog.set_run]
    · simp only [hn, hf, if_true, if_false, not_false_eq_true, Prog.bind_run, Prog.get_run,
        Prog.throw_run]

end EnergyMeter

end RustTron.Tvm
