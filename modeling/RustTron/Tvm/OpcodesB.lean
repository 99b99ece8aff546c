import RustTron.Tvm.Opcode

/-!
# Stack, memory, storage, control, log and halting instructions

The second family of instructions. Those that jump or push constants move the program counter,
those of storage and of logs write the repository and the effects; the others work on the stack and
the memory alone.

## Main definitions

* `memoryEnd`, `memoryDelta`: the energy of reaching into the memory
* `storageValue`: a slot of the contract under execution
* `specs`: the rows of the table
-/

namespace RustTron.Tvm.OpcodesB

open EnergyMeter (checked)

/-! ## Energy -/

def memoryEnd (offset size : Word) : Nat :=
  if size.toI32Safe = 0 then 0 else offset.toI32Safe + size.toI32Safe

def memoryDelta (c : OperationContext) (last : Nat) : Faulting Int :=
  if last = 0 ∨ last ≤ c.memory.softLen then .ok 0
  else EnergyMeter.memoryDelta c.memory.softLen last

/-- `energy_memory`, of an instruction that reaches `size` bytes. -/
def energyMemory (size : Word) : EnergyFn := fun _ c => do
  let offset ← c.stack.peek 0
  let delta ← memoryDelta c (memoryEnd offset size)
  checked (delta + if c.rules.higherCpuMemory then 1 else 0) .outOfEnergy

def storageValue (host : Host) (c : OperationContext) (slot : Word) : Option Word :=
  c.repository.storage host.keccak256 c.frame.contextAddress slot c.frame.contractVersion none

def energySstore : EnergyFn := fun host c => do
  let slot ← c.stack.peek 0
  let new ← c.stack.peek 1
  pure (if storageValue host c slot = none ∧ new ≠ 0 then 20000 else 5000)

/-- A result whose fault, whatever it is, counts as too little energy. -/
def orOutOfEnergy : Faulting Int → Faulting Int
  | .ok value => .ok value
  | .error _ => .error .outOfEnergy

def energyMcopy : EnergyFn := fun _ c => do
  let dst ← c.stack.peek 0
  let src ← c.stack.peek 1
  let size ← c.stack.peek 2
  let delta ← memoryDelta c (memoryEnd (if dst > src then dst else src) size)
  let words : Int := ((size.toI32Safe + 31) / 32 : Nat)
  let extended ← checked (3 + delta) .outOfEnergy
  let copied ← checked (words * 3) .outOfEnergy
  checked (extended + copied) .outOfEnergy

/-- `energy_log`, of an instruction with so many topics. -/
def energyLog (topics : Nat) : EnergyFn := fun _ c => do
  let size ← c.stack.peek 1
  let offset := match c.stack.peek 0 with
    | .ok offset => offset
    | .error _ => BitVec.allOnes 256
  let data ← checked (size.toI32Safe * 8) .outOfEnergy
  let logged ← checked (375 + topics * 375 + data) .outOfEnergy
  let delta ← orOutOfEnergy (memoryDelta c (memoryEnd offset size))
  checked (logged + delta) .outOfEnergy

def energyReturn : EnergyFn := fun _ c => do
  let offset ← c.stack.peek 0
  let size ← c.stack.peek 1
  memoryDelta c (memoryEnd offset size)

/-! ## Stack and memory -/

/-- `STOP`: `execute_stop`. -/
def stop : ExecuteFn := onScratch fun _ _ => pure (.halt [])

/-- `POP`. -/
def popTop : ExecuteFn := onScratch fun _ _ => do
  let _ ← pop
  pure .continue

def mload : ExecuteFn := onScratch fun _ _ => do
  let o ← pop
  let bytes ← readMemory o.toI32Safe 32
  pushed (Word.fromBeBytes bytes)

def mstore : ExecuteFn := onScratch fun _ _ => do
  let o ← pop
  let v ← pop
  onMemory fun m => m.write o.toI32Safe v.toBeBytes
  pure .continue

def mstore8 : ExecuteFn := onScratch fun _ _ => do
  let o ← pop
  let v ← pop
  onMemory fun m => m.write o.toI32Safe (v.toBeBytes.drop 31)
  pure .continue

def mcopy : ExecuteFn := onScratch fun _ _ => do
  let d ← pop
  let s ← pop
  let n ← pop
  onMemory fun m => m.copyWithin d.toI32Safe s.toI32Safe n.toI32Safe
  pure .continue

/-- An instruction that pushes a value of its context. -/
def constant (f : OperationContext → Word) : ExecuteFn := onScratch fun _ c => pushed (f c)

def pc : ExecuteFn := constant fun c => Word.ofLength (c.program.pc - 1)
def msize : ExecuteFn := constant fun c => Word.ofLength c.memory.softLen
def gas : ExecuteFn := constant fun c => Word.ofI64 c.energy.remaining
def push0 : ExecuteFn := constant fun _ => 0
def jumpdest : ExecuteFn := onScratch fun _ _ => pure .continue

def dup (n : Nat) : ExecuteFn := onScratch fun _ c => do
  let v ← lift (c.stack.peek n)
  pushed v

def swap (n : Nat) : ExecuteFn := onScratch fun _ _ => do
  let s ← get
  let stack ← lift (s.stack.swap n)
  set { s with stack }
  pure .continue

def sload : ExecuteFn := onScratch fun host c => do
  let k ← pop
  pushed ((storageValue host c k).getD 0)

def tload : ExecuteFn := onScratch fun _ c => do
  let k ← pop
  pushed (c.repository.transient c.frame.contextAddress k)

/-- `RETURN`: `execute_return`. -/
def executeReturn : ExecuteFn := onScratch fun _ _ => do
  let o ← pop
  let n ← pop
  let data ← readMemory o.toI32Safe n.toI32Safe
  pure (.halt data)

/-- `REVERT`: `execute_revert`. -/
def executeRevert : ExecuteFn := onScratch fun _ _ => do
  let o ← pop
  let n ← pop
  let data ← readMemory o.toI32Safe n.toI32Safe
  pure (.revert data)

/-! ## The program -/

/-- Go on at a jump destination. -/
def jumpTo (target : Nat) : Prog OperationContext VmFault Unit := fun c =>
  match c.program.jump target with
  | .ok program => (.ok (), { c with program })
  | .error e => (.error e, c)

def jump : ExecuteFn := fun _ => do
  let p ← scratch pop
  jumpTo p.toI32Safe
  pure .continue

def jumpi : ExecuteFn := fun _ => do
  let p ← scratch pop
  let condition ← scratch pop
  if condition ≠ 0 then jumpTo p.toI32Safe
  pure .continue

/-- `PUSH1` to `PUSH32`. -/
def pushConstant (count : Nat) : ExecuteFn := fun _ => do
  let c ← get
  let (value, program) := c.program.readPush count
  set { c with program }
  scratch (pushed value)

/-! ## Storage and logs -/

def sstore : ExecuteFn := fun host => do
  staticGuard
  let k ← scratch pop
  let v ← scratch pop
  modify fun c =>
    { c with
      repository := c.repository.setStorage host.keccak256 c.frame.contextAddress k v
        c.frame.contractVersion none }
  pure .continue

def tstore : ExecuteFn := fun _ => do
  staticGuard
  let k ← scratch pop
  let v ← scratch pop
  modify fun c => { c with repository := c.repository.setTransient c.frame.contextAddress k v }
  pure .continue

/-- The topics of a log. -/
def popTopics : Nat → Prog Scratch VmFault (List Bytes)
  | 0 => pure []
  | n + 1 => do
    let topic ← pop
    let topics ← popTopics n
    pure (topic.toBeBytes :: topics)

/-- `LOG0` to `LOG4`. -/
def log (topics : Nat) : ExecuteFn := fun _ => do
  staticGuard
  let offset ← scratch pop
  let size ← scratch pop
  let topics ← scratch (popTopics topics)
  let data ← scratch (readMemory offset.toI32Safe size.toI32Safe)
  modify fun c =>
    { c with
      effects := { c.effects with
        logs := c.effects.logs ++ [⟨c.frame.contextAddress.drop 1, topics, data⟩] } }
  pure .continue

/-! ## The table -/

/-- The rows of the instructions with their own opcodes. -/
def singleSpecs : List (UInt8 × Operation) :=
  [(0x00, ⟨0, 0, fun _ => true, fixed 0, stop⟩),
    (0x50, ⟨1, 0, fun _ => true, fixed 2, popTop⟩),
    (0x51, ⟨1, 1, fun _ => true, energyMemory 32, mload⟩),
    (0x52, ⟨2, 0, fun _ => true, energyMemory 32, mstore⟩),
    (0x53, ⟨2, 0, fun _ => true, energyMemory 1, mstore8⟩),
    (0x54, ⟨1, 1, fun _ => true, fixed 50, sload⟩),
    (0x55, ⟨2, 0, fun _ => true, energySstore, sstore⟩),
    (0x56, ⟨1, 0, fun _ => true, fixed 8, jump⟩),
    (0x57, ⟨2, 0, fun _ => true, fixed 10, jumpi⟩),
    (0x58, ⟨0, 1, fun _ => true, fixed 2, pc⟩),
    (0x59, ⟨0, 1, fun _ => true, fixed 2, msize⟩),
    (0x5a, ⟨0, 1, fun _ => true, fixed 2, gas⟩),
    (0x5b, ⟨0, 0, fun _ => true, fixed 1, jumpdest⟩),
    (0x5c, ⟨1, 1, fun r => r.cancun, fixed 100, tload⟩),
    (0x5d, ⟨2, 0, fun r => r.cancun, fixed 100, tstore⟩),
    (0x5e, ⟨3, 0, fun r => r.cancun, energyMcopy, mcopy⟩),
    (0x5f, ⟨0, 1, fun r => r.shanghai, fixed 2, push0⟩),
    (0xf3, ⟨2, 0, fun _ => true, energyReturn, executeReturn⟩),
    (0xfd, ⟨2, 0, fun _ => true, energyReturn, executeRevert⟩)]

/-- The rows of this family. -/
def specs : List (UInt8 × Operation) :=
  singleSpecs ++
    ((List.range 32).map fun i =>
      (UInt8.ofNat (0x60 + i), ⟨0, 1, fun _ => true, fixed 3, pushConstant (i + 1)⟩)) ++
    ((List.range 16).map fun i =>
      (UInt8.ofNat (0x80 + i), ⟨i + 1, i + 2, fun _ => true, fixed 3, dup i⟩)) ++
    ((List.range 16).map fun i =>
      (UInt8.ofNat (0x90 + i), ⟨i + 2, i + 2, fun _ => true, fixed 3, swap (i + 1)⟩)) ++
    ((List.range 5).map fun i =>
      (UInt8.ofNat (0xa0 + i), ⟨i + 2, 0, fun _ => true, energyLog i, log i⟩))

end RustTron.Tvm.OpcodesB
