import RustTron.Tvm.Opcode

/-!
# Arithmetic, comparison, environment and block instructions

The first family of instructions. All of them work on the stack and the memory alone.

## Main definitions

* `memEnergy`: the energy of an instruction that reaches into the memory
* `specs`: the rows of the table
-/

namespace RustTron.Tvm.OpcodesA

open EnergyMeter (memoryDelta checked)

/-! ## Energy -/

def expEnergy : EnergyFn := fun _ c => do
  let exponent ← c.stack.peek 1
  pure (10 + 10 * exponent.bytesOccupied)

/-- `mem_energy`: the memory is charged as if it were extended to the end of the range, where the
range is not empty. -/
def memEnergy (c : OperationContext) (off size : Word) (base perWord : Int) : Faulting Int := do
  let o := off.toI32Safe
  let n := size.toI32Safe
  let last ←
    (if n = 0 then .ok c.memory.softLen
    else if o + n > memoryLimit then .error .outOfMemory
    else .ok (o + n))
  let delta ← memoryDelta c.memory.softLen last
  let words : Int := ((n + 31) / 32 : Nat)
  let extended ← checked (base + delta) .outOfEnergy
  let copied ← checked (words * perWord) .outOfEnergy
  checked (extended + copied) .outOfEnergy

def sha3Energy : EnergyFn := fun _ c => do
  let off ← c.stack.peek 0
  let size ← c.stack.peek 1
  memEnergy c off size 30 6

/-- `copy_energy`, and `retcopy_energy`. -/
def copyEnergy : EnergyFn := fun _ c => do
  let off ← c.stack.peek 0
  let size ← c.stack.peek 2
  memEnergy c off size 0 3

def extcopyEnergy : EnergyFn := fun _ c => do
  let off ← c.stack.peek 1
  let size ← c.stack.peek 3
  memEnergy c off size 20 3

/-! ## Arithmetic -/

/-- An instruction of one operand. -/
def unary (f : Word → Word) : ExecuteFn := onScratch fun _ _ => do
  let a ← pop
  pushed (f a)

def binary (f : Word → Word → Word) : ExecuteFn := onScratch fun _ _ => do
  let a ← pop
  let b ← pop
  pushed (f a b)

/-- An instruction of three operands. -/
def ternary (f : Word → Word → Word → Word) : ExecuteFn := onScratch fun _ _ => do
  let a ← pop
  let b ← pop
  let m ← pop
  pushed (f a b m)

/-- The byte that `BYTE` pushes. -/
def byteAt (i v : Word) : Word :=
  if i < 32 then Word.ofLength ((v.toBeBytes.getD i.toNat 0).toNat) else 0

def add : ExecuteFn := binary fun a b => a + b
def mul : ExecuteFn := binary fun a b => a * b
def sub : ExecuteFn := binary fun a b => a - b
def div : ExecuteFn := binary Word.unsignedDiv
def sdiv : ExecuteFn := binary Word.signedDiv
def modu : ExecuteFn := binary Word.unsignedRem
def smod : ExecuteFn := binary Word.signedRem
def addmod : ExecuteFn := ternary fun a b m => Word.modular a b m false
def mulmod : ExecuteFn := ternary fun a b m => Word.modular a b m true
def exp : ExecuteFn := binary Word.exp
def signextend : ExecuteFn := binary fun k v => v.signExtend k
def lt : ExecuteFn := binary fun a b => Word.ofBool (a < b)
def gt : ExecuteFn := binary fun a b => Word.ofBool (a > b)
def slt : ExecuteFn := binary fun a b => Word.ofBool (a.signedCmp b = .lt)
def sgt : ExecuteFn := binary fun a b => Word.ofBool (a.signedCmp b = .gt)
def eq : ExecuteFn := binary fun a b => Word.ofBool (a = b)
def iszero : ExecuteFn := unary fun a => Word.ofBool (a = 0)
def and : ExecuteFn := binary fun a b => a &&& b
def or : ExecuteFn := binary fun a b => a ||| b
def xor : ExecuteFn := binary fun a b => a ^^^ b
def not : ExecuteFn := unary fun a => ~~~a
def byte : ExecuteFn := binary byteAt
def shl : ExecuteFn := binary fun s v => v.shl s
def shr : ExecuteFn := binary fun s v => v.shr s
def sar : ExecuteFn := binary fun s v => v.sar s
def clz : ExecuteFn := unary fun v => Word.ofLength v.leadingZeros

def sha3 : ExecuteFn := onScratch fun host _ => do
  let o ← pop
  let n ← pop
  let data ← readMemory o.toI32Safe n.toI32Safe
  pushed (Word.fromBeBytes (host.keccak256 data).bytes)

/-! ## Environment -/

/-- An instruction that pushes a value of its context. -/
def constant (f : OperationContext → Word) : ExecuteFn := onScratch fun _ c => pushed (f c)

def addrWord (bytes : Bytes) (last20 : Bool) : Word :=
  Word.fromBeBytes (if last20 ∧ bytes.length > 20 then bytes.drop (bytes.length - 20) else bytes)

/-- A property as a word; a missing or malformed one is zero. -/
def dynamic (c : OperationContext) (p : Property) : Int :=
  match c.repository.dynamicI64 p with
  | .ok (some value) => value
  | _ => 0

def address : ExecuteFn := constant fun c => addrWord c.frame.contextAddress c.rules.multiSign
def origin : ExecuteFn := constant fun c => addrWord c.frame.origin c.rules.multiSign
def caller : ExecuteFn := constant fun c => addrWord c.frame.caller true
def callvalue : ExecuteFn := constant fun c => c.frame.callValue
def calldatasize : ExecuteFn := constant fun c => Word.ofLength c.frame.input.length
def codesize : ExecuteFn := constant fun c => Word.ofLength c.program.code.length
def returndatasize : ExecuteFn := constant fun c => Word.ofLength c.effects.returnData.length
def selfbalance : ExecuteFn :=
  constant fun c => Word.ofI64 (c.repository.balance c.frame.contextAddress)
def gasprice : ExecuteFn := constant fun c =>
  if c.rules.compatibleEvm ∧ c.frame.contractVersion = 1 then Word.ofI64 (dynamic c .energyFee) else 0
def basefee : ExecuteFn := constant fun c => Word.ofI64 (dynamic c .energyFee)

def balance : ExecuteFn := onScratch fun _ c => do
  let a ← pop
  pushed (Word.ofI64 (c.repository.balance a.toTronAddress))

def calldataload : ExecuteFn := onScratch fun _ c => do
  let o ← pop
  let bytes := (c.frame.input.drop o.toI32Safe).take 32
  pushed (Word.fromBeBytes (bytes ++ List.replicate (32 - bytes.length) 0))

def copyToMemory (destination sourceOffset size : Word) (source : Bytes) :
    Prog Scratch VmFault Unit :=
  onMemory fun m =>
    m.writePadded destination.toI32Safe size.toI32Safe source sourceOffset.toI32Safe

/-- An instruction that copies from a byte string to the memory. -/
def copy (source : OperationContext → Bytes) : ExecuteFn := onScratch fun _ c => do
  let m ← pop
  let o ← pop
  let n ← pop
  copyToMemory m o n (source c)
  pure .continue

def calldatacopy : ExecuteFn := copy fun c => c.frame.input
def codecopy : ExecuteFn := copy fun c => c.program.code

/-- `returndatacopy`: unlike the others it does not read past the end. -/
def returndatacopy : ExecuteFn := onScratch fun _ c => do
  let m ← pop
  let o ← pop
  let n ← pop
  let last := o.toI32Safe + n.toI32Safe
  if last > c.effects.returnData.length then throw .returnDataBounds
  onMemory fun memory => memory.write m.toI32Safe
    ((c.effects.returnData.drop o.toI32Safe).take n.toI32Safe)
  pure .continue

def extcodesize : ExecuteFn := onScratch fun _ c => do
  let a ← pop
  pushed (Word.ofLength ((c.repository.code a.toTronAddress).getD []).length)

def extcodecopy : ExecuteFn := onScratch fun _ c => do
  let a ← pop
  let m ← pop
  let o ← pop
  let n ← pop
  copyToMemory m o n ((c.repository.code a.toTronAddress).getD [])
  pure .continue

def extcodehash : ExecuteFn := onScratch fun host c => do
  let a ← pop
  pushed
    (match c.repository.account a.toTronAddress with
    | none => 0
    | some _ =>
      Word.fromBeBytes (host.keccak256 ((c.repository.code a.toTronAddress).getD [])).bytes)

/-! ## Blocks -/

def blockId (c : OperationContext) (n : Int) : Option Bytes := c.repository.raw (.blockIndex n)

def blockhash : ExecuteFn := onScratch fun _ c => do
  let word ← pop
  let n : Int := word.toI32Safe
  let cur := c.rules.latestBlockNumber
  let lower := if c.rules.disableJavaMath then max cur 256 - 256 else max (cur - 256) i64Min
  pushed
    (if n < cur ∧ n ≥ lower then
      match blockId c n with
      | some id => if id.length = 32 then Word.fromBeBytes id else 0
      | none => 0
    else 0)

/-- `coinbase`: the witness of the latest block. -/
def coinbase : ExecuteFn := constant fun c =>
  addrWord (((blockId c c.rules.latestBlockNumber).bind fun id =>
    c.repository.raw (.block id)).getD []) false

def timestamp : ExecuteFn :=
  constant fun c => Word.ofI64 ((dynamic c .latestBlockHeaderTimestamp).tdiv 1000)

def number : ExecuteFn := constant fun c => Word.ofI64 c.rules.latestBlockNumber

def zero : ExecuteFn := constant fun _ => 0

def chainid : ExecuteFn := constant fun c =>
  let id := (blockId c 0).getD []
  addrWord (if c.rules.compatibleEvm ∨ c.rules.optimizedChainId then id.drop (id.length - 4) else id)
    false

def blobhash : ExecuteFn := unary fun _ => 0

/-! ## The table -/

/-- The rows of this family. -/
def specs : List (UInt8 × Operation) :=
  [(0x01, ⟨2, 1, fun _ => true, fixed 3, add⟩),
    (0x02, ⟨2, 1, fun _ => true, fixed 5, mul⟩),
    (0x03, ⟨2, 1, fun _ => true, fixed 3, sub⟩),
    (0x04, ⟨2, 1, fun _ => true, fixed 5, div⟩),
    (0x05, ⟨2, 1, fun _ => true, fixed 5, sdiv⟩),
    (0x06, ⟨2, 1, fun _ => true, fixed 5, modu⟩),
    (0x07, ⟨2, 1, fun _ => true, fixed 5, smod⟩),
    (0x08, ⟨3, 1, fun _ => true, fixed 8, addmod⟩),
    (0x09, ⟨3, 1, fun _ => true, fixed 8, mulmod⟩),
    (0x0a, ⟨2, 1, fun _ => true, expEnergy, exp⟩),
    (0x0b, ⟨2, 1, fun _ => true, fixed 5, signextend⟩),
    (0x10, ⟨2, 1, fun _ => true, fixed 3, lt⟩),
    (0x11, ⟨2, 1, fun _ => true, fixed 3, gt⟩),
    (0x12, ⟨2, 1, fun _ => true, fixed 3, slt⟩),
    (0x13, ⟨2, 1, fun _ => true, fixed 3, sgt⟩),
    (0x14, ⟨2, 1, fun _ => true, fixed 3, eq⟩),
    (0x15, ⟨1, 1, fun _ => true, fixed 3, iszero⟩),
    (0x16, ⟨2, 1, fun _ => true, fixed 3, and⟩),
    (0x17, ⟨2, 1, fun _ => true, fixed 3, or⟩),
    (0x18, ⟨2, 1, fun _ => true, fixed 3, xor⟩),
    (0x19, ⟨1, 1, fun _ => true, fixed 3, not⟩),
    (0x1a, ⟨2, 1, fun _ => true, fixed 3, byte⟩),
    (0x1b, ⟨2, 1, fun r => r.constantinople, fixed 3, shl⟩),
    (0x1c, ⟨2, 1, fun r => r.constantinople, fixed 3, shr⟩),
    (0x1d, ⟨2, 1, fun r => r.constantinople, fixed 3, sar⟩),
    (0x1e, ⟨1, 1, fun r => r.osaka, fixed 5, clz⟩),
    (0x20, ⟨2, 1, fun _ => true, sha3Energy, sha3⟩),
    (0x30, ⟨0, 1, fun _ => true, fixed 2, address⟩),
    (0x31, ⟨1, 1, fun _ => true, fixed 20, balance⟩),
    (0x32, ⟨0, 1, fun _ => true, fixed 2, origin⟩),
    (0x33, ⟨0, 1, fun _ => true, fixed 2, caller⟩),
    (0x34, ⟨0, 1, fun _ => true, fixed 2, callvalue⟩),
    (0x35, ⟨1, 1, fun _ => true, fixed 3, calldataload⟩),
    (0x36, ⟨0, 1, fun _ => true, fixed 2, calldatasize⟩),
    (0x37, ⟨3, 0, fun _ => true, copyEnergy, calldatacopy⟩),
    (0x38, ⟨0, 1, fun _ => true, fixed 2, codesize⟩),
    (0x39, ⟨3, 0, fun _ => true, copyEnergy, codecopy⟩),
    (0x3a, ⟨0, 1, fun _ => true, fixed 2, gasprice⟩),
    (0x3b, ⟨1, 1, fun _ => true, fixed 20, extcodesize⟩),
    (0x3c, ⟨4, 0, fun _ => true, extcopyEnergy, extcodecopy⟩),
    (0x3d, ⟨0, 1, fun _ => true, fixed 2, returndatasize⟩),
    (0x3e, ⟨3, 0, fun _ => true, copyEnergy, returndatacopy⟩),
    (0x3f, ⟨1, 1, fun r => r.constantinople, fixed 400, extcodehash⟩),
    (0x40, ⟨1, 1, fun _ => true, fixed 20, blockhash⟩),
    (0x41, ⟨0, 1, fun _ => true, fixed 2, coinbase⟩),
    (0x42, ⟨0, 1, fun _ => true, fixed 2, timestamp⟩),
    (0x43, ⟨0, 1, fun _ => true, fixed 2, number⟩),
    (0x44, ⟨0, 1, fun _ => true, fixed 2, zero⟩),
    (0x45, ⟨0, 1, fun _ => true, fixed 2, zero⟩),
    (0x46, ⟨0, 1, fun r => r.istanbul, fixed 2, chainid⟩),
    (0x47, ⟨0, 1, fun r => r.istanbul, fixed 5, selfbalance⟩),
    (0x48, ⟨0, 1, fun r => r.london, fixed 2, basefee⟩),
    (0x49, ⟨1, 1, fun r => r.blob, fixed 3, blobhash⟩),
    (0x4a, ⟨0, 1, fun r => r.blob, fixed 2, zero⟩)]

end RustTron.Tvm.OpcodesA
