import RustTron.Tvm.Machine
import RustTron.Tvm.Repository

/-!
# Operations of the interpreter

What an instruction works on, and what it gives back: it continues, ends its frame, or asks for a
call or for a creation. Most instructions touch the stack and the memory alone; they are programs
over these two, and read the rest of their context.

## Main definitions

* `TvmRules`, `Host`: the rules in force, and the functions from outside the machine
* `FrameContext`, `OperationEffects`, `OperationContext`: what an instruction works on
* `OperationControl`, `CallRequest`, `CreateRequest`: what it gives back
* `Operation`: a row of the table of instructions
* `onScratch`: an instruction on the stack and the memory, as an instruction
-/

namespace RustTron.Tvm

/-! ## Rules and host -/

/-- `TvmRules`, as far as the instructions ask for them. -/
structure TvmRules where
  multiSign : Bool := false
  transferTrc10 : Bool := false
  constantinople : Bool := false
  solidity059 : Bool := false
  istanbul : Bool := false
  freeze : Bool := false
  vote : Bool := false
  london : Bool := false
  compatibleEvm : Bool := false
  create2DepthTimeout : Bool := false
  higherCpuMemory : Bool := false
  freezeV2 : Bool := false
  optimizedChainId : Bool := false
  shanghai : Bool := false
  energyAdjustment : Bool := false
  cancun : Bool := false
  disableJavaMath : Bool := false
  blob : Bool := false
  selfdestructRestriction : Bool := false
  osaka : Bool := false
  shieldedTrc20 : Bool := false
  latestBlockNumber : Int := 0
  deriving DecidableEq, Repr

/-- A precompiled contract that depends on its input alone. -/
structure PureContract where
  energy : Bytes → TvmRules → Int
  execute : Bytes → TvmRules → Bool × Bytes

/-- What the machine takes from cryptographic libraries, and the clock that may stop it: `limiter`
says what the check before an instruction gives, of all checks of a run the `n`-th. -/
structure Host where
  keccak256 : Bytes → Hash32
  sha256 : Bytes → Hash32
  recover : Bytes → Bytes → Option Bytes
  standard : Bytes → TvmRules → Option PureContract
  modexpForkTimeout : Bytes → Bytes → TvmRules → Bool
  shielded : Nat → Bytes → Bool × Bytes
  cleanAmount : Int → Int → Int → Int
  limiter : Nat → Option VmFault

/-! ## Frames -/

structure FrameContext where
  codeAddress : Bytes
  contextAddress : Bytes
  origin : Bytes
  caller : Bytes
  input : Bytes
  callValue : Word
  tokenValue : Word
  tokenId : Word
  rootTxid : Bytes
  contractVersion : Int
  depth : Nat
  isStatic : Bool
  deriving DecidableEq, Repr

structure TvmLog where
  address : Bytes
  topics : List Bytes
  data : Bytes
  deriving DecidableEq, Repr

structure InternalTransactionRecord where
  parentHash : Hash32
  sender : Bytes
  transferTo : Bytes
  data : Bytes
  value : Word
  tokenInfo : List (Word × Word)
  note : String
  depth : Nat
  index : Nat
  nonce : Int
  rejected : Bool
  hash : Hash32
  deriving DecidableEq

namespace InternalTransactionRecord

/-- The bytes that the hash of a record is taken of: a creation leaves the new address out. -/
def encoded (parentHash : Hash32) (transferTo data : Bytes) (value : Word) (note : String) : Bytes :=
  parentHash.bytes ++ (if note = "create" then [] else transferTo) ++ data ++ be64 value.toI64Safe

def child (keccak256 : Bytes → Hash32) (parentHash : Hash32) (sender transferTo data : Bytes)
    (value : Word) (tokenInfo : List (Word × Word)) (note : String) (depth : Nat) (nonce : Int) :
    InternalTransactionRecord where
  parentHash := parentHash
  sender := sender
  transferTo := transferTo
  data := data
  value := value
  tokenInfo := tokenInfo
  note := note
  depth := depth
  index := nonce.toNat % 2 ^ 32
  nonce := nonce
  rejected := false
  hash := keccak256 (encoded parentHash transferTo data value note ++ be64 nonce)

def reject (tx : InternalTransactionRecord) : InternalTransactionRecord :=
  { tx with rejected := true }

end InternalTransactionRecord

structure OperationEffects where
  returnData : Bytes := []
  logs : List TvmLog := []
  internalTransactions : List InternalTransactionRecord := []
  deletedAccounts : List Bytes := []

structure OperationContext where
  rules : TvmRules
  frame : FrameContext
  program : Program
  stack : Stack1024
  memory : Memory
  effects : OperationEffects
  energy : EnergyMeter
  repository : Repository

/-! ## Requests -/

inductive CallKind where
  | call
  | callCode
  | delegateCall
  | staticCall
  | callToken
  deriving DecidableEq, Repr

structure CallRequest where
  kind : CallKind
  data : Bytes
  destination : Bytes
  energyLimit : Int
  reservedEnergy : Int
  value : Word
  tokenValue : Word
  tokenId : Word
  outputOffset : Nat
  outputSize : Nat
  deriving DecidableEq, Repr

inductive CreateKind where
  | create
  | create2
  deriving DecidableEq, Repr

structure CreateRequest where
  kind : CreateKind
  initCode : Bytes
  energyLimit : Int
  value : Word
  salt : Option Word
  deriving DecidableEq, Repr

inductive OperationControl where
  | continue
  | halt (data : Bytes)
  | revert (data : Bytes)
  | call (request : CallRequest)
  | create (request : CreateRequest)
  | selfDestruct (beneficiary : Bytes)
  deriving DecidableEq, Repr

/-! ## The table of instructions -/

abbrev EnergyFn : Type := Host → OperationContext → Faulting Int

abbrev ExecuteFn : Type := Host → Prog OperationContext VmFault OperationControl

/-- A row of the table of instructions. The variants of an instruction differ in nothing. -/
structure Operation where
  requiredBefore : Nat
  resultingWindow : Nat
  activation : TvmRules → Bool := fun _ => true
  energy : EnergyFn
  execute : ExecuteFn

/-- `fixed`: an instruction of a fixed cost. -/
def fixed (n : Int) : EnergyFn := fun _ _ => .ok n

/-! ## Instructions on the stack and the memory -/

/-- The stack and the memory of a frame. -/
structure Scratch where
  stack : Stack1024
  memory : Memory

/-- Take the top of the stack. -/
def pop : Prog Scratch VmFault Word := fun s =>
  match s.stack.pop with
  | .ok (value, stack) => (.ok value, { s with stack })
  | .error e => (.error e, s)

/-- Push a value. -/
def push (value : Word) : Prog Scratch VmFault Unit := fun s =>
  match s.stack.push value with
  | .ok stack => (.ok (), { s with stack })
  | .error e => (.error e, s)

/-- Push a value and continue. -/
def pushed (value : Word) : Prog Scratch VmFault OperationControl := do
  push value
  pure .continue

/-- An operation on the memory alone. -/
def onMemory (f : Memory → Faulting Memory) : Prog Scratch VmFault Unit := fun s =>
  match f s.memory with
  | .ok memory => (.ok (), { s with memory })
  | .error e => (.error e, s)

/-- Read from the memory. -/
def readMemory (offset size : Nat) : Prog Scratch VmFault Bytes := fun s =>
  match s.memory.read offset size with
  | .ok (bytes, memory) => (.ok bytes, { s with memory })
  | .error e => (.error e, s)

/-- A result that faults or not. -/
def lift {σ α : Type} (x : Faulting α) : Prog σ VmFault α := Prog.ofExcept (fun e => e) x

/-- A program over the stack and the memory, in a context. -/
def scratch {α : Type} (x : Prog Scratch VmFault α) : Prog OperationContext VmFault α :=
  Prog.zoom (fun c => ⟨c.stack, c.memory⟩) (fun c s => { c with stack := s.stack, memory := s.memory })
    (fun e => e) x

/-- An instruction on the stack and the memory that reads its context. -/
def onScratch (x : Host → OperationContext → Prog Scratch VmFault OperationControl) : ExecuteFn :=
  fun host c => scratch (x host c) c

/-- `static_guard`: an instruction that writes is refused in a static frame. -/
def staticGuard : Prog OperationContext VmFault Unit := do
  let c ← get
  if c.frame.isStatic then throw .staticViolation

end RustTron.Tvm
