import RustTron.Tvm.Opcode

/-!
# Call, create, system and TRON instructions

The third family of instructions: those that ask for a call or for a creation, the end of a
contract, and the instructions on stakes, votes and tokens. An operation on stakes runs in a layer
of its own, which is dropped when the operation fails.

## Main definitions

* `rangeEnd`, `memoryDelta`, `callEnergy`: energy
* `transactional`: an operation on stakes
* `callExec`, `create`, `create2`, `suicide`: calls, creations and the end of a contract
* `specs`: the rows of the table
-/

namespace RustTron.Tvm.OpcodesC

open EnergyMeter (checked)

def callBase : Int := 40

def valueTransfer : Int := 9000

def newAccount : Int := 25000

def stipend : Int := 2300

/-! ## Energy -/

def wordUsize (value : Word) : Faulting Nat :=
  if (value.toNat : Int) > i64Max then .error .outOfMemory else .ok value.toNat

def rangeEnd (offset size : Word) : Faulting Nat := do
  let size ← wordUsize size
  if size = 0 then pure 0
  else
    let offset ← wordUsize offset
    if offset + size > memoryLimit then throw .outOfMemory
    else pure (offset + size)

def memoryDelta (c : OperationContext) (last : Nat) : Faulting Int :=
  if last = 0 ∨ last ≤ c.memory.softLen then .ok 0
  else EnergyMeter.memoryDelta c.memory.softLen last

def callEnergy (withValue payAccount token : Bool) : EnergyFn := fun _ c => do
  let address ← c.stack.peek 1
  let value ← (if withValue then c.stack.peek 2 else pure 0)
  let i := if token then 4 else if withValue then 3 else 2
  let inOff ← c.stack.peek i
  let inSize ← c.stack.peek (i + 1)
  let inEnd ← rangeEnd inOff inSize
  let outOff ← c.stack.peek (i + 2)
  let outSize ← c.stack.peek (i + 3)
  let outEnd ← rangeEnd outOff outSize
  let delta ← memoryDelta c (max inEnd outEnd)
  let base ← checked (callBase + delta) .outOfEnergy
  if value = 0 then pure base
  else
    let base ← checked (base + valueTransfer) .outOfEnergy
    if payAccount ∧ c.repository.account address.toTronAddress = none then
      checked (base + newAccount) .outOfEnergy
    else pure base

def callE : EnergyFn := callEnergy true true false
def callcodeE : EnergyFn := callEnergy true false false
def delegateE : EnergyFn := callEnergy false false false
def calltokenE : EnergyFn := callEnergy true true true

def createE : EnergyFn := fun _ c => do
  let offset ← c.stack.peek 1
  let size ← c.stack.peek 2
  let last ← rangeEnd offset size
  let delta ← memoryDelta c last
  checked (32000 + delta) .outOfEnergy

def create2E : EnergyFn := fun host c => do
  let word ← c.stack.peek 2
  let size ← wordUsize word
  let words : Int := ((size + 31) / 32 : Nat)
  let base ← createE host c
  let hashed ← checked (words * 6) .outOfEnergy
  checked (base + hashed) .outOfEnergy

def freezeE : EnergyFn := fun _ c => do
  let receiver ← c.stack.peek 2
  pure (20000 + if c.repository.account receiver.toTronAddress = none then newAccount else 0)

def voteE : EnergyFn := fun _ c => do
  let extra : Word := if c.rules.energyAdjustment then 32 else 0
  let amountOff ← c.stack.peek 1
  let amountLen ← c.stack.peek 0
  let amounts ← rangeEnd amountOff ((amountLen + extra) * 32)
  let witnessOff ← c.stack.peek 3
  let witnessLen ← c.stack.peek 2
  let witnesses ← rangeEnd witnessOff ((witnessLen + extra) * 32)
  let delta ← memoryDelta c (max amounts witnesses)
  checked (30000 + delta) .outOfEnergy

def suicideE : EnergyFn := fun _ c => do
  let base : Int := if c.rules.selfdestructRestriction then 5000 else 0
  let target ← c.stack.peek 0
  pure (base + if c.repository.account target.toTronAddress = none then newAccount else 0)

/-! ## Tokens and contracts -/

def tokenValue : ExecuteFn := onScratch fun _ c => pushed c.frame.tokenValue

def tokenId : ExecuteFn := onScratch fun _ c => pushed c.frame.tokenId

/-- The name that a token number is looked up under: its bytes, if they are text. -/
def tokenName (id : Word) : Option Bytes :=
  if validUtf8 id.noLeadingZeroBytes then some id.noLeadingZeroBytes else none

def tokenBalance : ExecuteFn := onScratch fun _ c => do
  let id ← pop
  let address ← pop
  match tokenName id with
  | none => throw .other
  | some token => pushed (Word.ofI64 (c.repository.tokenBalance address.toTronAddress token))

def isContract : ExecuteFn := onScratch fun _ c => do
  let a ← pop
  pushed (Word.ofBool (c.repository.contract a.toTronAddress).isSome)

/-! ## Stakes and votes -/

/-- The repository after an operation on stakes in a layer of its own, and the word to push. -/
def runTransactional (f : World → Attempt (Word × World)) (r : Repository) :
    Faulting Word × Repository :=
  let (child, r) := r.beginChild
  match Repository.onWorld f r with
  | (.ok value, r) =>
    match r.commitChild child with
    | .ok r => (.ok value, r)
    | .error _ => (.error .other, r)
  | (.error _, r) =>
    match r.revokeChild child with
    | .ok r => (.ok 0, r)
    | .error _ => (.error .other, r)

def transactional (f : World → Attempt (Word × World)) :
    Prog OperationContext VmFault OperationControl := do
  let value ← (fun c =>
    match runTransactional f c.repository with
    | (value, repository) => (value, { c with repository }) : Prog OperationContext VmFault Word)
  scratch (pushed value)

/-- An operation that answers yes or no, with the word to push. -/
def asBool (x : Attempt (Bool × World)) : Attempt (Word × World) := do
  let (accepted, w) ← x
  pure (Word.ofBool accepted, w)

/-- An operation that gives an amount, with the word to push. -/
def asAmount (x : Attempt (Int × World)) : Attempt (Word × World) := do
  let (amount, w) ← x
  pure (Word.ofI64 amount, w)

/-- The address of the frame. -/
def owner : Prog OperationContext VmFault Bytes := do
  let c ← get
  pure c.frame.contextAddress

/-- The guard of the legacy instructions, which only the vote rule puts in force. -/
def voteGuard : Prog OperationContext VmFault Unit := do
  let c ← get
  if c.rules.vote then staticGuard

def freezeLegacy : ExecuteFn := fun _ => do
  voteGuard
  let kind ← scratch pop
  let amount ← scratch pop
  let receiver ← scratch pop
  let c ← get
  if c.rules.freezeV2 then scratch (pushed 0)
  else
    let owner ← owner
    transactional fun w => asBool (Tvm.freezeLegacy w owner receiver.toTronAddress amount kind)

def unfreezeLegacy : ExecuteFn := fun _ => do
  voteGuard
  let kind ← scratch pop
  let receiver ← scratch pop
  let owner ← owner
  transactional fun w => asBool do
    let (released, w) ← Tvm.unfreezeLegacy w owner receiver.toTronAddress kind
    pure (released.isSome, w)

def expire : ExecuteFn := onScratch fun _ c => do
  let kind ← pop
  let target ← pop
  let value := freezeExpireTime c.repository.world c.frame.contextAddress target.toTronAddress kind
  pushed (Word.ofI64 (value.tdiv 1000))

/-- An instruction on a resource and an amount. -/
def onAmount (f : World → Bytes → Word → Word → Attempt (Bool × World)) : ExecuteFn := fun _ => do
  staticGuard
  let kind ← scratch pop
  let amount ← scratch pop
  let owner ← owner
  transactional fun w => asBool (f w owner amount kind)

def freezeBalanceV2 : ExecuteFn := onAmount freezeV2
def unfreezeBalanceV2 : ExecuteFn := onAmount unfreezeV2

def cancelAll : ExecuteFn := fun _ => do
  staticGuard
  let owner ← owner
  transactional fun w => asBool (cancelAllUnfreezeV2 w owner)

def withdrawExpired : ExecuteFn := fun _ => do
  staticGuard
  let owner ← owner
  transactional fun w => asAmount (withdrawExpiredV2 w owner)

/-- An instruction on a resource, an amount and a receiver. -/
def onReceiver (f : World → Bytes → Bytes → Word → Word → Attempt (Bool × World)) : ExecuteFn :=
  fun _ => do
    staticGuard
    let kind ← scratch pop
    let amount ← scratch pop
    let receiver ← scratch pop
    let owner ← owner
    transactional fun w => asBool (f w owner receiver.toTronAddress amount kind)

def delegateResource : ExecuteFn := onReceiver delegateV2
def undelegateResource : ExecuteFn := onReceiver undelegateV2

/-- The votes in two arrays of the memory, from the `i`-th on. -/
def readVotes (witnessOff amountOff : Nat) : Nat → Nat → Prog Scratch VmFault (List Vote)
  | 0, _ => pure []
  | count + 1, i => do
    let w ← readMemory (witnessOff + 32 + i * 32) 32
    let a ← readMemory (amountOff + 32 + i * 32) 32
    let votes ← readVotes witnessOff amountOff count (i + 1)
    pure (⟨(Word.fromBeBytes w).toTronAddress, (Word.fromBeBytes a).toI64Safe⟩ :: votes)

/-- The arrays of `vote_witness`; `none` where their lengths differ. -/
def voteArrays : Prog Scratch VmFault (Option (List Vote)) := do
  let amountLen ← pop
  let amountOff ← pop
  let witnessLen ← pop
  let witnessOff ← pop
  if amountLen.toI32Safe ≠ witnessLen.toI32Safe then pure none
  else
    let wl ← readMemory witnessOff.toI32Safe 32
    let al ← readMemory amountOff.toI32Safe 32
    if (Word.fromBeBytes wl).toI32Safe ≠ witnessLen.toI32Safe ∨
        (Word.fromBeBytes al).toI32Safe ≠ amountLen.toI32Safe then throw .other
    let votes ← readVotes witnessOff.toI32Safe amountOff.toI32Safe witnessLen.toI32Safe 0
    pure (some votes)

def voteWitness : ExecuteFn := fun _ => do
  staticGuard
  let votes ← scratch voteArrays
  match votes with
  | none => scratch (pushed 0)
  | some votes =>
    let owner ← owner
    transactional fun w => asBool (Tvm.voteWitness w owner votes)

def withdrawReward : ExecuteFn := fun _ => do
  staticGuard
  let owner ← owner
  transactional fun w => asAmount (Tvm.withdrawReward w owner)

/-! ## Calls and creations -/

/-- The energy that a frame may hand on. -/
def cap (m : EnergyMeter) : Int := m.remaining - m.remaining.tdiv 64

/-- The offset of a range that ends at `last`. -/
def rangeStart (last size : Nat) : Nat := if size = 0 then 0 else last - size

/-- Charge the meter of a frame. -/
def spendEnergy (amount : Int) : Prog OperationContext VmFault Unit :=
  Prog.zoom OperationContext.energy (fun c energy => { c with energy }) (fun e => e)
    (EnergyMeter.spend amount)

/-- Forget the data that the last call returned. -/
def clearReturnData : Prog OperationContext VmFault Unit :=
  modify fun c => { c with effects := { c.effects with returnData := [] } }

/-- The operands of a call. -/
structure CallOperands where
  requested : Word
  destination : Bytes
  supplied : Word
  tokenId : Word
  data : Bytes
  outputOffset : Nat
  outputSize : Nat

/-- The first part of `call_exec`: the operands, with the input read and the memory extended to the
output. -/
def callOperands (isStatic withValue token : Bool) : Prog Scratch VmFault CallOperands := do
  let requested ← pop
  let destination ← pop
  let supplied ← (if withValue then pop else pure 0)
  if isStatic ∧ supplied ≠ 0 then throw .staticViolation
  let tokenId ← (if token then pop else pure 0)
  let inputOffset ← pop
  let inputSize ← pop
  let outputOffset ← pop
  let outputSize ← pop
  let inputEnd ← lift (rangeEnd inputOffset inputSize)
  let outputEnd ← lift (rangeEnd outputOffset outputSize)
  let inputSize ← lift (wordUsize inputSize)
  let outputSize ← lift (wordUsize outputSize)
  let data ← readMemory (rangeStart inputEnd inputSize) inputSize
  onMemory fun m => m.expand (rangeStart outputEnd outputSize) outputSize
  pure
    { requested, destination := destination.toTronAddress, supplied, tokenId, data
      outputOffset := rangeStart outputEnd outputSize, outputSize }

/-- `call_exec`: the energy handed on is charged first, and a call with value gets a stipend. -/
def callExec (kind : CallKind) (withValue token : Bool) : ExecuteFn := fun _ => do
  let c ← get
  let operands ← scratch (callOperands c.frame.isStatic withValue token)
  clearReturnData
  let c ← get
  let reservedEnergy := min operands.requested.toI64Safe (cap c.energy)
  spendEnergy reservedEnergy
  let energyLimit ← lift (checked
    (reservedEnergy + if withValue ∧ operands.supplied ≠ 0 then stipend else 0) .outOfEnergy)
  pure (.call
    { kind
      data := operands.data
      destination := operands.destination
      energyLimit
      reservedEnergy
      value := if token then 0 else operands.supplied
      tokenValue := if token then operands.supplied else 0
      tokenId := operands.tokenId
      outputOffset := operands.outputOffset
      outputSize := operands.outputSize })

def call : ExecuteFn := callExec .call true false
def callcode : ExecuteFn := callExec .callCode true false
def delegate : ExecuteFn := callExec .delegateCall false false
def staticcall : ExecuteFn := callExec .staticCall false false
def calltoken : ExecuteFn := callExec .callToken true true

/-- The operands of a creation: the value, the init code and the salt. -/
def createOperands (withSalt : Bool) : Prog Scratch VmFault (Word × Bytes × Option Word) := do
  let value ← pop
  let offset ← pop
  let size ← pop
  let salt ← (if withSalt then some <$> pop else pure none)
  let last ← lift (rangeEnd offset size)
  let size ← lift (wordUsize size)
  let initCode ← readMemory (rangeStart last size) size
  pure (value, initCode, salt)

def create : ExecuteFn := fun _ => do
  staticGuard
  let (value, initCode, salt) ← scratch (createOperands false)
  clearReturnData
  let c ← get
  pure (.create ⟨.create, initCode, cap c.energy, value, salt⟩)

def create2 : ExecuteFn := fun _ => do
  staticGuard
  let (value, initCode, salt) ← scratch (createOperands true)
  let c ← get
  if c.rules.osaka then clearReturnData
  pure (.create ⟨.create2, initCode, cap c.energy, value, salt⟩)

def suicide : ExecuteFn := fun _ => do
  staticGuard
  let c ← get
  match canSelfdestruct c.repository.world c.frame.contextAddress c.rules.freeze c.rules.freezeV2
      c.rules.selfdestructRestriction with
  | .error _ => throw .other
  | .ok false => pure (.revert [])
  | .ok true => do
    let target ← scratch pop
    pure (.selfDestruct target.toTronAddress)

/-! ## The table -/

/-- The rows of this family. -/
def specs : List (UInt8 × Operation) :=
  [(0xd0, ⟨8, 1, fun r => r.transferTrc10, calltokenE, calltoken⟩),
    (0xd1, ⟨2, 1, fun r => r.transferTrc10, fixed 20, tokenBalance⟩),
    (0xd2, ⟨0, 1, fun r => r.transferTrc10, fixed 2, tokenValue⟩),
    (0xd3, ⟨0, 1, fun r => r.transferTrc10, fixed 2, tokenId⟩),
    (0xd4, ⟨1, 1, fun r => r.solidity059, fixed 20, isContract⟩),
    (0xd5, ⟨3, 1, fun r => r.freeze, freezeE, freezeLegacy⟩),
    (0xd6, ⟨2, 1, fun r => r.freeze, fixed 20000, unfreezeLegacy⟩),
    (0xd7, ⟨2, 1, fun r => r.freeze, fixed 50, expire⟩),
    (0xd8, ⟨4, 1, fun r => r.vote, voteE, voteWitness⟩),
    (0xd9, ⟨0, 1, fun r => r.vote, fixed 20000, withdrawReward⟩),
    (0xda, ⟨2, 1, fun r => r.freezeV2, fixed 10000, freezeBalanceV2⟩),
    (0xdb, ⟨2, 1, fun r => r.freezeV2, fixed 10000, unfreezeBalanceV2⟩),
    (0xdc, ⟨0, 1, fun r => r.freezeV2, fixed 10000, cancelAll⟩),
    (0xdd, ⟨0, 1, fun r => r.freezeV2, fixed 10000, withdrawExpired⟩),
    (0xde, ⟨3, 1, fun r => r.freezeV2, fixed 10000, delegateResource⟩),
    (0xdf, ⟨3, 1, fun r => r.freezeV2, fixed 10000, undelegateResource⟩),
    (0xf0, ⟨3, 1, fun _ => true, createE, create⟩),
    (0xf1, ⟨7, 1, fun _ => true, callE, call⟩),
    (0xf2, ⟨7, 1, fun _ => true, callcodeE, callcode⟩),
    (0xf4, ⟨6, 1, fun _ => true, delegateE, delegate⟩),
    (0xf5, ⟨4, 1, fun r => r.constantinople, create2E, create2⟩),
    (0xfa, ⟨6, 1, fun _ => true, delegateE, staticcall⟩),
    (0xff, ⟨1, 0, fun _ => true, suicideE, suicide⟩)]

end RustTron.Tvm.OpcodesC
