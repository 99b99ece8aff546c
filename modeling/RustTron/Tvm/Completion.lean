import RustTron.Tvm.OpcodesC

/-!
# Completing calls and creations

A frame that asks for a call or for a creation is resumed when the request is completed: value is
moved in a layer of its own, the child runs, and what it leaves is kept or dropped. However this
ends, the frame is told by one word on its stack, and whether that word fits is not looked at.

## Main definitions

* `ExecutionOutcome`, `Children`: what a frame ends with, and how the frames of children are run
* `driveCall`, `driveCreate`: the completion of a call, and of a creation
* `resume`: what a frame goes on with after an instruction

## Main results

* `pushes_driveCall`, `pushes_driveCreate`: a completion pushes one word, and leaves the program
* `driveCreate_error`: a completion that fails does so for the time, not for the stack
-/

namespace RustTron.Tvm

open EnergyMeter (checked)

/-! ## Frames of children -/

/-- The depth at which a frame has no children. -/
def maxDepth : Nat := 64

/-- `ExecutionOutcome`, as far as the parent reads it. -/
structure ExecutionOutcome where
  status : ExitStatus
  returnData : Bytes
  energyUsed : Int
  logs : List TvmLog
  internalTransactions : List InternalTransactionRecord
  deletedAccounts : List Bytes

/-- How children are run: `dispatch_with_caller`, for a precompiled contract, and `execute_frame`
for code. -/
structure Children where
  precompiled : FrameContext → EnergyMeter → Repository → Option (ExecutionOutcome × Repository)
  executeFrame : FrameContext → Program → Hash32 → EnergyMeter → Int → Repository →
    ExecutionOutcome × EnergyMeter × Int × Repository

structure ChildFrame where
  codeAddress : Bytes
  contextAddress : Bytes
  caller : Bytes
  callValue : Word
  tokenValue : Word
  tokenId : Word
  depth : Nat
  isStatic : Bool

def childFrame (parent : FrameContext) (destination : Bytes) (value tokenValue tokenId : Word)
    (kind : CallKind) : Option ChildFrame :=
  if parent.depth ≥ maxDepth then none
  else some
    (match kind with
    | .call | .callToken =>
      ⟨destination, destination, parent.contextAddress, value, tokenValue, tokenId,
        parent.depth + 1, parent.isStatic⟩
    | .callCode =>
      ⟨destination, parent.contextAddress, parent.contextAddress, value, 0, 0, parent.depth + 1,
        parent.isStatic⟩
    | .delegateCall =>
      ⟨destination, parent.contextAddress, parent.caller, parent.callValue, parent.tokenValue,
        parent.tokenId, parent.depth + 1, parent.isStatic⟩
    | .staticCall =>
      ⟨destination, destination, parent.contextAddress, 0, 0, 0, parent.depth + 1, true⟩)

/-- The frame of a call. -/
def ChildFrame.frame (spec : ChildFrame) (parent : FrameContext) (input : Bytes) : FrameContext where
  codeAddress := spec.codeAddress
  contextAddress := spec.contextAddress
  origin := parent.origin
  caller := spec.caller
  input := input
  callValue := spec.callValue
  tokenValue := spec.tokenValue
  tokenId := spec.tokenId
  rootTxid := parent.rootTxid
  contractVersion := parent.contractVersion
  depth := spec.depth
  isStatic := spec.isStatic

/-! ## Transfers -/

/-- The amount that a word stands for; one beyond an `i64` cannot be moved. -/
def transferable (value : Word) : Faulting Int :=
  if value > Word.ofI64 value.toI64Safe then .error .transferFailed else .ok value.toI64Safe

def canEndow (r : Repository) (sender : Bytes) (value : Word) : Faulting Unit := do
  let amount ← transferable value
  if r.balance sender < amount then throw .transferFailed

def canTransferValue (r : Repository) (sender receiver : Bytes) (value : Word) : Faulting Unit := do
  canEndow r sender value
  let _ ← checked (r.balance receiver + value.toI64Safe) .transferFailed

/-- The token that a word names. -/
def transferToken (id : Word) : Faulting Bytes :=
  match OpcodesC.tokenName id with
  | some token => .ok token
  | none => .error .transferFailed

def canTransferToken (r : Repository) (sender receiver : Bytes) (id value : Word) :
    Faulting Unit := do
  let amount ← transferable value
  let token ← transferToken id
  if r.tokenBalance sender token < amount then throw .transferFailed
  let _ ← checked (r.tokenBalance receiver token + amount) .transferFailed

/-- `transfer_value`: what was read before the first write is written back with the second. -/
def transferValue (r : Repository) (sender receiver : Bytes) (value : Word) :
    Faulting Repository := do
  let amount ← transferable value
  let balance := r.balance sender
  if balance < amount then throw .transferFailed
  let target := r.balance receiver
  let total ← checked (target + amount) .transferFailed
  pure ((r.setBalance sender (balance - amount)).setBalance receiver total)

/-- `transfer_token`. -/
def moveToken (r : Repository) (sender receiver : Bytes) (id value : Word) :
    Faulting Repository := do
  let amount ← transferable value
  let token ← transferToken id
  let balance := r.tokenBalance sender token
  if balance < amount then throw .transferFailed
  let target := r.tokenBalance receiver token
  let total ← checked (target + amount) .transferFailed
  pure ((r.setTokenBalance sender token (balance - amount)).setTokenBalance receiver token total)

/-- Whether the value of a call can be moved. -/
def feasible (r : Repository) (sender : Bytes) (request : CallRequest) : Faulting Unit :=
  match request.kind with
  | .call => canTransferValue r sender request.destination request.value
  | .callToken =>
    canTransferToken r sender request.destination request.tokenId request.tokenValue
  | .callCode => canEndow r sender request.value
  | .delegateCall | .staticCall => .ok ()

/-- Move the value of a call. -/
def transfer (r : Repository) (sender : Bytes) (request : CallRequest) : Faulting Repository :=
  match request.kind with
  | .call => transferValue r sender request.destination request.value
  | .callToken => moveToken r sender request.destination request.tokenId request.tokenValue
  | .callCode | .delegateCall | .staticCall => .ok r

/-! ## Calls -/

/-- The context after a word was pushed, if it fits. -/
def pushResult (c : OperationContext) (value : Word) : OperationContext :=
  { c with
    stack := match c.stack.push value with
      | .ok stack => stack
      | .error _ => c.stack }

/-- `saturating_add` of one. -/
def nextNonce (nonce : Int) : Int := min (nonce + 1) i64Max

def rejectCallBeforeExecution (request : CallRequest) (c : OperationContext) : OperationContext :=
  pushResult
    { c with
      energy := (EnergyMeter.refund request.reservedEnergy c.energy).2
      effects := { c.effects with returnData := [] } } 0

/-- The record of a call. -/
def callRecord (host : Host) (parentHash : Hash32) (parent : FrameContext) (request : CallRequest)
    (nonce : Int) : InternalTransactionRecord :=
  .child host.keccak256 parentHash parent.contextAddress request.destination request.data
    (if request.kind = .callToken then 0 else request.value)
    (if request.kind = .callToken then [(request.tokenId, request.tokenValue)] else []) "call"
    parent.depth nonce

/-- The effects of a parent that takes over those of a child that succeeded. -/
def OperationEffects.keep (effects : OperationEffects) (record : InternalTransactionRecord)
    (outcome : ExecutionOutcome) : OperationEffects :=
  { effects with
    logs := effects.logs ++ outcome.logs
    deletedAccounts := effects.deletedAccounts ++ outcome.deletedAccounts
    internalTransactions :=
      effects.internalTransactions ++ record :: outcome.internalTransactions }

/-- The effects of a parent whose child has failed: its transactions are noted as rejected. -/
def OperationEffects.drop (effects : OperationEffects) (record : InternalTransactionRecord)
    (transactions : List InternalTransactionRecord) : OperationEffects :=
  { effects with
    internalTransactions := effects.internalTransactions ++
      record.reject :: transactions.map InternalTransactionRecord.reject }

/-- The child of a call: a precompiled contract, or the code at its address. -/
def runCall (children : Children) (frame : FrameContext) (hash : Hash32) (meter : EnergyMeter)
    (nonce : Int) (r : Repository) : ExecutionOutcome × Int × Repository :=
  match children.precompiled frame meter r with
  | some (outcome, r) => (outcome, nonce, r)
  | none =>
    let (outcome, _, nonce, r) := children.executeFrame frame
      (Program.new ((r.code frame.codeAddress).getD [])) hash meter nonce r
    (outcome, nonce, r)

/-- The end of a call: the energy that was not used is given back, and the output is written as far
as it fits. -/
def finishCall (request : CallRequest) (record : InternalTransactionRecord) (id : Nat)
    (outcome : ExecutionOutcome) (c : OperationContext) : OperationContext :=
  let unused := request.reservedEnergy - min outcome.energyUsed request.reservedEnergy
  let effects := { c.effects with returnData := outcome.returnData }
  let c := { c with
    energy := (EnergyMeter.refund (min unused i64Max) c.energy).2
    memory := match c.memory.write request.outputOffset
        (outcome.returnData.take request.outputSize) with
      | .ok memory => memory
      | .error _ => c.memory }
  if outcome.status = .succeeded then
    pushResult
      { c with
        repository := c.repository.orSame (c.repository.commitChild id)
        effects := effects.keep record outcome } 1
  else
    pushResult
      { c with
        repository := c.repository.orSame (c.repository.revokeChild id)
        effects := effects.drop record outcome.internalTransactions } 0

def driveCall (host : Host) (children : Children) (parentHash : Hash32) (request : CallRequest)
    (nonce : Int) (c : OperationContext) : Int × OperationContext :=
  match childFrame c.frame request.destination request.value request.tokenValue request.tokenId
      request.kind with
  | none => (nonce, rejectCallBeforeExecution request c)
  | some spec =>
    match feasible c.repository c.frame.contextAddress request with
    | .error _ => (nonce, rejectCallBeforeExecution request c)
    | .ok () =>
      let record := callRecord host parentHash c.frame request nonce
      let (id, r) := c.repository.beginChild
      match transfer r c.frame.contextAddress request with
      | .error _ =>
        (nextNonce nonce,
          pushResult
            { c with
              repository := r.orSame (r.revokeChild id)
              effects := { c.effects.drop record [] with returnData := [] } } 0)
      | .ok r =>
        let (outcome, nonce, r) := runCall children (spec.frame c.frame request.data) record.hash
          (.new (max request.energyLimit 0)) (nextNonce nonce) r
        (nonce, finishCall request record id outcome { c with repository := r })

/-! ## Creations -/

def tronKeccakAddress (host : Host) (input : Bytes) : Bytes :=
  0x41 :: (host.keccak256 input).bytes.drop 12

def createAddress (host : Host) (frame : FrameContext) (nonce : Int) : Bytes :=
  tronKeccakAddress host (frame.rootTxid ++ be64 nonce)

def create2AddressNoFf (host : Host) (frame : FrameContext) (salt : Word) (initCode : Bytes)
    (istanbul : Bool) : Bytes :=
  tronKeccakAddress host ((if istanbul then frame.contextAddress else frame.caller) ++
    salt.toBeBytes ++ (host.keccak256 initCode).bytes)

/-- `validate_deployed_code`: what the code costs. -/
def validateDeployedCode (code : Bytes) (london : Bool) : Faulting Int :=
  if london ∧ code.head? = some 0xef then .error .invalidCode
  else checked (code.length * 200) .outOfEnergy

/-- The charge for the code of a new contract. -/
def deposit (code : Bytes) (london : Bool) : Prog EnergyMeter VmFault Unit := do
  let cost ← lift (validateDeployedCode code london)
  if code.length > 24576 then throw .outOfEnergy
  EnergyMeter.spend cost

/-- The address of a new contract. -/
def createdAddress (host : Host) (c : OperationContext) (request : CreateRequest) (nonce : Int) :
    Bytes :=
  match request.salt with
  | none => createAddress host c.frame nonce
  | some salt => create2AddressNoFf host c.frame salt request.initCode c.rules.istanbul

/-- The frame that runs the init code. -/
def createdFrame (parent : FrameContext) (address : Bytes) (value : Word) : FrameContext where
  codeAddress := address
  contextAddress := address
  origin := parent.origin
  caller := parent.contextAddress
  input := []
  callValue := value
  tokenValue := 0
  tokenId := 0
  rootTxid := parent.rootTxid
  contractVersion := parent.contractVersion
  depth := parent.depth + 1
  isStatic := false

/-- The charge of what a child has used, as far as it is left. -/
def EnergyMeter.charge (m : EnergyMeter) (amount : Int) : EnergyMeter :=
  (spend (min amount m.remaining) m).2

/-- The context after a creation that has come to nothing. -/
def failedCreate (record : InternalTransactionRecord) (id : Nat)
    (transactions : List InternalTransactionRecord) (c : OperationContext) : OperationContext :=
  pushResult
    { c with
      repository := c.repository.orSame (c.repository.revokeChild id)
      effects := c.effects.drop record transactions } 0

/-- The end of a creation: the code is paid for and saved. -/
def finishCreate (host : Host) (request : CreateRequest) (address : Bytes)
    (record : InternalTransactionRecord) (id : Nat) (outcome : ExecutionOutcome)
    (childMeter : EnergyMeter) (c : OperationContext) : OperationContext :=
  let (deposited, paidMeter) :=
    if outcome.status = .succeeded then deposit outcome.returnData c.rules.london childMeter
    else (.error .other, childMeter)
  let saved : Option Repository :=
    match deposited with
    | .error _ => none
    | .ok () => (c.repository.saveCreatedCode host.keccak256 address outcome.returnData
        c.rules.constantinople).toOption
  match saved with
  | some r =>
    let effects := c.effects.keep record outcome
    let c := pushResult
      { c with
        repository := r.orSame (r.commitChild id)
        effects := if request.kind = .create ∨ c.rules.osaka then { effects with returnData := [] }
          else effects } (Word.addressWord address)
    { c with energy := c.energy.charge paidMeter.used }
  | none =>
    failedCreate record id outcome.internalTransactions
      { c with
        energy := c.energy.charge paidMeter.used
        effects := { c.effects with returnData := outcome.returnData } }

/-- The part of `drive_create` after its checks of the depth. -/
def driveCreateChecked (host : Host) (children : Children) (parentHash : Hash32)
    (request : CreateRequest) (nonce : Int) (c : OperationContext) : Int × OperationContext :=
  match canEndow c.repository c.frame.contextAddress request.value with
  | .error _ => (nonce, pushResult c 0)
  | .ok () =>
    let address := createdAddress host c request nonce
    let record := InternalTransactionRecord.child host.keccak256 parentHash c.frame.contextAddress
      address request.initCode request.value [] "create" c.frame.depth nonce
    let (id, r) := c.repository.beginChild
    if r.createDestinationExists address c.rules.constantinople then
      (nextNonce nonce, failedCreate record id []
        { c with repository := r, energy := c.energy.charge request.energyLimit })
    else
      let r := r.prepareCreatedContract address c.frame.contextAddress c.frame.rootTxid
        (request.kind = .create2) c.rules.constantinople c.rules.compatibleEvm
        c.frame.contractVersion
      match (if request.value = 0 then .ok r
          else transferValue r c.frame.contextAddress address request.value) with
      | .error _ => (nextNonce nonce, failedCreate record id [] { c with repository := r })
      | .ok r =>
        let (outcome, childMeter, nonce, r) := children.executeFrame
          (createdFrame c.frame address request.value) (Program.new request.initCode) record.hash
          (.new (max request.energyLimit 0)) (nextNonce nonce) r
        (nonce, finishCreate host request address record id outcome childMeter
          { c with repository := r })

/-- `drive_create`: at the greatest depth a creation pushes zero, and a `CREATE2` may time out or go
on, as the rules say. -/
def driveCreate (host : Host) (children : Children) (parentHash : Hash32) (request : CreateRequest)
    (nonce : Int) (c : OperationContext) : Faulting (Int × OperationContext) :=
  if c.frame.depth ≥ maxDepth then
    match request.kind with
    | .create => .ok (nonce, pushResult c 0)
    | .create2 =>
      if c.rules.compatibleEvm ∨ c.rules.osaka then .ok (nonce, pushResult c 0)
      else if c.rules.create2DepthTimeout then .error .outOfTime
      else .ok (driveCreateChecked host children parentHash request nonce c)
  else .ok (driveCreateChecked host children parentHash request nonce c)

/-! ## What a completion does to the frame -/

/-- One word is pushed, if it fits, and the program and the rules are left alone. -/
structure Pushes (c c' : OperationContext) : Prop where
  program_eq : c'.program = c.program
  rules_eq : c'.rules = c.rules
  frame_eq : c'.frame = c.frame
  stack_eq : ∃ value, c'.stack = (pushResult c value).stack

theorem pushes_pushResult {c c' : OperationContext} (value : Word)
    (hp : c'.program = c.program) (hr : c'.rules = c.rules) (hf : c'.frame = c.frame) (hs : c'.stack = c.stack) :
    Pushes c (pushResult c' value) :=
  ⟨hp, hr, hf, value, by rw [pushResult, pushResult, hs]⟩

section

variable (host : Host) (children : Children) (parentHash : Hash32)

theorem pushes_finishCall (request : CallRequest) (record : InternalTransactionRecord) (id : Nat)
    (outcome : ExecutionOutcome) (c : OperationContext) (r : Repository) :
    Pushes c (finishCall request record id outcome { c with repository := r }) := by
  unfold finishCall
  dsimp only
  split <;> exact pushes_pushResult _ rfl rfl rfl rfl

/-- **A call pushes one word**, whatever its child does. -/
theorem pushes_driveCall (request : CallRequest) (nonce : Int) (c : OperationContext) :
    Pushes c (driveCall host children parentHash request nonce c).2 := by
  unfold driveCall
  split
  · exact pushes_pushResult _ rfl rfl rfl rfl
  split
  · exact pushes_pushResult _ rfl rfl rfl rfl
  dsimp only
  split
  · exact pushes_pushResult _ rfl rfl rfl rfl
  · exact pushes_finishCall ..

theorem pushes_finishCreate (request : CreateRequest) (address : Bytes)
    (record : InternalTransactionRecord) (id : Nat) (outcome : ExecutionOutcome)
    (childMeter : EnergyMeter) (c : OperationContext) (r : Repository) :
    Pushes c (finishCreate host request address record id outcome childMeter
      { c with repository := r }) := by
  unfold finishCreate
  dsimp only
  split
  · exact ⟨rfl, rfl, rfl, _, rfl⟩
  · exact pushes_pushResult _ rfl rfl rfl rfl

theorem pushes_driveCreateChecked (request : CreateRequest) (nonce : Int) (c : OperationContext) :
    Pushes c (driveCreateChecked host children parentHash request nonce c).2 := by
  unfold driveCreateChecked
  split
  · exact pushes_pushResult _ rfl rfl rfl rfl
  dsimp only
  split
  · exact pushes_pushResult _ rfl rfl rfl rfl
  split
  · exact pushes_pushResult _ rfl rfl rfl rfl
  · exact pushes_finishCreate ..

/-- **A creation that is completed pushes one word.** -/
theorem pushes_driveCreate {request : CreateRequest} {nonce nonce' : Int} {c c' : OperationContext}
    (h : driveCreate host children parentHash request nonce c = .ok (nonce', c')) : Pushes c c' := by
  have hc : (nonce', c') = driveCreateChecked host children parentHash request nonce c →
      Pushes c c' := by
    intro heq
    have := pushes_driveCreateChecked host children parentHash request nonce c
    rwa [← heq] at this
  unfold driveCreate at h
  split at h
  · split at h
    · cases h
      exact pushes_pushResult _ rfl rfl rfl rfl
    · split at h
      · cases h
        exact pushes_pushResult _ rfl rfl rfl rfl
      split at h
      · cases h
      · exact hc (Except.ok.inj h).symm
  · exact hc (Except.ok.inj h).symm

theorem driveCreate_error {request : CreateRequest} {nonce : Int} {c : OperationContext}
    {fault : VmFault} (h : driveCreate host children parentHash request nonce c = .error fault) :
    fault = .outOfTime := by
  unfold driveCreate at h
  split at h
  · split at h
    · cases h
    · split at h
      · cases h
      split at h
      · cases h
        rfl
      · cases h
  · cases h

end

/-! ## Going on -/

/-- What a frame goes on with after an instruction, and its nonce; `none` where it has ended. -/
def resume (host : Host) (children : Children) (parentHash : Hash32) (control : OperationControl)
    (nonce : Int) (c : OperationContext) : Faulting (Option (Int × OperationContext)) :=
  match control with
  | .continue => .ok (some (nonce, c))
  | .call request => .ok (some (driveCall host children parentHash request nonce c))
  | .create request => some <$> driveCreate host children parentHash request nonce c
  | .halt _ | .revert _ | .selfDestruct _ => .ok none

end RustTron.Tvm
