import RustTron.Execution.Cache
import RustTron.State.Checkpoint
import RustTron.State.Khaos

/-!
# Applying a block

`BlockManager` checks a block against the Khaos head, executes its transactions and the consensus
hooks in one session, writes the block's own rows, and commits the session under a checkpoint.

What the chain manager takes as given is collected in `Environment`: the digest, the wire formats,
the witness schedule, the admission and execution of a single transaction, and the hooks. All of
them read the state through an image only, and write through the session they are handed. What a
failed transaction or hook has written is left out: every caller revokes the session it ran in.

## Main definitions

* `RawWireTransaction`, `RawBlock`: a transaction and a block as received
* `Environment`: the parameters of the model
* `BlockManager`: the sessions, the transaction cache, Khaos and the state of the hooks
* `processInSession`, `processPending`: one transaction
* `BlockManager.applyBlockMode`, `validateBlock`, `retainCompetingBlock`, `reopen`
-/

namespace RustTron.Execution

open State

/-! ## Transactions and blocks as received -/

/-- `TransactionResult`: its contract result and the rest of its bytes. -/
structure TransactionResult where
  contractRet : Int
  rest : Bytes
  deriving DecidableEq

/-- `Transaction`, the decoded message: its encoding, its results and the types of its
contracts. -/
structure Transaction where
  encoded : Bytes
  ret : List TransactionResult
  contractTypes : List Int
  deriving DecidableEq

/-- The transaction spends shielded notes. -/
def Transaction.shielded (tx : Transaction) : Bool := tx.contractTypes.any (· = 51)

structure RawWireTransaction where
  message : Transaction
  fullBytes : Bytes
  rawDataBytes : Bytes
  signatureVerificationCached : Bool
  deriving DecidableEq

def RawWireTransaction.clearSignatureVerificationCache (tx : RawWireTransaction) :
    RawWireTransaction :=
  { tx with signatureVerificationCached := false }

/-- `block_header::Raw`. -/
structure RawHeader where
  timestamp : Int
  txTrieRoot : Bytes
  parentHash : Bytes
  number : Int
  witnessAddress : Bytes
  version : Int
  accountStateRoot : Bytes
  deriving DecidableEq

structure BlockHeader where
  rawData : Option RawHeader
  witnessSignature : Bytes
  deriving DecidableEq

/-- `RawBlock`: the decoded message, the bytes it came in, and the transactions decoded so far.
`capacity` is what the buffers of the block hold. -/
structure RawBlock where
  blockHeader : Option BlockHeader
  messageTransactions : List Transaction
  fullBytes : Bytes
  rawHeaderBytes : Bytes
  transactionBytes : List Bytes
  transactions : List (Option RawWireTransaction)
  capacity : Nat
  deriving DecidableEq

/-- The raw header of a block. -/
def RawBlock.rawHeader (block : RawBlock) : Option RawHeader := block.blockHeader.bind (·.rawData)

def RawBlock.clearSignatureVerificationCache (block : RawBlock) : RawBlock :=
  { block with
    transactions := block.transactions.map (·.map (·.clearSignatureVerificationCache)) }

structure ManagedBlock where
  raw : RawBlock
  id : BlockId
  receivedAt : Int
  deriving DecidableEq

instance : RetainedSize ManagedBlock := ⟨fun block => block.raw.capacity⟩

structure BlockLimits where
  maxBlockBytes : Nat
  maxTransactions : Nat
  maxShieldedTransactions : Nat
  minVersion : Int
  maxVersion : Int
  maxFutureMillis : Int
  deriving DecidableEq

def BlockLimits.default : BlockLimits where
  maxBlockBytes := 2000000
  maxTransactions := 20000
  maxShieldedTransactions := 1
  minVersion := 0
  maxVersion := 32
  maxFutureMillis := 3000

/-! ## Errors and contexts -/

inductive PipelineStage where
  | admission | duplicate | trace | runtime | retry | witness | billing | finalization
  | persistTransaction | persistInfo | persistCache
  deriving DecidableEq, Repr

inductive ProcessError where
  | duplicate (id : Hash32)
  | stage (stage : PipelineStage) (message : String)
  | state (message : String)
  deriving DecidableEq

/-- `BlockApplyError`. The error of a transaction is kept as it is instead of as its text. -/
inductive BlockApplyError where
  | malformedWire | missingHeader | missingRawHeader | rawHeaderMismatch | transactionWireMismatch
  | duplicate (id : BlockId)
  | parentMismatch | heightMismatch | timestamp
  | version (version : Int)
  | tooLarge (size : Nat)
  | tooManyTransactions (count : Nat)
  | tooManyShielded (count : Nat)
  | invalidSignature | wrongWitness
  | invalidTransaction (error : ProcessError)
  | undecodableTransaction (message : String)
  | transactionResultMismatch (index : Nat)
  | transactionMerkleMismatch | accountRootMismatch
  | state (message : String)
  | graph (message : String)
  | hook (message : String)
  | arithmetic
  deriving DecidableEq

/-- `Display` of `CacheError`. -/
def CacheError.toText : CacheError → String
  | zeroCapacity => "ZeroCapacity"
  | nonPositiveTtl => "NonPositiveTtl"
  | timeReversal previous now =>
    s!"TimeReversal \x7b previous: {previous}, now: {now} \x7d"
  | blockReversal previous now =>
    s!"BlockReversal \x7b previous: {previous}, now: {now} \x7d"

inductive AdmissionOrigin where
  | network
  | block
  deriving DecidableEq, Repr

/-- `ProcessContext`, with the fields of its clock. The expected result is the number in the
block. -/
structure ProcessContext where
  origin : AdmissionOrigin
  headBlockTime : Int
  nextBlockSlotTime : Int
  now : Int
  blockNumber : Int
  headSlot : Int
  expectedResult : Option Int
  blockTimestamp : Int
  deriving DecidableEq

/-- The context of a transaction in the block, or in the pool over the block, with this header. -/
def ProcessContext.at (origin : AdmissionOrigin) (raw : RawHeader) (now : Int)
    (expectedResult : Option Int) : ProcessContext where
  origin := origin
  headBlockTime := raw.timestamp
  nextBlockSlotTime := raw.timestamp
  now := now
  blockNumber := raw.number
  headSlot := raw.number
  expectedResult := expectedResult
  blockTimestamp := raw.timestamp

/-- `ProcessOutput`: the transaction with its result, and the encoding of its info. -/
structure ProcessOutput where
  transactionId : Hash32
  transaction : Transaction
  info : Bytes
  deriving DecidableEq

/-- A sequence of puts and deletes. -/
abbrev Writes := List (RowKey × Write Bytes)

/-- The parameters of the model. -/
structure Environment (H : Type) where
  limits : BlockLimits
  /-- `selected_digest` of the engine. -/
  digest : Bytes → Hash32
  /-- `scan_block` and `Block::decode`, of `RawBlock::decode`. -/
  scanBlock : Bytes → Except BlockApplyError RawBlock
  /-- The number of a decoded header is an `i64`. -/
  scanBlock_number : ∀ bytes block raw, scanBlock bytes = .ok block → block.rawHeader = some raw →
    InI64 raw.number
  /-- `RawWireTransaction::decode`. -/
  decodeTransaction : Bytes → Except String RawWireTransaction
  /-- The encoding of a raw header. -/
  encodeRaw : RawHeader → Bytes
  /-- The encoding of a `TransactionRet`. -/
  encodeTransactionRet : Int → Int → List Bytes → Bytes
  /-- `BlockConsensus::verify_witness_signature`, on the committed image. -/
  verifyWitnessSignature : Image → Bytes → Bytes → Bytes → Bool
  /-- `BlockConsensus::scheduled_witness`, on the committed image. -/
  scheduledWitness : Image → Int → Int → Int → Except String Bytes
  /-- `StateTransactionPipeline::admit`, but for the id it returns: its checks, and the transaction
  as it leaves it. -/
  admitTransaction : RawWireTransaction → Image → ProcessContext →
    Except ProcessError Unit × RawWireTransaction
  /-- The execution of an admitted transaction: bandwidth, runtime, energy, result and info. -/
  execute : RawWireTransaction → Hash32 → Image → ProcessContext →
    Except ProcessError (Writes × Transaction × Bytes)
  /-- The root of the account trie. -/
  accountRoot : Image → Except String Bytes
  backupMaster : H → Image → Except String Writes × H
  payReward : H → Image → Bytes → Int → Except String Writes × H
  processProposals : H → Image → Int → Except String Writes × H
  maintenanceAndDpos : H → Image → Int → Except String Writes × H
  updateForkStats : H → Image → Int → Bytes → Except String Writes × H
  updateConsensusViews : H → Image → BlockId → Int → Int → Except String Writes × H

structure BlockManager (H : Type) where
  sessions : Sessions
  cache : TransactionCache
  khaos : KhaosDatabase ManagedBlock
  hooks : H

/-- Operations of the block manager. -/
abbrev BlockM (H : Type) := Prog (BlockManager H) BlockApplyError

variable {H ε : Type}

/-- An operation of the session manager. -/
def onSessions {α : Type} (f : SessionError → ε) (x : SessionM α) : Prog (BlockManager H) ε α :=
  Prog.zoom BlockManager.sessions (fun b s => { b with sessions := s }) f x

/-- An operation of the cache. -/
def onCache {α : Type} (f : CacheError → ε) (x : Prog TransactionCache CacheError α) :
    Prog (BlockManager H) ε α :=
  Prog.zoom BlockManager.cache (fun b c => { b with cache := c }) f x

/-- An operation of Khaos. -/
def onKhaos {α : Type} (f : KhaosError → ε) (x : Prog (KhaosDatabase ManagedBlock) KhaosError α) :
    Prog (BlockManager H) ε α :=
  Prog.zoom BlockManager.khaos (fun b k => { b with khaos := k }) f x

variable (env : Environment H)

def Environment.transactionId (tx : RawWireTransaction) : Hash32 := env.digest tx.rawDataBytes

/-- `RawBlock::decode`: no transaction of the block is decoded yet. -/
def RawBlock.decode (bytes : Bytes) : Except BlockApplyError RawBlock :=
  if env.limits.maxBlockBytes < bytes.length then .error (.tooLarge bytes.length)
  else
    match env.scanBlock bytes with
    | .error e => .error e
    | .ok block => .ok { block with
        fullBytes := bytes
        transactions := List.replicate block.transactionBytes.length none }

def RawBlock.blockId (block : RawBlock) : Except BlockApplyError BlockId :=
  match block.rawHeader with
  | none => .error .missingRawHeader
  | some raw => .ok (BlockId.new raw.number (env.digest block.rawHeaderBytes))

/-! ## One transaction -/

def processInSession (session : Session) (tx : RawWireTransaction) (context : ProcessContext) :
    Prog (BlockManager H) ProcessError ProcessOutput := do
  let b ← get
  Prog.ofExcept id (env.admitTransaction tx (session.rows b.sessions) context).1
  let id := env.transactionId tx
  let tx := { (env.admitTransaction tx (session.rows b.sessions) context).2 with
    signatureVerificationCached := true }
  if ← onCache (fun e => .stage .duplicate e.toText)
      (TransactionCache.containsRecent id context.now) then
    throw (.duplicate id)
  let b ← get
  if ((session.rows b.sessions).lookup ⟨.transaction, id.bytes⟩).isSome then
    throw (.duplicate id)
  let (writes, transaction, info) ←
    Prog.ofExcept (fun e => e) (env.execute tx id (session.rows b.sessions) context)
  onSessions (fun e => .state e.toText) (session.mutateAll writes)
  onSessions (fun e => .stage .persistTransaction e.toText)
    (session.put .transaction id.bytes transaction.encoded)
  pure ⟨id, transaction, info⟩

/-- The transaction as `process_in_session` leaves it, run from `b`. -/
def processedTransaction (session : Session) (tx : RawWireTransaction) (context : ProcessContext)
    (b : BlockManager H) : RawWireTransaction :=
  match env.admitTransaction tx (session.rows b.sessions) context with
  | (.ok _, tx) => { tx with signatureVerificationCached := true }
  | (.error _, tx) => tx

def processPending (session : Session) (tx : RawWireTransaction) (context : ProcessContext) :
    Prog (BlockManager H) ProcessError ProcessOutput := do
  let cacheBefore := (← get).cache
  let result ← Prog.attempt do
    let output ← processInSession env session tx context
    onCache (fun e => .stage .persistCache e.toText)
      (TransactionCache.insert output.transactionId context.blockNumber context.now)
    onSessions (fun e => .stage .persistInfo e.toText)
      (session.put .transactionHistory output.transactionId.bytes output.info)
    pure output
  match result with
  | .ok output => pure output
  | .error error =>
    modify fun b => { b with cache := cacheBefore }
    throw error

/-! ## The body of a block -/

/-- `merkle`: one level above these hashes. -/
def merkleLevel : List Hash32 → List Hash32
  | [] => []
  | [last] => [last]
  | left :: right :: rest => env.digest (left.bytes ++ right.bytes) :: merkleLevel rest

/-- `merkle`. A level of `n` hashes is done after `n` rounds. -/
def merkle (leaves : List Hash32) : Bytes :=
  match (merkleLevel env)^[leaves.length] leaves with
  | [] => List.replicate 32 0
  | root :: _ => root.bytes

/-- The decoded transaction of a block, now or already before. -/
def decodedTransaction (bytes : Bytes) (decoded : Option RawWireTransaction) :
    Except BlockApplyError RawWireTransaction :=
  match decoded with
  | some tx => .ok tx
  | none =>
    match env.decodeTransaction bytes with
    | .ok tx => .ok tx
    | .error message => .error (.undecodableTransaction message)

/-- The loop of `BlockManager::apply_in`: the outputs, and the transactions as they are left. -/
def applyTransactions (session : Session) (raw : RawHeader) (now : Int) :
    Nat → List (Bytes × Transaction × Option RawWireTransaction) →
      BlockM H (List ProcessOutput × List RawWireTransaction)
  | _, [] => pure ([], [])
  | index, (bytes, message, decoded) :: rest => do
    let tx ← Prog.ofExcept (fun e => e) (decodedTransaction env bytes decoded)
    let context := ProcessContext.at .block raw now (message.ret.head?.map (·.contractRet))
    let b ← get
    let processed := processedTransaction env session tx context b
    let output ← Prog.mapError .invalidTransaction (processInSession env session tx context)
    if message.ret ≠ output.transaction.ret then throw (.transactionResultMismatch index)
    onCache (fun e => .state e.toText)
      (TransactionCache.insert output.transactionId raw.number now)
    onSessions (fun e => .state e.toText)
      (session.put .transactionHistory output.transactionId.bytes output.info)
    let (outputs, left) ← applyTransactions session raw now (index + 1) rest
    pure (output :: outputs, processed :: left)

/-- `BlockManager::apply_in`: the outputs, and the block as it is left. -/
def applyIn (session : Session) (block : RawBlock) (now : Int) (raw : RawHeader) :
    BlockM H (List ProcessOutput × RawBlock) := do
  let (outputs, left) ← applyTransactions env session raw now 0
    (block.transactionBytes.zip (block.messageTransactions.zip block.transactions))
  if merkle env (block.transactionBytes.map env.digest) ≠ raw.txTrieRoot then
    throw .transactionMerkleMismatch
  if raw.accountStateRoot ≠ [] then
    let b ← get
    let root ← Prog.ofExcept .state (env.accountRoot (session.view b.sessions))
    if root ≠ raw.accountStateRoot then throw .accountRootMismatch
  pure (outputs, { block with transactions := left.map some })

/-- The rows of `persist_block`, in the order they are put. -/
def blockRows (block : RawBlock) (id : BlockId) (raw : RawHeader) (now : Int)
    (outputs : List ProcessOutput) : Writes :=
  [(⟨.block, id.bytes⟩, .put block.fullBytes),
    (⟨.blockIndex, be64 raw.number⟩, .put id.bytes),
    (⟨.recentBlock, be64 (raw.number % 65536)⟩, .put ((id.bytes.drop 8).take 8)),
    (⟨.transactionRet, be64 raw.number⟩,
      .put (env.encodeTransactionRet raw.number raw.timestamp (outputs.map (·.info))))] ++
  outputs.map (fun output =>
    (⟨.recentTransaction, output.transactionId.bytes⟩, .put (be64 raw.number))) ++
  [(Marker.latestBlockHeaderNumber.key, .put (be64 raw.number)),
    (Marker.latestBlockHeaderTimestamp.key, .put (be64 raw.timestamp)),
    (Marker.latestBlockHeaderHash.key, .put id.bytes),
    (⟨.common, id.bytes⟩, .put (be64 now ++ be64 raw.timestamp ++ id.bytes))]

def persistBlock (session : Session) (block : RawBlock) (id : BlockId) (raw : RawHeader)
    (now : Int) (outputs : List ProcessOutput) : BlockM H Unit :=
  onSessions (fun e => .state e.toText) (session.mutateAll (blockRows env block id raw now outputs))

/-- A call of a hook in a session. -/
def callHook (session : Session) (hook : H → Image → Except String Writes × H) : BlockM H Unit := do
  let b ← get
  let result := hook b.hooks (session.rows b.sessions)
  modify fun b => { b with hooks := result.2 }
  let writes ← Prog.ofExcept .hook result.1
  onSessions (fun e => .hook e.toText) (session.mutateAll writes)

/-- What `apply_block_mode` runs in the session of a block: the block as it is left. -/
def blockBody (session : Session) (block : RawBlock) (id : BlockId) (now : Int)
    (raw : RawHeader) : BlockM H RawBlock := do
  let (outputs, block) ← applyIn env session block now raw
  callHook session env.backupMaster
  callHook session fun h image => env.payReward h image raw.witnessAddress raw.number
  callHook session fun h image => env.processProposals h image raw.timestamp
  callHook session fun h image => env.maintenanceAndDpos h image raw.timestamp
  callHook session fun h image => env.updateForkStats h image raw.version raw.witnessAddress
  persistBlock env session block id raw now outputs
  callHook session fun h image => env.updateConsensusViews h image id raw.number raw.timestamp
  pure block

namespace BlockManager

/-- The part of the checks that `apply_block_mode` and `validate_and_execute_in` share: parent,
height, time, signature and witness. -/
def checkHeader (b : BlockManager H) (block : RawBlock) (header : BlockHeader) (raw : RawHeader)
    (now : Int) : Except BlockApplyError (KhaosBlockData ManagedBlock) := do
  let some head := b.khaos.getHead | throw .parentMismatch
  if raw.parentHash ≠ head.id.bytes then throw .parentMismatch
  let some next := checkedAdd head.number 1 | throw .arithmetic
  if raw.number ≠ next then throw .heightMismatch
  let some parentRaw := head.value.raw.rawHeader | throw .missingRawHeader
  if raw.timestamp ≤ parentRaw.timestamp then throw .timestamp
  let some latest := checkedAdd now env.limits.maxFutureMillis | throw .arithmetic
  if latest < raw.timestamp then throw .timestamp
  if header.witnessSignature = [] || !env.verifyWitnessSignature b.sessions.readView
      block.rawHeaderBytes header.witnessSignature raw.witnessAddress then
    throw .invalidSignature
  match env.scheduledWitness b.sessions.readView head.number parentRaw.timestamp raw.timestamp with
  | .error message => throw (.hook message)
  | .ok scheduled => if scheduled ≠ raw.witnessAddress then throw .wrongWitness
  pure head

/-- The checks of `apply_block_mode` before the session is opened. -/
def checkBlock (b : BlockManager H) (block : RawBlock) (now : Int) (retained : Bool) :
    Except BlockApplyError (BlockId × RawHeader) := do
  let some header := block.blockHeader | throw .missingHeader
  let some raw := header.rawData | throw .missingRawHeader
  if env.encodeRaw raw ≠ block.rawHeaderBytes then throw .rawHeaderMismatch
  if block.messageTransactions.map (·.encoded) ≠ block.transactionBytes then
    throw .transactionWireMismatch
  let id := BlockId.new raw.number (env.digest block.rawHeaderBytes)
  if retained then
    if !b.khaos.containBlockInMiniStore id then throw (.graph "fork block is not retained")
  else if b.khaos.containBlock id ||
      (b.sessions.readView.lookup ⟨.block, id.bytes⟩).isSome then
    throw (.duplicate id)
  if env.limits.maxBlockBytes < block.fullBytes.length then
    throw (.tooLarge block.fullBytes.length)
  if env.limits.maxTransactions < block.messageTransactions.length then
    throw (.tooManyTransactions block.messageTransactions.length)
  if raw.version < env.limits.minVersion || env.limits.maxVersion < raw.version then
    throw (.version raw.version)
  let head ← b.checkHeader env block header raw now
  let shielded := (block.messageTransactions.filter (·.shielded)).length
  if env.limits.maxShieldedTransactions < shielded then throw (.tooManyShielded shielded)
  if !retained then
    match b.khaos.checkLinkedResource head.id
        (block.fullBytes.length + block.transactionBytes.length * 16) with
    | .error e => throw (.graph e.toText)
    | .ok () => pure ()
  pure (id, raw)

/-- A failed block: the cache is put back, and the session is revoked. -/
def abandonBlock (cacheBefore : TransactionCache) (session : Session) (error : BlockApplyError) :
    BlockM H Unit := do
  modify fun b => { b with cache := cacheBefore }
  match ← Prog.attempt (onSessions (fun e => .state e.toText) session.revoke) with
  | .ok () => throw error
  | .error error =>
    onSessions (fun e => .state e.toText) session.drop
    throw error

/-- The block enters Khaos. -/
def linkBlock (cacheBefore : TransactionCache) (session : Session) (block : RawBlock)
    (id : BlockId) (now : Int) (raw : RawHeader) : BlockM H Unit :=
  match Hash32.ofBytes? raw.parentHash with
  | none => do
    onSessions (fun e => .state e.toText) session.drop
    throw .parentMismatch
  | some parent => do
    match ← Prog.attempt (onKhaos (fun e => .graph e.toText)
        (KhaosDatabase.push ⟨id, parent, raw.number, ⟨block, id, now⟩⟩)) with
    | .ok () => pure ()
    | .error error => abandonBlock cacheBefore session error

/-- The session is committed under the checkpoint of the block. -/
def commitBlock (cacheBefore : TransactionCache) (session : Session) (id : BlockId)
    (raw : RawHeader) (retained : Bool) : BlockM H Unit := do
  match ← Prog.attempt (onSessions (fun e => .state e.toText)
      (session.commitWithCheckpoint ⟨raw.number.toNat, id⟩)) with
  | .ok () => if retained then onKhaos (fun e => .graph e.toText) (KhaosDatabase.setHead id)
  | .error error =>
    modify fun b => { b with
      cache := cacheBefore
      khaos := if retained then b.khaos else (KhaosDatabase.removeBlk id b.khaos).2 }
    onSessions (fun e => .state e.toText) session.drop
    throw error

/-- The end of `apply_block_mode`: the block is linked, and the session committed. -/
def finishBlock (cacheBefore : TransactionCache) (session : Session) (block : RawBlock)
    (id : BlockId) (now : Int) (raw : RawHeader) (retained : Bool) : BlockM H Unit := do
  if raw.number < 0 then
    onSessions (fun e => .state e.toText) session.drop
    throw .heightMismatch
  else
    if !retained then linkBlock cacheBefore session block id now raw
    commitBlock cacheBefore session id raw retained

def applyBlockMode (block : RawBlock) (now : Int) (retained : Bool) : BlockM H BlockId := do
  let b ← get
  let (id, raw) ← Prog.ofExcept (fun e => e) (b.checkBlock env block now retained)
  let session ← onSessions (fun e => .state e.toText) Sessions.buildSessionEnabled
  match ← Prog.attempt (blockBody env session block id now raw) with
  | .error error => abandonBlock b.cache session error
  | .ok block => finishBlock b.cache session block id now raw retained
  pure id

def applyBlock (block : RawBlock) (now : Int) : BlockM H BlockId :=
  applyBlockMode env block now false

def applyForkBlock (block : RawBlock) (now : Int) : BlockM H BlockId :=
  applyBlockMode env block now true

def validateAndExecuteIn (session : Session) (block : RawBlock) (now : Int) : BlockM H BlockId := do
  let b ← get
  match block.blockHeader with
  | none => throw .missingHeader
  | some header =>
    match header.rawData with
    | none => throw .missingRawHeader
    | some raw =>
      if env.encodeRaw raw ≠ block.rawHeaderBytes then throw .rawHeaderMismatch
      let id ← Prog.ofExcept (fun e => e) (block.blockId env)
      let _ ← Prog.ofExcept (fun e => e) (b.checkHeader env block header raw now)
      let _ ← applyIn env session block now raw
      pure id

def validateBlock (block : RawBlock) (now : Int) : BlockM H BlockId := do
  let cache := (← get).cache
  let session ← onSessions (fun e => .state e.toText) Sessions.buildSessionEnabled
  let result ← Prog.attempt (validateAndExecuteIn env session block now)
  modify fun b => { b with cache := cache }
  match ← Prog.attempt (onSessions (fun e => .state e.toText) session.revoke) with
  | .ok () => Prog.ofExcept (fun e => e) result
  | .error error =>
    onSessions (fun e => .state e.toText) session.drop
    throw error

def retainCompetingBlock (block : RawBlock) (receivedAt : Int) : BlockM H BlockId := do
  let id ← Prog.ofExcept (fun e => e) (block.blockId env)
  let b ← get
  if b.khaos.containBlock id then throw (.duplicate id)
  match block.rawHeader with
  | none => throw .missingRawHeader
  | some raw =>
    match Hash32.ofBytes? raw.parentHash with
    | none => throw .parentMismatch
    | some parent =>
      onKhaos (fun e => .graph e.toText)
        (KhaosDatabase.push ⟨id, parent, raw.number, ⟨block, id, receivedAt⟩⟩)
      pure id

/-- The block of a checkpoint, as `reopen` reads it back. -/
def reopenBlock (view : Image) (point : CursorPoint) :
    Except BlockApplyError (KhaosBlockData ManagedBlock) := do
  let id : BlockId := point.identity
  let some bytes := view.lookup ⟨.block, id.bytes⟩
    | throw (.state "retained checkpoint block is missing")
  let raw ← RawBlock.decode env bytes
  let rawId ← raw.blockId env
  if rawId ≠ id || id.height ≠ point.block then
    throw (.state "retained checkpoint block identity mismatch")
  let some header := raw.rawHeader | throw .missingRawHeader
  let some parent := Hash32.ofBytes? header.parentHash | throw .parentMismatch
  let receivedAt ←
    match view.lookup ⟨.common, id.bytes⟩ with
    | some metadata =>
      match fromBe64 (metadata.take 8) with
      | some receivedAt => pure receivedAt
      | none => throw (.state "retained block receipt metadata is missing")
    | none =>
      if point.block = 0 then pure header.timestamp
      else throw (.state "retained block receipt metadata is missing")
  pure ⟨id, parent, id.height, ⟨raw, id, receivedAt⟩⟩

/-- The loop of `reopen`. -/
def reopenBlocks (view : Image) (points : List CursorPoint) :
    Prog (KhaosDatabase ManagedBlock) BlockApplyError Unit :=
  points.forM fun point => do
    let data ← Prog.ofExcept (fun e => e) (reopenBlock env view point)
    let db ← get
    Prog.mapError (fun e => .graph (KhaosError.toText e))
      (if db.hasData then KhaosDatabase.push data else KhaosDatabase.start data)

/-- `BlockManager::reopen`: Khaos, with the blocks of the last checkpoints. -/
def reopen (sessions : Sessions) (retainedDepth : Nat) :
    Except BlockApplyError (KhaosDatabase ManagedBlock) := do
  if retainedDepth = 0 then throw (.graph "retained depth must be positive")
  let points := sessions.checkpointPoints
  let view := sessions.readView
  let khaos := KhaosDatabase.new.setLimits
    (.forBlockPolicy env.limits.maxBlockBytes retainedDepth 2)
  match reopenBlocks env view (points.drop (points.length - retainedDepth)) khaos with
  | (.error e, _) => throw e
  | (.ok (), khaos) =>
    let some head := points.getLast? | throw (.state "checkpoint history is empty")
    let some numberBytes := view.lookup Marker.latestBlockHeaderNumber.key
      | throw (.state "missing dynamic property LATEST_BLOCK_HEADER_NUMBER")
    let some number := fromBe64 numberBytes
      | throw (.state "invalid dynamic property LATEST_BLOCK_HEADER_NUMBER")
    let some hash := view.lookup Marker.latestBlockHeaderHash.key
      | throw (.state "missing dynamic property LATEST_BLOCK_HEADER_HASH")
    if number ≠ head.block || hash ≠ head.identity.bytes then
      throw (.state "durable head does not match checkpoint history")
    pure khaos

end BlockManager

end RustTron.Execution
