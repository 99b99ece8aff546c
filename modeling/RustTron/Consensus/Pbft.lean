import RustTron.Primitives.I64
import RustTron.Library.Rows
import RustTron.Library.Prog
import RustTron.Primitives.Bytes

/-!
# The PBFT sidecar

Witnesses vote on a proposal in two phases, PREPARE and COMMIT. The sidecar of a node keeps a round
for each number and kind of proposal, caches votes that arrive before their round or before the
PREPARE of their witness, and returns a certificate once a quorum of COMMIT votes is there.

Signing a message and recovering its signer are parameters, and so is the type of keys. Sizes are
those of the wire format.

## Main definitions

* `Raw`, `SignedMessage`: messages, and their bytes
* `PbftContext`, `ProposalIdentity`, `Round`, `PbftSidecar`
* `PbftSidecar.preprepare`, `prepare`, `commit`: the three phases
* `PbftSidecar.handle`, `localPreprepare`, `expire`: the calls on a sidecar
-/

namespace RustTron.Consensus.Pbft

inductive MsgType where
  | viewChange
  | request
  | preprepare
  | prepare
  | commit
  deriving DecidableEq, Repr

def MsgType.wire : MsgType → Nat
  | viewChange => 0
  | request => 1
  | preprepare => 2
  | prepare => 3
  | commit => 4

inductive DataType where
  | block
  | srl
  deriving DecidableEq, Repr

def DataType.wire : DataType → Nat
  | block => 0
  | srl => 1

structure Raw where
  msgType : MsgType
  dataType : DataType
  viewN : Int64
  epoch : Int64
  data : Bytes
  deriving DecidableEq

/-! ## The wire format -/

/-- The groups of seven bits of a number, least significant first; one for each unit of `fuel`. -/
def varintGroups : Nat → Nat → Bytes
  | 0, n => [UInt8.ofNat n]
  | fuel + 1, n =>
    if n < 128 then [UInt8.ofNat n] else UInt8.ofNat (128 + n % 128) :: varintGroups fuel (n / 128)

/-- A varint. -/
def varint (n : Nat) : Bytes := varintGroups n n

/-- A number field: the default is left out. -/
def numberField (tag : UInt8) (n : Nat) : Bytes := if n = 0 then [] else tag :: varint n

/-- A field of bytes, also one that is empty. -/
def presentField (tag : UInt8) (bytes : Bytes) : Bytes := tag :: (varint bytes.length ++ bytes)

/-- A field of bytes: the default is left out. -/
def bytesField (tag : UInt8) (bytes : Bytes) : Bytes :=
  if bytes = [] then [] else presentField tag bytes

def Raw.bytes (raw : Raw) : Bytes :=
  numberField 0x08 raw.msgType.wire ++ (numberField 0x10 raw.dataType.wire ++
    (numberField 0x18 raw.viewN.toUInt64.toNat ++ (numberField 0x20 raw.epoch.toUInt64.toNat ++
      bytesField 0x2a raw.data)))

/-- The decimal digits of a number. -/
def decimal (x : Int) : Bytes :=
  (if x < 0 then [0x2d] else []) ++ (Nat.toDigits 10 x.natAbs).map fun c => UInt8.ofNat c.toNat

/-- `Raw::no`, in bytes. -/
def Raw.no (raw : Raw) : Bytes := decimal raw.viewN.toInt ++ 0x5f :: decimal raw.dataType.wire

/-- `append_hex`. -/
def hex (bytes : Bytes) : Bytes :=
  bytes.flatMap fun b => [b.toNat / 16, b.toNat % 16].map fun d =>
    UInt8.ofNat (if d < 10 then 0x30 + d else 0x57 + d)

def voteKey (raw : Raw) (witness : Bytes) : Bytes := raw.no ++ 0x5f :: hex witness

structure SignedMessage where
  raw : Raw
  signature : Bytes
  deriving DecidableEq

def SignedMessage.bytes (message : SignedMessage) : Bytes :=
  presentField 0x0a message.raw.bytes ++ bytesField 0x12 message.signature

def SignedMessage.encodedLen (message : SignedMessage) : Nat := message.bytes.length

/-- A block proposal and its signature, as the nodes of the network write them. -/
example : (⟨.preprepare, .block, 7, 42, [0x62, 0x6c, 0x6f, 0x63, 0x6b, 0x2d, 0x69, 0x64]⟩ :
    Raw).bytes =
    [0x08, 0x02, 0x18, 0x07, 0x20, 0x2a, 0x2a, 0x08, 0x62, 0x6c, 0x6f, 0x63, 0x6b, 0x2d, 0x69,
      0x64] := by
  decide

inductive PbftError where
  | missingSignature
  | crypto (message : String)
  | nonWitness
  | equivocation
  | capacity
  | localPreprepareOnly
  | wrongProposer
  | proposalMismatch
  | prepareCommitMismatch
  deriving DecidableEq, Repr

/-- What the sidecar uses of cryptography: the signature of a message, and the address whose key made
a signature of it. -/
structure Crypto (Key : Type) where
  sign : Key → Bytes → Except String Bytes
  recover : Bytes → Bytes → Except String Bytes

variable {Key : Type}

def SignedMessage.recoverWitness (crypto : Crypto Key) (message : SignedMessage) :
    Except PbftError Bytes :=
  if message.signature = [] then .error .missingSignature
  else (crypto.recover message.raw.bytes message.signature).mapError .crypto

def SignedMessage.signedAs (crypto : Crypto Key) (message : SignedMessage) (msgType : MsgType)
    (key : Key) : Except PbftError SignedMessage := do
  let raw := { message.raw with msgType := msgType }
  let signature ← (crypto.sign key raw.bytes).mapError .crypto
  pure ⟨raw, signature⟩

/-! ## The sidecar -/

def defaultQuorum : Nat := 19

/-- `Quorum::new`. -/
def quorumOf (configured : Option Nat) (committeeLen : Nat) : Nat :=
  max 1 (min (configured.getD defaultQuorum) (max committeeLen 1))

structure LocalSigner (Key : Type) where
  witness : Bytes
  key : Key

structure PbftBounds where
  roundTimeoutMillis : Int
  voteTtlMillis : Int
  maxRounds : Nat
  maxVotes : Nat
  maxRawDataBytes : Nat
  maxEncodedMessageBytes : Nat
  maxRoundBytes : Nat
  maxRetainedBytes : Nat

def PbftBounds.default : PbftBounds where
  roundTimeoutMillis := 60000
  voteTtlMillis := 120000
  maxRounds := 1000
  maxVotes := 10000
  maxRawDataBytes := 1048576
  maxEncodedMessageBytes := 1048704
  maxRoundBytes := 4194304
  maxRetainedBytes := 16777216

structure ProposalIdentity where
  dataType : DataType
  viewN : Int64
  epoch : Int64
  data : Bytes
  deriving DecidableEq

/-- `From<&Raw> for ProposalIdentity`. -/
def Raw.identity (raw : Raw) : ProposalIdentity := ⟨raw.dataType, raw.viewN, raw.epoch, raw.data⟩

structure ExpectedProposal where
  dataType : DataType
  viewN : Int64
  epoch : Int64
  proposer : Bytes
  data : Bytes

structure PbftContext (Key : Type) where
  nowMillis : Int
  syncing : Bool
  chainSwitch : Bool
  currentWitnesses : List Bytes
  beforeWitnesses : List Bytes
  beforeMaintenanceTime : Int64
  localSigners : List (LocalSigner Key)
  expectedProposals : List ExpectedProposal

namespace PbftContext

def committee (context : PbftContext Key) (epoch : Int64) : List Bytes :=
  if context.beforeMaintenanceTime < epoch then context.currentWitnesses else context.beforeWitnesses

def signerKeys (context : PbftContext Key) (epoch : Int64) : List Key :=
  (context.localSigners.filter fun signer => signer.witness ∈ context.committee epoch).map (·.key)

def expectedProposal (context : PbftContext Key) (raw : Raw) : Option ExpectedProposal :=
  context.expectedProposals.find? fun proposal =>
    proposal.dataType = raw.dataType && proposal.viewN = raw.viewN && proposal.epoch = raw.epoch

end PbftContext

structure CommitData where
  raw : Bytes
  dataType : DataType
  number : Int64
  epoch : Int64
  signatures : List Bytes
  deriving DecidableEq

inductive Effect where
  | forward (bytes : Bytes)
  | commit (commit : CommitData)
  deriving DecidableEq

/-- Votes by the address of their witness. -/
abbrev Votes := FMap Bytes SignedMessage

structure Round where
  startedAt : Int
  identity : Option ProposalIdentity
  prepare : Votes
  commit : Votes
  done : Bool
  retainedBytes : Nat

structure PbftSidecar where
  quorum : Option Nat
  bounds : PbftBounds
  rounds : FMap Bytes Round
  completed : FMap Bytes Int
  pendingPrepare : FMap Bytes (Int × SignedMessage)
  pendingCommit : FMap Bytes (Int × SignedMessage)
  retainedBytes : Nat

/-- Operations of the sidecar. -/
abbrev PbftM := Prog PbftSidecar PbftError

def saturatingSub (x y : Int) : Int := max i64Min (min i64Max (x - y))

/-- The entries of a map that `keep` keeps. -/
def retain {V : Type} (keep : V → Bool) (m : FMap Bytes V) : FMap Bytes V :=
  FMap.ofFun m.keys fun k => (m.lookup k).filter keep

/-- The retained bytes of the entries that `keep` does not keep. -/
def droppedBytes {V : Type} (keep : V → Bool) (size : V → Nat) (m : FMap Bytes V) : Nat :=
  FMap.total (fun _ v => if keep v then 0 else size v) m

namespace PbftSidecar

def new (quorum : Option Nat) (bounds : PbftBounds) : PbftSidecar where
  quorum := quorum
  bounds := bounds
  rounds := ∅
  completed := ∅
  pendingPrepare := ∅
  pendingCommit := ∅
  retainedBytes := 0

/-- `PbftSidecar::checked_size`, whose result its callers leave. -/
def checkedSize (message : SignedMessage) : PbftM Unit := do
  let s ← get
  if s.bounds.maxRawDataBytes < message.raw.data.length then throw .capacity
  else if s.bounds.maxEncodedMessageBytes < message.encodedLen then throw .capacity

def reserve (currentRound added : Nat) : PbftM Unit := do
  let s ← get
  if s.bounds.maxRoundBytes < currentRound + added || s.bounds.maxRetainedBytes <
      s.retainedBytes + added then
    throw .capacity

/-- A round is kept by `expire`. -/
def keepsRound (s : PbftSidecar) (now : Int) (round : Round) : Bool :=
  saturatingSub now round.startedAt ≤ s.bounds.roundTimeoutMillis

/-- An entry made at `at` is kept by `expire`. -/
def keepsEntry (s : PbftSidecar) (now madeAt : Int) : Bool :=
  saturatingSub now madeAt ≤ s.bounds.voteTtlMillis

/-- `PbftSidecar::expire`, with `expire_pending`. -/
def expire (now : Int) (s : PbftSidecar) : PbftSidecar :=
  let keepsVote := fun e : Int × SignedMessage => s.keepsEntry now e.1
  let size := fun e : Int × SignedMessage => e.2.encodedLen
  { s with
    rounds := retain (s.keepsRound now) s.rounds
    completed := retain (s.keepsEntry now) s.completed
    pendingPrepare := retain keepsVote s.pendingPrepare
    pendingCommit := retain keepsVote s.pendingCommit
    retainedBytes := s.retainedBytes - droppedBytes (s.keepsRound now) (·.retainedBytes) s.rounds -
      droppedBytes keepsVote size s.pendingPrepare - droppedBytes keepsVote size s.pendingCommit }

def removeRound (no : Bytes) (s : PbftSidecar) : PbftSidecar :=
  match s.rounds.lookup no with
  | none => s
  | some round => { s with
      rounds := s.rounds.erase no
      retainedBytes := s.retainedBytes - round.retainedBytes }

def cachePrepare (message : SignedMessage) (witness : Bytes) (now : Int) : PbftM Unit := do
  let s ← get
  let key := voteKey message.raw witness
  match s.pendingPrepare.lookup key with
  | some previous =>
    if previous.2.raw.identity ≠ message.raw.identity then throw .equivocation
  | none =>
    if s.bounds.maxVotes ≤ s.pendingPrepare.keys.card then throw .capacity
    reserve 0 message.encodedLen
    modify fun s => { s with
      pendingPrepare := s.pendingPrepare.insert key (now, message)
      retainedBytes := s.retainedBytes + message.encodedLen }

def cacheCommit (message : SignedMessage) (witness : Bytes) (now : Int) : PbftM Unit := do
  let s ← get
  let key := voteKey message.raw witness
  match s.pendingCommit.lookup key with
  | some previous =>
    if previous.2.raw.identity ≠ message.raw.identity then throw .equivocation
  | none =>
    if s.bounds.maxVotes ≤ s.pendingCommit.keys.card then throw .capacity
    reserve 0 message.encodedLen
    modify fun s => { s with
      pendingCommit := s.pendingCommit.insert key (now, message)
      retainedBytes := s.retainedBytes + message.encodedLen }

/-- The signatures of a round, in the order of their witnesses. -/
def signatures (votes : Votes) : List Bytes :=
  (FMap.sortedRows keyLe votes).map fun row => row.2.signature

def commit (message : SignedMessage) (witness : Bytes) (context : PbftContext Key) :
    PbftM (List Effect) := do
  let no := message.raw.no
  let identity := message.raw.identity
  let s ← get
  match s.rounds.lookup no with
  | none => do
    cacheCommit message witness context.nowMillis
    pure []
  | some round =>
    if round.identity ≠ some identity then throw .proposalMismatch
    else
      match round.prepare.lookup witness with
      | none => do
        cacheCommit message witness context.nowMillis
        pure []
      | some prepare =>
        if prepare.raw.identity ≠ identity then throw .prepareCommitMismatch
        else
          match round.commit.lookup witness with
          | some previous => if previous.raw.identity ≠ identity then throw .equivocation else pure []
          | none => do
            let size := message.encodedLen
            if s.bounds.maxVotes ≤ round.commit.keys.card then throw .capacity
            reserve round.retainedBytes size
            let votes := round.commit.insert witness message
            modify fun s => { s with
              rounds := s.rounds.insert no { round with
                commit := votes
                retainedBytes := round.retainedBytes + size }
              retainedBytes := s.retainedBytes + size }
            let quorum := quorumOf s.quorum (context.committee message.raw.epoch).length
            if votes.keys.card < quorum then pure []
            else do
              let data : CommitData := {
                raw := message.raw.bytes
                dataType := message.raw.dataType
                number := message.raw.viewN
                epoch := message.raw.epoch
                signatures := signatures votes }
              modify (removeRound no)
              modify fun s => { s with completed := s.completed.insert no context.nowMillis }
              pure (if context.syncing then [] else [.commit data])

/-- The effects of a loop, one after the other. -/
def collect {α : Type} (body : α → PbftM (List Effect)) : List α → PbftM (List Effect)
  | [] => pure []
  | a :: rest => do
    let effects ← body a
    let more ← collect body rest
    pure (effects ++ more)

/-- The vote of a local key, forwarded and counted by `count`. -/
def voteLocally (crypto : Crypto Key) (message : SignedMessage) (msgType : MsgType)
    (count : SignedMessage → Bytes → PbftM (List Effect)) (key : Key) : PbftM (List Effect) := do
  let vote ← Prog.ofExcept id (message.signedAs crypto msgType key)
  let witness ← Prog.ofExcept id (vote.recoverWitness crypto)
  let effects ← count vote witness
  pure (.forward vote.bytes :: effects)

/-- The COMMIT that was cached for this vote, counted. -/
def commitCached (crypto : Crypto Key) (cachedKey : Bytes) (context : PbftContext Key) :
    PbftM (List Effect) := do
  let s ← get
  match s.pendingCommit.lookup cachedKey with
  | none => pure []
  | some cached => do
    modify fun s => { s with
      pendingCommit := s.pendingCommit.erase cachedKey
      retainedBytes := s.retainedBytes - cached.2.encodedLen }
    let signer ← Prog.ofExcept id (cached.2.recoverWitness crypto)
    commit cached.2 signer context

/-- The COMMIT votes of the local keys, once a quorum has prepared. -/
def commitLocally (crypto : Crypto Key) (message : SignedMessage) (context : PbftContext Key) :
    PbftM (List Effect) := do
  modify fun s =>
    match s.rounds.lookup message.raw.no with
    | none => s
    | some round => { s with rounds := s.rounds.insert message.raw.no { round with done := true } }
  collect (voteLocally crypto message .commit fun vote witness => commit vote witness context)
    (context.signerKeys message.raw.epoch)

def prepare (crypto : Crypto Key) (message : SignedMessage) (witness : Bytes)
    (context : PbftContext Key) : PbftM (List Effect) := do
  let no := message.raw.no
  let identity := message.raw.identity
  let s ← get
  match (s.rounds.lookup no).bind fun round => round.identity.map fun i => (round, i) with
  | none => do
    cachePrepare message witness context.nowMillis
    pure []
  | some (round, roundIdentity) =>
    if roundIdentity ≠ identity then throw .proposalMismatch
    else
      match round.prepare.lookup witness with
      | some previous => if previous.raw.identity ≠ identity then throw .equivocation else pure []
      | none => do
        let size := message.encodedLen
        if s.bounds.maxVotes ≤ round.prepare.keys.card then throw .capacity
        reserve round.retainedBytes size
        let votes := round.prepare.insert witness message
        modify fun s => { s with
          rounds := s.rounds.insert no { round with
            prepare := votes
            retainedBytes := round.retainedBytes + size }
          retainedBytes := s.retainedBytes + size }
        let effects ← commitCached crypto (voteKey message.raw witness) context
        let s ← get
        let quorum := quorumOf s.quorum (context.committee message.raw.epoch).length
        if (s.completed.lookup no).isSome then pure effects
        else if round.done || votes.keys.card < quorum || context.syncing then pure effects
        else do
          let more ← commitLocally crypto message context
          pure (effects ++ more)

/-- The cached PREPARE votes of a proposal, in the order of their keys. -/
def cachedPrepares (s : PbftSidecar) (identity : ProposalIdentity) : List (Bytes × SignedMessage) :=
  ((FMap.sortedRows keyLe s.pendingPrepare).filter fun row => row.2.2.raw.identity = identity).map
    fun row => (row.1, row.2.2)

/-- A cached PREPARE, taken out of the cache and counted. -/
def prepareCached (crypto : Crypto Key) (context : PbftContext Key) (cached : Bytes × SignedMessage) :
    PbftM (List Effect) := do
  modify fun s =>
    match s.pendingPrepare.lookup cached.1 with
    | none => s
    | some removed => { s with
        pendingPrepare := s.pendingPrepare.erase cached.1
        retainedBytes := s.retainedBytes - removed.2.encodedLen }
  let signer ← Prog.ofExcept id (cached.2.recoverWitness crypto)
  prepare crypto cached.2 signer context

/-- The checks of `preprepare` and the round it opens. Nothing is opened on a chain switch, which
drops the round, and where the round is open already. -/
def openRound (message : SignedMessage) (witness : Option Bytes) (context : PbftContext Key) :
    PbftM Bool := do
  let no := message.raw.no
  if context.chainSwitch then do
    modify (removeRound no)
    pure false
  else
    match context.expectedProposal message.raw with
    | none => throw .proposalMismatch
    | some expected =>
      if expected.data ≠ message.raw.data then throw .proposalMismatch
      else if witness.any fun signer => signer ≠ expected.proposer then throw .wrongProposer
      else do
        let s ← get
        match s.rounds.lookup no with
        | some round =>
          if round.identity = some message.raw.identity then pure false else throw .proposalMismatch
        | none => do
          if s.bounds.maxRounds ≤ s.rounds.keys.card then throw .capacity
          let size := message.encodedLen
          reserve 0 size
          modify fun s => { s with
            rounds := s.rounds.insert no {
              startedAt := context.nowMillis
              identity := some message.raw.identity
              prepare := ∅
              commit := ∅
              done := false
              retainedBytes := size }
            retainedBytes := s.retainedBytes + size }
          pure true

/-- The PREPARE votes of an opened round: those of the local keys, then the cached ones. -/
def prepareOpened (crypto : Crypto Key) (message : SignedMessage) (context : PbftContext Key) :
    PbftM (List Effect) := do
  let effects ← (if context.syncing then pure []
    else collect (voteLocally crypto message .prepare
      fun vote witness => prepare crypto vote witness context)
      (context.signerKeys message.raw.epoch))
  let s ← get
  let more ← collect (prepareCached crypto context) (s.cachedPrepares message.raw.identity)
  pure (effects ++ more)

def preprepare (crypto : Crypto Key) (message : SignedMessage) (witness : Option Bytes)
    (context : PbftContext Key) : PbftM (List Effect) := do
  let opened ← openRound message witness context
  if opened then prepareOpened crypto message context else pure []

/-- `PbftSidecar::dispatch`. The witness of a message of the network is known. -/
def dispatch (crypto : Crypto Key) (message : SignedMessage) (witness : Option Bytes)
    (context : PbftContext Key) : PbftM (List Effect) := do
  let s ← get
  if (s.completed.lookup message.raw.no).isSome then pure []
  else
    match message.raw.msgType, witness with
    | .preprepare, _ => preprepare crypto message witness context
    | .prepare, some witness => prepare crypto message witness context
    | .commit, some witness => commit message witness context
    | _, _ => pure []

def handle (crypto : Crypto Key) (message : SignedMessage) (context : PbftContext Key) :
    PbftM (List Effect) := do
  modify (expire context.nowMillis)
  checkedSize message
  let witness ← Prog.ofExcept id (message.recoverWitness crypto)
  if witness ∉ context.committee message.raw.epoch then throw .nonWitness
  else dispatch crypto message (some witness) context

def localPreprepare (crypto : Crypto Key) (message : SignedMessage) (context : PbftContext Key) :
    PbftM (List Effect) := do
  modify (expire context.nowMillis)
  checkedSize message
  if message.raw.msgType ≠ .preprepare then throw .localPreprepareOnly
  else dispatch crypto message none context

end PbftSidecar

end RustTron.Consensus.Pbft
