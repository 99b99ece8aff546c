import RustTron.Primitives.Bytes
import RustTron.Primitives.Usize
import RustTron.Library.FMap
import Mathlib

/-!
# Block synchronization

A node that is behind sends a sparse summary of its chain, the other answers with the ids that
follow the last block they share, and a coordinator asks for these blocks: their ids move from the
queue of the peer that named them to the requests, then to the blocks in process.

The iteration order of a hash map is not fixed. Where a result depends on it, the order is an
argument.

## Main definitions

* `sparseChainSummary`, `commonBlock`, `answerSyncRequest`, `validateChainInventory`
* `SyncCoordinator`: the queues, the requests and the blocks in process
* `installInventory`, `nextBatch`, `receive`, `applied`, `retryExpired`, `disconnect`
-/

namespace RustTron.Network

def maxChainSummary : Nat := 30

def syncBatch : Nat := 2000

def maxChainInventory : Nat := syncBatch + 1

def maxPendingBlocks : Nat := 500

def maxBlocksPerPeer : Nat := 100

def syncRequestTimeoutMs : Int := 5000

def syncBlockIdBytes : Nat := 40

def maxOutstandingChainRequests : Nat := 30

structure SyncBlockId where
  hash : Hash32
  number : Int
  deriving DecidableEq

structure SyncBlockChain where
  ids : List SyncBlockId

structure ChainInventory where
  ids : List SyncBlockId
  remain : Int

inductive SyncError where
  | emptySummary
  | summaryTooLarge
  | unknownFirst
  | regressed
  | noCommonBlock
  | emptyInventory
  | inventoryTooLarge
  | shortInventory
  | negativeRemain
  | nonConsecutive
  | unlinkedInventory
  | futureInventory
  | unrequestedBlock
  | outOfOrder
  | globalPendingLimit
  | peerPendingLimit
  | invalidRequestToken
  | globalByteLimit
  | peerByteLimit
  | chainRequestLimit
  deriving DecidableEq, Repr

/-! ### The exchange of a summary and an inventory -/

/-- The loop of `sparse_chain_summary`: `room` entries may still be added. -/
def sparseFrom (idAt : Int → Option SyncBlockId) (high : Int) :
    (fuel room : Nat) → (low : Int) → List SyncBlockId
  | 0, _, _ => []
  | fuel + 1, room, low =>
    if low ≤ high ∧ 0 < room then
      let advance := (wrapI64 (wrapI64 (high - low) + 2)).tdiv 2
      let next := saturateI64 (low + advance)
      match idAt low with
      | some id =>
        if advance ≤ 0 then [id] else id :: sparseFrom idAt high fuel (room - 1) next
      | none => if advance ≤ 0 then [] else sparseFrom idAt high fuel room next
    else []

/-- `sparse_chain_summary`. Each round leaves at most half of the distance, so that 64 rounds reach
`high`, and a round there fills a place, if `high` is not below `i64::MAX`. -/
def sparseChainSummary (low high : Int) (idAt : Int → Option SyncBlockId) : List SyncBlockId :=
  if high < low then [] else sparseFrom idAt high (64 + maxChainSummary) maxChainSummary low

def commonBlock (summary : List SyncBlockId) (onMain : SyncBlockId → Bool) : Option SyncBlockId :=
  summary.reverse.find? onMain

/-- The heights from `low` to `high`. -/
def heights (low high : Int) : List Int :=
  (List.range (high - low + 1).toNat).map fun n : Nat => low + (n : Int)

def answerSyncRequest (request : SyncBlockChain) (head : Int) (previousLast : Option Int)
    (onMain : SyncBlockId → Bool) (idAt : Int → Option SyncBlockId) :
    Except SyncError ChainInventory :=
  match request.ids with
  | [] => .error .emptySummary
  | first :: rest =>
    if maxChainSummary < (first :: rest).length then .error .summaryTooLarge
    else if !onMain first then .error .unknownFirst
    else
      let last := ((first :: rest).getLast (by simp)).number
      if previousLast.any fun n => last < n then .error .regressed
      else
        match commonBlock (first :: rest) onMain with
        | none => .error .noCommonBlock
        | some common =>
          let stop := min head (saturateI64 (common.number + syncBatch))
          match (heights common.number stop).mapM idAt with
          | none => .error .noCommonBlock
          | some ids => .ok ⟨ids, saturateI64 (head - stop)⟩

/-- Each number is one more than the number before it, as an `i64`. -/
def consecutive : List SyncBlockId → Bool
  | a :: b :: rest => b.number == wrapI64 (a.number + 1) && consecutive (b :: rest)
  | _ => true

def validateChainInventory (inv : ChainInventory) (requested : SyncBlockChain) (maxFuture : Int) :
    Except SyncError Unit :=
  match inv.ids with
  | [] => .error .emptyInventory
  | first :: rest =>
    if maxChainInventory < (first :: rest).length then .error .inventoryTooLarge
    else if inv.remain < 0 then .error .negativeRemain
    else if inv.remain ≠ 0 ∧ (first :: rest).length < syncBatch then .error .shortInventory
    else if !consecutive (first :: rest) then .error .nonConsecutive
    else if first ∉ requested.ids then .error .unlinkedInventory
    else if maxFuture < saturateI64 (((first :: rest).getLast (by simp)).number + inv.remain) then
      .error .futureInventory
    else .ok ()

/-! ### The coordinator -/

structure SyncLimits where
  globalCount : Nat
  peerCount : Nat
  globalBytes : Nat
  peerBytes : Nat

def SyncLimits.default : SyncLimits where
  globalCount := maxPendingBlocks
  peerCount := maxBlocksPerPeer
  globalBytes := maxPendingBlocks * syncBlockIdBytes
  peerBytes := maxBlocksPerPeer * syncBlockIdBytes

abbrev ChainRequestToken := UInt64

/-- `SyncCoordinator`, over the addresses `Peer`. -/
structure SyncCoordinator (Peer : Type) where
  queues : FMap Peer (List SyncBlockId)
  requested : FMap SyncBlockId (Peer × Int)
  inProcess : FMap SyncBlockId Peer
  chainRequests : FMap Peer ChainRequestToken
  nextToken : UInt64
  limits : SyncLimits

namespace SyncCoordinator

variable {Peer : Type} [LinearOrder Peer]

def withLimits (limits : SyncLimits) : SyncCoordinator Peer where
  queues := ∅
  requested := ∅
  inProcess := ∅
  chainRequests := ∅
  nextToken := 0
  limits := limits

/-- The ids that are queued for a peer. -/
def queueOf (s : SyncCoordinator Peer) (peer : Peer) : List SyncBlockId :=
  (s.queues.lookup peer).getD []

/-- The number of requests made to a peer. -/
def requestedCount (s : SyncCoordinator Peer) (peer : Peer) : Nat :=
  s.requested.total fun _ entry => if entry.1 = peer then 1 else 0

/-- The number of blocks of a peer in process. -/
def inProcessCount (s : SyncCoordinator Peer) (peer : Peer) : Nat :=
  s.inProcess.total fun _ owner => if owner = peer then 1 else 0

/-- The count of `peer_usage`. -/
def peerCount (s : SyncCoordinator Peer) (peer : Peer) : Nat :=
  (s.queueOf peer).length + s.requestedCount peer + s.inProcessCount peer

/-- The count of `global_usage`. -/
def globalCount (s : SyncCoordinator Peer) : Nat :=
  s.queues.total (fun _ queue => queue.length) + s.requested.total (fun _ _ => 1) +
    s.inProcess.total fun _ _ => 1

/-- The bytes of a count of ids. -/
def idBytes (count : Nat) : Nat := saturateUsize (count * syncBlockIdBytes)

def contains (s : SyncCoordinator Peer) (id : SyncBlockId) : Bool :=
  s.queues.keys.filter (fun peer => id ∈ s.queueOf peer) ≠ ∅ ∨ id ∈ s.requested ∨ id ∈ s.inProcess

def issueChainRequest (s : SyncCoordinator Peer) (peer : Peer) :
    Except SyncError ChainRequestToken × SyncCoordinator Peer :=
  if peer ∉ s.chainRequests ∧ maxOutstandingChainRequests ≤ s.chainRequests.keys.card then
    (.error .chainRequestLimit, s)
  else
    let token := s.nextToken + 1
    (.ok token, { s with
      nextToken := token
      chainRequests := s.chainRequests.insert peer token })

/-- The ids that `install_inventory` queues. -/
def additions (s : SyncCoordinator Peer) (inv : ChainInventory) (known : SyncBlockId → Bool) :
    List SyncBlockId :=
  (inv.ids.drop 1).filter fun id => !known id && !s.contains id

def installInventory (s : SyncCoordinator Peer) (peer : Peer) (inv : ChainInventory)
    (known : SyncBlockId → Bool) : Except SyncError Unit × SyncCoordinator Peer :=
  let additions := s.additions inv known
  let addCount := additions.length
  let addBytes := idBytes addCount
  if s.limits.globalCount < saturateUsize (s.globalCount + addCount) then
    (.error .globalPendingLimit, s)
  else if s.limits.globalBytes < saturateUsize (idBytes s.globalCount + addBytes) then
    (.error .globalByteLimit, s)
  else if s.limits.peerCount < saturateUsize (s.peerCount peer + addCount) then
    (.error .peerPendingLimit, s)
  else if s.limits.peerBytes < saturateUsize (idBytes (s.peerCount peer) + addBytes) then
    (.error .peerByteLimit, s)
  else (.ok (), { s with queues := s.queues.insert peer (s.queueOf peer ++ additions) })

def installInventoryForRequest (s : SyncCoordinator Peer) (peer : Peer) (token : ChainRequestToken)
    (inv : ChainInventory) (known : SyncBlockId → Bool) :
    Except SyncError Unit × SyncCoordinator Peer :=
  if s.chainRequests.lookup peer ≠ some token then (.error .invalidRequestToken, s)
  else
    { s with chainRequests := s.chainRequests.erase peer }.installInventory peer inv known

/-- The loop of `next_batch`: the ids it returns, the rest of the queue, and the requests. -/
def takeBatch (peer : Peer) (now : Int) : (room : Nat) → List SyncBlockId →
    FMap SyncBlockId (Peer × Int) →
      List SyncBlockId × List SyncBlockId × FMap SyncBlockId (Peer × Int)
  | 0, queue, requested => ([], queue, requested)
  | _ + 1, [], requested => ([], [], requested)
  | room + 1, id :: queue, requested =>
    let rest := takeBatch peer now room queue (requested.insert id (peer, now))
    (id :: rest.1, rest.2)

/-- The room of a peer for further requests. -/
def capacity (s : SyncCoordinator Peer) (peer : Peer) : Nat :=
  s.limits.peerCount - (s.requestedCount peer + s.inProcessCount peer)

/-- `next_batch`, which never fails. -/
def nextBatch (s : SyncCoordinator Peer) (peer : Peer) (now : Int) :
    List SyncBlockId × SyncCoordinator Peer :=
  let batch := takeBatch peer now (s.capacity peer) (s.queueOf peer) s.requested
  (batch.1, { s with
    queues := s.queues.insert peer batch.2.1
    requested := batch.2.2 })

/-- The requests made to a peer. -/
def requestsOf (s : SyncCoordinator Peer) (peer : Peer) : Finset SyncBlockId :=
  s.requested.keys.filter fun id => (s.requested.lookup id).map Prod.fst = some peer

def receive (s : SyncCoordinator Peer) (peer : Peer) (id : SyncBlockId) :
    Except SyncError Unit × SyncCoordinator Peer :=
  match s.requested.lookup id with
  | none => (.error .unrequestedBlock, s)
  | some (owner, _) =>
    if owner ≠ peer then (.error .unrequestedBlock, s)
    else if ((s.requestsOf peer).image SyncBlockId.number).min ≠ ↑id.number then
      (.error .outOfOrder, s)
    else (.ok (), { s with
      requested := s.requested.erase id
      inProcess := s.inProcess.insert id peer })

def applied (s : SyncCoordinator Peer) (id : SyncBlockId) : SyncCoordinator Peer :=
  { s with inProcess := s.inProcess.erase id }

/-- A request made at `at` has expired. -/
def isExpired (now madeAt : Int) : Bool := syncRequestTimeoutMs ≤ saturateI64 (now - madeAt)

/-- The order in which `retry_expired` sorts: by height, then by peer. -/
def retryLe (a b : SyncBlockId × Peer) : Bool :=
  a.1.number < b.1.number || (a.1.number == b.1.number && a.2 ≤ b.2)

/-- One request taken back by `retry_expired`. -/
def retryOne (s : SyncCoordinator Peer) (entry : SyncBlockId × Peer) : SyncCoordinator Peer :=
  { s with
    requested := s.requested.erase entry.1
    queues := s.queues.insert entry.2 (entry.1 :: s.queueOf entry.2) }

/-- The expired requests among the entries `listing`, sorted. -/
def expiredOf (now : Int) (listing : List (SyncBlockId × Peer × Int)) :
    List (SyncBlockId × Peer) :=
  ((listing.filter fun entry => isExpired now entry.2.2).map fun entry =>
    (entry.1, entry.2.1)).mergeSort retryLe

/-- `retry_expired`, where the map of the requests is iterated in the order `listing`. -/
def retryExpired (s : SyncCoordinator Peer) (now : Int)
    (listing : List (SyncBlockId × Peer × Int)) : List SyncBlockId × SyncCoordinator Peer :=
  let expired := expiredOf now listing
  (expired.map Prod.fst, expired.reverse.foldl retryOne s)

/-- `listing` is an order in which the map of the requests is iterated. -/
def Lists (s : SyncCoordinator Peer) (listing : List (SyncBlockId × Peer × Int)) : Prop :=
  (listing.map Prod.fst).Nodup ∧
    ∀ id peer madeAt, (id, peer, madeAt) ∈ listing ↔ s.requested.lookup id = some (peer, madeAt)

def disconnect (s : SyncCoordinator Peer) (peer : Peer) : SyncCoordinator Peer :=
  { s with
    chainRequests := s.chainRequests.erase peer
    queues := s.queues.erase peer
    requested := s.requested.retain fun _ entry => entry.1 ≠ peer
    inProcess := s.inProcess.retain fun _ owner => owner ≠ peer }

end SyncCoordinator

end RustTron.Network
