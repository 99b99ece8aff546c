import RustTron.Network.Sync
import Mathlib

/-!
# Gossip of transactions and blocks

Peers announce items by their hashes. A new one waits in a queue until it is asked for at one of the
peers that announced it, its providers, and a request that goes stale puts it back. What arrives is
cached, for a while.

The iteration order of a hash map is not fixed. Where a result depends on it, the order is an
argument. The caches are lists of their rows; what is done to them does not depend on the order.

## Main definitions

* `TimedKeys`, `PeerGossip`, `GossipService`: the state
* `receiveInventory`, `scheduleFetch`, `receivePayload`, `disconnect`, `expireRequests`
-/

namespace RustTron.Network

def pendingInventoryLimit : Nat := 100000

def txCacheLimit : Nat := 50000

def blockCacheLimit : Nat := 10

def inventoryCacheLimit : Nat := 20000

def inventoryCacheTtlMs : Int := 3600000

def providerKeyBytes : Nat := 48

def providerPeerBytes : Nat := 32

def txCacheTtlMs : Int := 3600000

def blockCacheTtlMs : Int := 60000

def blockStaleMs : Int := 3000

def requestStaleMs : Int := 15000

def advRequestTimeoutMs : Int := 20000

/-- `MAX_FRAME_SIZE`, and `MAX_GOSSIP_PAYLOAD_BYTES`. -/
def maxFrameSize : Nat := 5242880

def txCacheByteLimit : Nat := 64 * 1024 * 1024

def blockCacheByteLimit : Nat := 32 * 1024 * 1024

inductive InventoryType where
  | transaction
  | block
  deriving DecidableEq, Repr

structure InventoryKey where
  hash : Hash32
  kind : InventoryType
  deriving DecidableEq

structure Advertisement where
  kind : InventoryType
  hashes : List Hash32

structure FetchRequest where
  kind : InventoryType
  hashes : List Hash32

structure Payload where
  key : InventoryKey
  bytes : Bytes
  block : Option SyncBlockId
  producedAtMs : Int

/-- The errors of `GossipError` that the modelled functions return. -/
inductive GossipError where
  | duplicate
  | syncing
  | inventoryLimit
  | inventoryRateLimited
  | providerLimit
  | uncorrelated
  | payloadTooLarge
  | cacheByteLimit
  deriving DecidableEq, Repr

structure GossipLimits where
  txInventoryPer10s : Nat
  blockInventoryPer10s : Nat
  providerKeys : Nat
  providerBytes : Nat

def GossipLimits.default : GossipLimits where
  txInventoryPer10s := 10000
  blockInventoryPer10s := 100
  providerKeys := 100000
  providerBytes := 8 * 1024 * 1024

/-- `now.saturating_sub(at)`. -/
def age (now at_ : Int) : Int := saturateI64 (now - at_)

/-! ### Keys with their times -/

structure TimedKeys where
  entries : FMap InventoryKey Int
  order : List (InventoryKey × Int)

namespace TimedKeys

def new : TimedKeys := ⟨∅, []⟩

/-- A key that left the order leaves the entries, unless it was put again since. -/
def forget (entries : FMap InventoryKey Int) (key : InventoryKey) (at_ : Int) :
    FMap InventoryKey Int :=
  if entries.lookup key = some at_ then entries.erase key else entries

/-- The front of the order is of no use any more. -/
def isStale (entries : FMap InventoryKey Int) (now : Int) (key : InventoryKey) (at_ : Int) : Bool :=
  match entries.lookup key with
  | none => true
  | some current => current ≠ at_ || inventoryCacheTtlMs ≤ age now at_

/-- The loop of `purge`. -/
def purgeFrom (now : Int) : FMap InventoryKey Int → List (InventoryKey × Int) → TimedKeys
  | entries, [] => ⟨entries, []⟩
  | entries, (key, at_) :: order =>
    if isStale entries now key at_ then purgeFrom now (forget entries key at_) order
    else ⟨entries, (key, at_) :: order⟩

def purge (t : TimedKeys) (now : Int) : TimedKeys := purgeFrom now t.entries t.order

/-- The loop of `insert`. -/
def trimFrom : FMap InventoryKey Int → List (InventoryKey × Int) → TimedKeys
  | entries, [] => ⟨entries, []⟩
  | entries, (old, at_) :: order =>
    if inventoryCacheLimit < entries.keys.card then trimFrom (forget entries old at_) order
    else ⟨entries, (old, at_) :: order⟩

def insert (t : TimedKeys) (key : InventoryKey) (now : Int) : TimedKeys :=
  let purged := t.purge now
  trimFrom (purged.entries.insert key now) (purged.order ++ [(key, now)])

end TimedKeys

/-! ### The service -/

structure Cached where
  payload : Payload
  at_ : Int
  sequence : UInt64

structure ProviderEntry (Peer : Type) where
  peers : FMap Peer Int

/-- `PeerGossip`; an array over the two types is a function of them. -/
structure PeerGossip where
  complete : Bool
  received : TimedKeys
  spread : TimedKeys
  requested : FMap InventoryKey Int
  inventoryRateStart : InventoryType → Int
  inventoryRateCount : InventoryType → Nat

def PeerGossip.new : PeerGossip where
  complete := false
  received := .new
  spread := .new
  requested := ∅
  inventoryRateStart := fun _ => 0
  inventoryRateCount := fun _ => 0

/-- `GossipService`, over the addresses `Peer`. -/
structure GossipService (Peer : Type) where
  peers : FMap Peer PeerGossip
  providers : FMap InventoryKey (ProviderEntry Peer)
  pending : List InventoryKey
  tx : List (Hash32 × Cached)
  blocks : List (Hash32 × Cached)
  txBytes : Nat
  blockBytes : Nat
  limits : GossipLimits
  sequence : UInt64

namespace GossipService

variable {Peer : Type} [LinearOrder Peer]

def withLimits (limits : GossipLimits) : GossipService Peer where
  peers := ∅
  providers := ∅
  pending := []
  tx := []
  blocks := []
  txBytes := 0
  blockBytes := 0
  limits := limits
  sequence := 0

/-- The state of a peer, a new one where there is none. -/
def peerOrNew (s : GossipService Peer) (peer : Peer) : PeerGossip :=
  (s.peers.lookup peer).getD .new

/-- `add_peer`, and `set_sync_complete`, which has the same body. -/
def addPeer (s : GossipService Peer) (peer : Peer) (syncComplete : Bool) : GossipService Peer :=
  { s with peers := s.peers.insert peer { s.peerOrNew peer with complete := syncComplete } }

def setSyncComplete (s : GossipService Peer) (peer : Peer) (value : Bool) : GossipService Peer :=
  s.addPeer peer value

/-- The bytes of the payloads of a cache. -/
def cacheBytes (cache : List (Hash32 × Cached)) : Nat :=
  (cache.map fun row => row.2.payload.bytes.length).sum

def providerBytes (s : GossipService Peer) : Nat :=
  saturateUsize (FMap.total (fun _ entry => providerKeyBytes +
    entry.peers.keys.card * providerPeerBytes) s.providers)

/-- The cache of a type. -/
def cacheOf (s : GossipService Peer) : InventoryType → List (Hash32 × Cached)
  | .transaction => s.tx
  | .block => s.blocks

def contains (s : GossipService Peer) (key : InventoryKey) : Bool :=
  (s.cacheOf key.kind).any fun row => row.1 = key.hash

/-- The providers with what has not expired. -/
def purgeProviders (providers : FMap InventoryKey (ProviderEntry Peer)) (now : Int) :
    FMap InventoryKey (ProviderEntry Peer) :=
  (providers.mapValues fun _ entry =>
    ⟨entry.peers.retain fun _ at_ => age now at_ < inventoryCacheTtlMs⟩).retain
      fun _ entry => entry.peers.keys.card ≠ 0

def purge (s : GossipService Peer) (now : Int) : GossipService Peer :=
  let tx := s.tx.filter fun row => age now row.2.at_ < txCacheTtlMs
  let blocks := s.blocks.filter fun row =>
    age now row.2.at_ < blockCacheTtlMs && age now row.2.payload.producedAtMs < blockStaleMs
  let providers := purgeProviders s.providers now
  { s with
    tx := tx
    txBytes := cacheBytes tx
    blocks := blocks
    blockBytes := cacheBytes blocks
    peers := s.peers.mapValues fun _ state =>
      { state with received := state.received.purge now, spread := state.spread.purge now }
    providers := providers
    pending := s.pending.filter fun key => key ∈ providers }

/-! #### The caches -/

/-- The count limit and the byte limit of a cache. -/
def cacheLimits : InventoryType → Nat × Nat
  | .transaction => (txCacheLimit, txCacheByteLimit)
  | .block => (blockCacheLimit, blockCacheByteLimit)

/-- The bytes that a cache is said to hold. -/
def retainedBytes (s : GossipService Peer) : InventoryType → Nat
  | .transaction => s.txBytes
  | .block => s.blockBytes

/-- A cache and the bytes it holds are replaced. -/
def putCache (s : GossipService Peer) (kind : InventoryType) (rows : List (Hash32 × Cached))
    (bytes : Nat) : GossipService Peer :=
  match kind with
  | .transaction => { s with tx := rows, txBytes := bytes }
  | .block => { s with blocks := rows, blockBytes := bytes }

/-- The row that is evicted first: the oldest. -/
def oldest (rows : List (Hash32 × Cached)) : Option (Hash32 × Cached) :=
  letI : Preorder Int := Int.instLinearOrder.toPreorder
  rows.argmin fun row => toLex (row.2.at_, toLex (row.2.sequence.toNat, row.1.bytes.map UInt8.toNat))

/-- The bytes of the payload under a hash. -/
def bytesUnder (rows : List (Hash32 × Cached)) (hash : Hash32) : Nat :=
  ((rows.find? fun row => row.1 = hash).map fun row => row.2.payload.bytes.length).getD 0

/-- The loop of `cache`, which makes room for a payload under `hash`. It says whether there is room
at last. Each round takes one row away, so that `fuel` above their count is enough. -/
def evict (hash : Hash32) (payloadBytes replacedBytes : Nat) (limits : Nat × Nat) :
    (fuel : Nat) → List (Hash32 × Cached) → (retained : Nat) →
      Bool × List (Hash32 × Cached) × Nat
  | 0, rows, retained => (false, rows, retained)
  | fuel + 1, rows, retained =>
    let others := rows.filter fun row => row.1 ≠ hash
    if limits.1 ≤ others.length ∨
        limits.2 < saturateUsize (retained - replacedBytes + payloadBytes) then
      match oldest others with
      | none => (false, rows, retained)
      | some old =>
        evict hash payloadBytes replacedBytes limits fuel (rows.filter fun row => row.1 ≠ old.1)
          (retained - old.2.payload.bytes.length)
    else (true, rows, retained)

/-- `cache`. A failure leaves what was evicted out. -/
def cache (s : GossipService Peer) (payload : Payload) (now : Int) :
    Except GossipError Unit × GossipService Peer :=
  let s := s.purge now
  let kind := payload.key.kind
  let hash := payload.key.hash
  let size := payload.bytes.length
  if maxFrameSize < size then (.error .payloadTooLarge, s)
  else if (cacheLimits kind).2 < size then (.error .cacheByteLimit, s)
  else
    let rows := s.cacheOf kind
    let room := evict hash size (bytesUnder rows hash) (cacheLimits kind) (rows.length + 1) rows
      (s.retainedBytes kind)
    if room.1 then
      let sequence := s.sequence + 1
      let others := room.2.1.filter fun row => row.1 ≠ hash
      let retained := room.2.2 - bytesUnder room.2.1 hash
      (.ok (), { s.putCache kind (others ++ [(hash, ⟨payload, now, sequence⟩)])
        (saturateUsize (retained + size)) with sequence := sequence })
    else (.error .cacheByteLimit, s.putCache kind room.2.1 room.2.2)

/-! #### Announcements -/

/-- The announcements of a type that a peer may make in ten seconds. -/
def inventoryLimit (s : GossipService Peer) : InventoryType → Nat
  | .transaction => s.limits.txInventoryPer10s
  | .block => s.limits.blockInventoryPer10s

/-- The state of a peer is replaced. -/
def putPeer (s : GossipService Peer) (peer : Peer) (state : PeerGossip) : GossipService Peer :=
  { s with peers := s.peers.insert peer state }

/-- The count of a peer's announcements starts again after ten seconds. -/
def restartRate (state : PeerGossip) (kind : InventoryType) (now : Int) : PeerGossip :=
  if 10000 ≤ age now (state.inventoryRateStart kind) then
    { state with
      inventoryRateStart := fun k => if k = kind then now else state.inventoryRateStart k
      inventoryRateCount := fun k => if k = kind then 0 else state.inventoryRateCount k }
  else state

/-- `count` announcements are added to those of a peer. -/
def countAnnouncements (state : PeerGossip) (kind : InventoryType) (count : Nat) : PeerGossip :=
  { state with
    inventoryRateCount := fun k => state.inventoryRateCount k + if k = kind then count else 0 }

/-- The peers that announced a key. -/
def providersOf (s : GossipService Peer) (key : InventoryKey) : FMap Peer Int :=
  ((s.providers.lookup key).map ProviderEntry.peers).getD ∅

/-- A peer is noted down as a provider of a key. -/
def addProvider (s : GossipService Peer) (peer : Peer) (now : Int) (key : InventoryKey) :
    GossipService Peer :=
  { s.putPeer peer
      { s.peerOrNew peer with received := (s.peerOrNew peer).received.insert key now } with
    providers := s.providers.insert key ⟨(s.providersOf key).insert peer now⟩ }

/-- A key waits to be asked for unless there is nothing to ask for, or no room. -/
def isNews (s : GossipService Peer) (key : InventoryKey) : Bool :=
  !s.contains key && key ∉ s.pending && s.pending.length < pendingInventoryLimit

/-- The loop of `receive_inventory`: the keys that were accepted. -/
def announce (peer : Peer) (now : Int) :
    List InventoryKey → GossipService Peer → List InventoryKey × GossipService Peer
  | [], s => ([], s)
  | key :: keys, s =>
    let s := s.addProvider peer now key
    if s.isNews key then
      let rest := announce peer now keys { s with pending := s.pending ++ [key] }
      (key :: rest.1, rest.2)
    else announce peer now keys s

/-- The providers would take more room than they may. -/
def overProviderLimit (s : GossipService Peer) (peer : Peer) (keys : List InventoryKey) : Bool :=
  let newKeys := (keys.filter fun key => key ∉ s.providers).length
  let newAssociations := (keys.filter fun key => peer ∉ s.providersOf key).length
  let projectedBytes := saturateUsize (saturateUsize (s.providerBytes +
    saturateUsize (newKeys * providerKeyBytes)) + saturateUsize (newAssociations * providerPeerBytes))
  s.limits.providerKeys < saturateUsize (s.providers.keys.card + newKeys) ||
    s.limits.providerBytes < projectedBytes

def receiveInventory (s : GossipService Peer) (peer : Peer) (adv : Advertisement) (now : Int) :
    Except GossipError (List InventoryKey) × GossipService Peer :=
  let s := s.purge now
  let s := s.putPeer peer (s.peerOrNew peer)
  let limit := s.inventoryLimit adv.kind
  if !(s.peerOrNew peer).complete then (.error .syncing, s)
  else if ¬adv.hashes.Nodup then (.error .duplicate, s)
  else if limit < adv.hashes.length then (.error .inventoryLimit, s)
  else
    let state := restartRate (s.peerOrNew peer) adv.kind now
    let s := s.putPeer peer state
    if limit < saturateUsize (state.inventoryRateCount adv.kind + adv.hashes.length) then
      (.error .inventoryRateLimited, s)
    else
      let keys := adv.hashes.map fun hash => ⟨hash, adv.kind⟩
      if s.overProviderLimit peer keys then (.error .providerLimit, s)
      else
        let result := announce peer now keys
          (s.putPeer peer (countAnnouncements state adv.kind keys.length))
        (.ok result.1, result.2)

/-! #### Requests -/

/-- The time of the request for a key that is open at a peer. -/
def requestedAt (s : GossipService Peer) (peer : Peer) (key : InventoryKey) : Option Int :=
  (s.peers.lookup peer).bind fun state => state.requested.lookup key

/-- A provider may be asked for a key. -/
def canServe (s : GossipService Peer) (key : InventoryKey) (peer : Peer) : Bool :=
  (s.peers.lookup peer).any fun state => state.complete && key ∉ state.requested

/-- The number of the requests that are open at a peer. -/
def load (s : GossipService Peer) (peer : Peer) : Nat := (s.peerOrNew peer).requested.keys.card

/-- The provider that is asked for a key: of those that may be asked the one with the fewest open
requests. -/
def chooseProvider (s : GossipService Peer) (key : InventoryKey) : Option Peer :=
  let candidates := ((s.providersOf key).keys.filter fun peer => s.canServe key peer).image
    fun peer => toLex (s.load peer, peer)
  if h : candidates.Nonempty then some (ofLex (candidates.min' h)).2 else none

/-- A key is asked for at a peer. -/
def addRequest (s : GossipService Peer) (peer : Peer) (key : InventoryKey) (now : Int) :
    GossipService Peer :=
  s.putPeer peer
    { s.peerOrNew peer with requested := (s.peerOrNew peer).requested.insert key now }

/-- The loop of `schedule_fetch`. -/
def takePending (now : Int) : List InventoryKey → GossipService Peer →
    Option (Peer × FetchRequest) × GossipService Peer
  | [], s => (none, { s with pending := [] })
  | key :: rest, s =>
    match s.chooseProvider key with
    | none => takePending now rest s
    | some peer =>
      (some (peer, ⟨key.kind, [key.hash]⟩), { s with pending := rest }.addRequest peer key now)

def scheduleFetch (s : GossipService Peer) (now : Int) :
    Option (Peer × FetchRequest) × GossipService Peer :=
  takePending now (s.purge now).pending (s.purge now)

/-- The request for a key is no longer open at a peer. -/
def dropRequest (s : GossipService Peer) (peer : Peer) (key : InventoryKey) : GossipService Peer :=
  s.putPeer peer { s.peerOrNew peer with requested := (s.peerOrNew peer).requested.erase key }

def receivePayload (s : GossipService Peer) (peer : Peer) (payload : Payload) (now : Int) :
    Except GossipError Unit × GossipService Peer :=
  if maxFrameSize < payload.bytes.length then (.error .payloadTooLarge, s)
  else
    match s.requestedAt peer payload.key with
    | none => (.error .uncorrelated, s)
    | some at_ =>
      if advRequestTimeoutMs < age now at_ then
        (.error .uncorrelated, s.dropRequest peer payload.key)
      else
        match s.cache payload now with
        | (.error e, s) => (.error e, s)
        | (.ok (), s) => (.ok (), s.dropRequest peer payload.key)

/-- A request of a peer that leaves waits again if another peer announced the key. -/
def requeueFirst (peer : Peer) (s : GossipService Peer) (key : InventoryKey) :
    GossipService Peer :=
  if ((s.providersOf key).keys.filter fun candidate => candidate ≠ peer).card ≠ 0 ∧
      s.pending.length < pendingInventoryLimit ∧ key ∉ s.pending then
    { s with pending := key :: s.pending }
  else s

/-- A peer provides nothing any more. -/
def leaveProviders (s : GossipService Peer) (peer : Peer) : GossipService Peer :=
  let providers := (s.providers.mapValues fun _ entry => ⟨entry.peers.erase peer⟩).retain
    fun _ entry => entry.peers.keys.card ≠ 0
  { s with
    providers := providers
    pending := s.pending.filter fun key => key ∈ providers }

/-- `disconnect`, where the requests of the peer are iterated in the order `listing`. -/
def disconnect (s : GossipService Peer) (peer : Peer) (listing : List InventoryKey) :
    GossipService Peer :=
  if peer ∈ s.peers then
    (listing.foldl (requeueFirst peer) { s with peers := s.peers.erase peer }).leaveProviders peer
  else s.leaveProviders peer

/-- A request that went stale waits again if there is a provider. -/
def expireOne (s : GossipService Peer) (entry : Peer × InventoryKey) : GossipService Peer :=
  let s := s.dropRequest entry.1 entry.2
  if entry.2 ∈ s.providers ∧ s.pending.length < pendingInventoryLimit ∧ entry.2 ∉ s.pending then
    { s with pending := s.pending ++ [entry.2] }
  else s

/-- `expire_requests`, where the stale requests are come upon in the order `listing`. -/
def expireRequests (s : GossipService Peer) (now : Int) (listing : List (Peer × InventoryKey)) :
    GossipService Peer :=
  listing.foldl expireOne (s.purge now)

/-- `listing` is an order in which the requests of a peer are iterated. -/
def ListsRequests (s : GossipService Peer) (peer : Peer) (listing : List InventoryKey) : Prop :=
  listing.Nodup ∧ ∀ key, key ∈ listing ↔ (s.requestedAt peer key).isSome

/-- `listing` is an order in which the stale requests are come upon. -/
def ListsStale (s : GossipService Peer) (now : Int) (listing : List (Peer × InventoryKey)) : Prop :=
  listing.Nodup ∧ ∀ peer key, (peer, key) ∈ listing ↔
    ∃ at_, s.requestedAt peer key = some at_ ∧ requestStaleMs ≤ age now at_

end GossipService

end RustTron.Network
