import RustTron.State.Khaos.Order
import Mathlib

/-!
# The stores of the graph with their indexes

The source keeps the nodes of a store five times: by hash, in buckets by number, in the order of
insertion, as a list of the numbers in use, and as two counters. This is that store with every
update of every index as the source makes it, and the database over two such stores.

The sizes fit the counters: what an insertion adds is checked against `max_bytes` first, and a size
that overflows is above it.

## Main definitions

* `IndexedStore`, `IndexedDatabase`
* `IndexedStore.insertPinning`, `remove`, `evict`, `evictEntry`, `highestFirst`
* `IndexedStore.toStore`: the store without the redundant indexes
-/

namespace RustTron.State

/-- `KhaosStore`, with all its fields but the callback. -/
structure IndexedStore (T : Type) where
  byHash : FMap BlockId (KhaosNode T)
  byNumber : FMap Int (List (KhaosNode T))
  numberOrder : List Int
  insertionOrder : List (KhaosNode T)
  listEntries : Nat
  totalBytes : Nat
  maxCapacity : Int
  maxEntries : Nat
  maxBytes : Nat

namespace IndexedStore

variable {T : Type}

def new : IndexedStore T where
  byHash := ∅
  byNumber := ∅
  numberOrder := []
  insertionOrder := []
  listEntries := 0
  totalBytes := 0
  maxCapacity := defaultKhaosCapacity
  maxEntries := (KhaosLimits.fromCapacity defaultKhaosCapacity).maxListEntries
  maxBytes := (KhaosLimits.fromCapacity defaultKhaosCapacity).maxTotalBytes

def setMaxCapacity (store : IndexedStore T) (maxCapacity : Int) : IndexedStore T := { store with
  maxCapacity := maxCapacity
  maxEntries := (KhaosLimits.fromCapacity maxCapacity).maxListEntries
  maxBytes := (KhaosLimits.fromCapacity maxCapacity).maxTotalBytes }

def setResourceLimits (store : IndexedStore T) (maxEntries maxBytes : Nat) : IndexedStore T :=
  { store with maxEntries := maxEntries, maxBytes := maxBytes }

def getByHash (store : IndexedStore T) (id : BlockId) : Option (KhaosNode T) :=
  store.byHash.lookup id

def highestFirst (store : IndexedStore T) : Option (KhaosNode T) :=
  match store.byNumber.keys.max with
  | none => none
  | some number => (store.byNumber.lookup number).bind List.head?

/-- Put a bucket back after nodes were taken out: an empty one goes, and its number with it. -/
def putBucket (store : IndexedStore T) (number : Int) (blocks : List (KhaosNode T)) :
    IndexedStore T :=
  if blocks.isEmpty then
    { store with
      byNumber := store.byNumber.erase number
      numberOrder := store.numberOrder.filter fun candidate => candidate ≠ number }
  else { store with byNumber := store.byNumber.insert number blocks }

variable [RetainedSize T]

/-- `KhaosStore::remove`: whether the block was there. -/
def remove (store : IndexedStore T) (id : BlockId) : Bool × IndexedStore T :=
  match store.byHash.lookup id with
  | none => (false, store)
  | some block =>
    let number := block.block.number
    let removed := ((store.byNumber.lookup number).getD []).filter fun n => n.block.id = id
    let store :=
      match store.byNumber.lookup number with
      | some blocks => store.putBucket number (blocks.filter fun n => n.block.id ≠ id)
      | none => store
    (true, { store with
      insertionOrder := store.insertionOrder.filter fun n =>
        n.block.id ≠ id || n.block.number ≠ number
      listEntries := store.listEntries - removed.length
      totalBytes := store.totalBytes - (removed.map KhaosStore.accountedBytes).sum
      byHash := store.byHash.erase id })

/-- What `evict_number_bucket` does with one block of the bucket. -/
def evictBlock (store : IndexedStore T) (block : KhaosNode T) : IndexedStore T := { store with
  listEntries := store.listEntries - 1
  totalBytes := store.totalBytes - KhaosStore.accountedBytes block
  insertionOrder := store.insertionOrder.filter fun n => n.uid ≠ block.uid
  byHash := store.byHash.erase block.block.id }

def evictNumberBucket (store : IndexedStore T) (number : Int) : IndexedStore T :=
  let store := { store with
    numberOrder := store.numberOrder.filter fun candidate => candidate ≠ number }
  match store.byNumber.lookup number with
  | some blocks =>
    blocks.foldl evictBlock { store with byNumber := store.byNumber.erase number }
  | none => store

def evict (store : IndexedStore T) (headNumber : Int) : IndexedStore T :=
  let cutoff := max 0 (min i64Max (headNumber - store.maxCapacity))
  (store.numberOrder.filter fun number => number < cutoff).foldl evictNumberBucket store

def evictEntry (store : IndexedStore T) (victim : KhaosNode T) : IndexedStore T :=
  match store.byNumber.lookup victim.block.number with
  | none => store
  | some blocks =>
    match blocks.find? fun n => n.uid = victim.uid with
    | none => store.putBucket victim.block.number blocks
    | some block =>
      let store := store.putBucket victim.block.number (blocks.eraseP fun n => n.uid = victim.uid)
      { store with
        listEntries := store.listEntries - 1
        totalBytes := store.totalBytes - KhaosStore.accountedBytes block
        insertionOrder := store.insertionOrder.filter fun n => n.uid ≠ victim.uid
        byHash :=
          if (store.byHash.lookup victim.block.id).any (fun n => n.uid = victim.uid) then
            store.byHash.erase victim.block.id
          else store.byHash }

/-- There is room for a block of this size beside `entries` nodes of `bytes` bytes. -/
def fits (store : IndexedStore T) (incoming entries bytes : Nat) : Bool :=
  entries < store.maxEntries && bytes + incoming ≤ store.maxBytes

/-- The loop of `check_resource_limit`. -/
def hasRoom (store : IndexedStore T) (incoming : Nat) (pinned : Option Nat) :
    List (KhaosNode T) → Nat → Nat → Bool
  | [], entries, bytes => store.fits incoming entries bytes
  | candidate :: rest, entries, bytes =>
    if store.fits incoming entries bytes then true
    else if pinned = some candidate.uid then store.hasRoom incoming pinned rest entries bytes
    else
      store.hasRoom incoming pinned rest (entries - 1)
        (bytes - KhaosStore.accountedBytes candidate)

/-- The loop of `evict_for_resource_limit`. -/
def victims (store : IndexedStore T) (incoming : Nat) (pinned : Option Nat) :
    List (KhaosNode T) → Nat → Nat → List (KhaosNode T)
  | [], _, _ => []
  | candidate :: rest, entries, bytes =>
    if store.fits incoming entries bytes then []
    else if pinned = some candidate.uid then store.victims incoming pinned rest entries bytes
    else
      candidate :: store.victims incoming pinned rest (entries - 1)
        (bytes - KhaosStore.accountedBytes candidate)

def checkResourceLimit (store : IndexedStore T) (incoming : Nat) (pinned : Option Nat) :
    Except KhaosError Unit :=
  if store.maxEntries = 0 || store.maxBytes < incoming then
    .error (.resourceLimit "khaos store" store.maxBytes)
  else if store.hasRoom incoming pinned store.insertionOrder store.listEntries store.totalBytes then
    .ok ()
  else .error (.resourceLimit "khaos store" store.maxBytes)

def evictForResourceLimit (incoming : Nat) (pinned : Option Nat) :
    Prog (IndexedStore T) KhaosError Unit := do
  let store ← get
  Prog.ofExcept id (store.checkResourceLimit incoming pinned)
  let victims :=
    store.victims incoming pinned store.insertionOrder store.listEntries store.totalBytes
  modify fun store => victims.foldl evictEntry store

/-- The part of `insert_pinning` that adds the node to every index. -/
def add (store : IndexedStore T) (node : KhaosNode T) : IndexedStore T :=
  let number := node.block.number
  { store with
    byHash := store.byHash.insert node.block.id node
    numberOrder :=
      if (store.byNumber.lookup number).isNone then store.numberOrder ++ [number]
      else store.numberOrder
    byNumber := store.byNumber.insert number ((store.byNumber.lookup number).getD [] ++ [node])
    insertionOrder := store.insertionOrder ++ [node]
    listEntries := store.listEntries + 1
    totalBytes := store.totalBytes + KhaosStore.accountedBytes node }

def insertPinning (node : KhaosNode T) (headNumber : Option Int)
    (pinned : Option (KhaosNode T)) : Prog (IndexedStore T) KhaosError Unit := do
  evictForResourceLimit (KhaosStore.accountedBytes node) (pinned.map (·.uid))
  let store ← get
  match pinned with
  | some parent =>
    if ¬ (store.byHash.lookup parent.block.id).any (fun n => n.uid = parent.uid) then
      throw (.resourceLimit "khaos store" store.maxBytes)
  | none => pure ()
  modify fun store => store.add node
  match headNumber with
  | some headNumber => modify fun store => store.evict headNumber
  | none => pure ()

omit [RetainedSize T]

/-- The store without its redundant indexes. -/
def toStore (store : IndexedStore T) : KhaosStore T where
  byHash := store.byHash
  entries := store.insertionOrder
  maxCapacity := store.maxCapacity
  maxEntries := store.maxEntries
  maxBytes := store.maxBytes

end IndexedStore

/-- `KhaosDatabase`, over the stores with their indexes. -/
structure IndexedDatabase (T : Type) where
  head : Option (KhaosNode T)
  linked : IndexedStore T
  unlinked : IndexedStore T
  nextUid : Nat

namespace IndexedDatabase

variable {T : Type}

def new : IndexedDatabase T where
  head := none
  linked := .new
  unlinked := .new
  nextUid := 0

def setLimits (db : IndexedDatabase T) (limits : KhaosLimits) : IndexedDatabase T := { db with
  linked := db.linked.setResourceLimits limits.maxListEntries limits.maxTotalBytes
  unlinked := db.unlinked.setResourceLimits limits.maxOrphanEntries limits.maxOrphanBytes }

def setMaxSize (db : IndexedDatabase T) (maxSize : Int) : IndexedDatabase T :=
  { db with
    linked := db.linked.setMaxCapacity maxSize
    unlinked := db.unlinked.setMaxCapacity maxSize }.setLimits (.fromCapacity maxSize)

def getHead (db : IndexedDatabase T) : Option (KhaosBlockData T) := db.head.map (·.block)

/-- `Weak::upgrade`: the node, if a store or the head still holds it. -/
def upgrade (db : IndexedDatabase T) (uid : Nat) : Option (KhaosNode T) :=
  (db.linked.insertionOrder ++ db.unlinked.insertionOrder ++ db.head.toList).find? fun n =>
    n.uid = uid

/-- `KhaosNode::parent`. -/
def parentOf (db : IndexedDatabase T) (node : KhaosNode T) : Option (KhaosNode T) :=
  node.parent.bind db.upgrade

def setHead (id : BlockId) : Prog (IndexedDatabase T) KhaosError Unit := fun db =>
  match db.linked.getByHash id with
  | none => (.error .nonCommonBlock, db)
  | some node => (.ok (), { db with head := some node })

/-- `KhaosDatabase::pop`: whether the head had a parent. -/
def pop (db : IndexedDatabase T) : Bool × IndexedDatabase T :=
  match db.head.bind db.parentOf with
  | none => (false, db)
  | some parent => (true, { db with head := some parent })

variable [RetainedSize T]

def removeBlk (id : BlockId) : Prog (IndexedDatabase T) KhaosError Unit := fun db =>
  let db :=
    match db.linked.remove id with
    | (true, linked) => { db with linked := linked }
    | (false, _) => { db with unlinked := (db.unlinked.remove id).2 }
  match db.linked.highestFirst with
  | none => (.error .headWouldBeNull, db)
  | some node => (.ok (), { db with head := some node })

def start (block : KhaosBlockData T) : Prog (IndexedDatabase T) KhaosError Unit := do
  let db ← get
  let node : KhaosNode T := ⟨block, db.nextUid, none⟩
  modify fun db => { db with nextUid := db.nextUid + 1 }
  Prog.zoom linked (fun db store => { db with linked := store }) id
    (IndexedStore.insertPinning node (some block.number) none)
  modify fun db => { db with head := some node }

/-- The rest of `KhaosDatabase::push`, once the parent of the block is resolved. -/
def pushLinked (block : KhaosBlockData T) (parent : Option (KhaosNode T)) :
    Prog (IndexedDatabase T) KhaosError Unit := do
  let db ← get
  let node : KhaosNode T := ⟨block, db.nextUid, parent.map (·.uid)⟩
  modify fun db => { db with nextUid := db.nextUid + 1 }
  Prog.zoom linked (fun db store => { db with linked := store }) id
    (IndexedStore.insertPinning node (db.getHead.map (·.number)) parent)
  modify fun db =>
    if db.getHead.all (fun head => head.number < block.number) then { db with head := some node }
    else db

/-- `KhaosDatabase::push`. A node refers to its parent from the start here; the source sets the
reference after the insertion, which does not read it. -/
def push (block : KhaosBlockData T) : Prog (IndexedDatabase T) KhaosError Unit := do
  let db ← get
  if db.head.isSome && block.parentId ≠ Hash32.zero then
    match db.linked.getByHash block.parentId with
    | some parent =>
      if block.number ≠ parent.block.number + 1 then
        throw (.badNumber parent.block.number block.number)
      else pushLinked block (some parent)
    | none =>
      modify fun db => { db with nextUid := db.nextUid + 1 }
      Prog.zoom unlinked (fun db store => { db with unlinked := store }) id
        (IndexedStore.insertPinning ⟨block, db.nextUid, none⟩ (db.getHead.map (·.number)) none)
      throw (.unlinkedBlock block.id block.parentId)
  else pushLinked block none

end IndexedDatabase

end RustTron.State
