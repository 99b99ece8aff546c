import RustTron.Primitives.Bytes
import RustTron.Library.FMap
import RustTron.Library.Prog

/-!
# Khaos: the graph of retained blocks

Recent blocks are kept in two stores, those linked to a retained parent and those whose parent is
missing, and one linked block is the head. A node holds a weak reference to its parent: the
reference is dead once no store and no head holds the parent.

Nodes have an identity of their own, a number. A store keeps its nodes in the order of insertion;
the source's index by height, its count and its byte total are functions of that list. The
callbacks of the stores are left out.

## Main definitions

* `KhaosNode`, `KhaosStore`, `KhaosDatabase`
* `KhaosStore.insertPinning`, `remove`, `evict`, `highestFirst`
* `KhaosDatabase.setLimits`, `setMaxSize`, `start`, `push`, `removeBlk`, `setHead`, `pop`,
  `getBranch`, `getBranchDeprecated`
-/

namespace RustTron.State

/-- `RetainedSize`. -/
class RetainedSize (T : Type) where
  retainedSize : T → Nat

structure KhaosLimits where
  maxListEntries : Nat
  maxTotalBytes : Nat
  maxOrphanEntries : Nat
  maxOrphanBytes : Nat
  deriving DecidableEq, Repr

def khaosBlockOverhead : Nat := 32 + 32 + 8

/-- `KhaosLimits::for_block_policy`, short of the saturation at `2 ^ 64`. -/
def KhaosLimits.forBlockPolicy (maxBlockBytes : Nat) (forkDepth : Int) (branchWidth : Nat) :
    KhaosLimits :=
  let depth := (max forkDepth 1).toNat
  let entries := depth * max branchWidth 1
  let perBlock := maxBlockBytes + khaosBlockOverhead
  ⟨entries, entries * perBlock, depth, depth * perBlock⟩

def defaultKhaosCapacity : Int := 1024

def KhaosLimits.fromCapacity (capacity : Int) : KhaosLimits :=
  .forBlockPolicy 2000000 capacity 1

inductive KhaosError where
  | unlinkedBlock (id : BlockId) (parentId : Hash32)
  | badNumber (parentNumber blockNumber : Int)
  | nonCommonBlock
  | headWouldBeNull
  | deprecatedMissingAncestor
  | resourceLimit (resource : String) (maximum : Nat)
  | malformedChain (childNumber parentNumber : Int)
  | cycleDetected (id : BlockId)
  | traversalLimit (maximum : Nat)
  deriving DecidableEq

/-- `Display` of `KhaosError`. -/
def KhaosError.toText : KhaosError → String
  | unlinkedBlock _ _ => "unlinked block"
  | badNumber parentNumber blockNumber =>
    s!"parent number: {parentNumber} , block number: {blockNumber}"
  | nonCommonBlock => "blocks have no retained common ancestor"
  | headWouldBeNull => "khaosDB head should not be null."
  | deprecatedMissingAncestor => "deprecated branch traversal reached a missing parent"
  | resourceLimit resource maximum =>
    s!"{resource} resource limit exceeded (maximum {maximum})"
  | malformedChain childNumber parentNumber =>
    s!"malformed chain: parent height {parentNumber} is not below child height {childNumber}"
  | cycleDetected _ => "cycle detected in khaos parent chain"
  | traversalLimit maximum => s!"khaos branch traversal exceeded {maximum} steps"

structure KhaosBlockData (T : Type) where
  id : BlockId
  parentId : Hash32
  number : Int
  value : T

/-- `KhaosNode`: a block, the identity of the node, and that of the node it refers to as its
parent. -/
structure KhaosNode (T : Type) where
  block : KhaosBlockData T
  uid : Nat
  parent : Option Nat

structure KhaosStore (T : Type) where
  byHash : FMap BlockId (KhaosNode T)
  entries : List (KhaosNode T)
  maxCapacity : Int
  maxEntries : Nat
  maxBytes : Nat

structure KhaosDatabase (T : Type) where
  head : Option (KhaosNode T)
  linked : KhaosStore T
  unlinked : KhaosStore T
  nextUid : Nat

namespace KhaosStore

variable {T : Type}

def new : KhaosStore T where
  byHash := ∅
  entries := []
  maxCapacity := defaultKhaosCapacity
  maxEntries := (KhaosLimits.fromCapacity defaultKhaosCapacity).maxListEntries
  maxBytes := (KhaosLimits.fromCapacity defaultKhaosCapacity).maxTotalBytes

def setMaxCapacity (store : KhaosStore T) (maxCapacity : Int) : KhaosStore T := { store with
  maxCapacity := maxCapacity
  maxEntries := (KhaosLimits.fromCapacity maxCapacity).maxListEntries
  maxBytes := (KhaosLimits.fromCapacity maxCapacity).maxTotalBytes }

def getByHash (store : KhaosStore T) (id : BlockId) : Option (KhaosNode T) :=
  store.byHash.lookup id

/-- `KhaosStore::highest_first`: of the nodes at the greatest height, the first inserted. -/
def highestFirst (store : KhaosStore T) : Option (KhaosNode T) :=
  store.entries.foldl (fun best node =>
    match best with
    | none => some node
    | some b => if b.block.number < node.block.number then some node else some b) none

/-- `KhaosStore::remove`: whether the block was there. -/
def remove (store : KhaosStore T) (id : BlockId) : Bool × KhaosStore T :=
  match store.byHash.lookup id with
  | none => (false, store)
  | some node => (true, { store with
      entries := store.entries.filter fun n => n.block.id ≠ id || n.block.number ≠ node.block.number
      byHash := store.byHash.erase id })

/-- `KhaosStore::evict`: blocks more than the capacity below the head go. -/
def evict (store : KhaosStore T) (headNumber : Int) : KhaosStore T :=
  let cutoff := max 0 (min i64Max (headNumber - store.maxCapacity))
  let expired := store.entries.filter fun n => n.block.number < cutoff
  { store with
    entries := store.entries.filter fun n => ¬ n.block.number < cutoff
    byHash := expired.foldl (fun m n => m.erase n.block.id) store.byHash }

def evictEntry (store : KhaosStore T) (victim : KhaosNode T) : KhaosStore T :=
  if store.entries.any fun n => n.uid = victim.uid then
    { store with
      entries := store.entries.filter fun n => n.uid ≠ victim.uid
      byHash :=
        if (store.byHash.lookup victim.block.id).any (fun n => n.uid = victim.uid) then
          store.byHash.erase victim.block.id
        else store.byHash }
  else store

variable [RetainedSize T]

def accountedBytes (node : KhaosNode T) : Nat :=
  khaosBlockOverhead + RetainedSize.retainedSize node.block.value

def totalBytes (store : KhaosStore T) : Nat := (store.entries.map accountedBytes).sum

/-- There is room for a block of this size beside `entries` nodes of `bytes` bytes. -/
def fits (store : KhaosStore T) (incoming entries bytes : Nat) : Bool :=
  entries < store.maxEntries && bytes + incoming ≤ store.maxBytes

/-- The oldest nodes that must go, short of the pinned one, and whether that makes room: the loop
of `check_resource_limit` and of `evict_for_resource_limit`. -/
def makeRoom (store : KhaosStore T) (incoming : Nat) (pinned : Option Nat) :
    List (KhaosNode T) → Nat → Nat → List (KhaosNode T) × Bool
  | [], entries, bytes => ([], store.fits incoming entries bytes)
  | node :: rest, entries, bytes =>
    if store.fits incoming entries bytes then ([], true)
    else if pinned = some node.uid then store.makeRoom incoming pinned rest entries bytes
    else
      let (victims, room) :=
        store.makeRoom incoming pinned rest (entries - 1) (bytes - accountedBytes node)
      (node :: victims, room)

/-- `KhaosStore::check_resource_limit`: the nodes that must go. -/
def checkResourceLimit (store : KhaosStore T) (incoming : Nat) (pinned : Option Nat) :
    Except KhaosError (List (KhaosNode T)) :=
  if store.maxEntries = 0 || store.maxBytes < incoming then
    .error (.resourceLimit "khaos store" store.maxBytes)
  else
    match store.makeRoom incoming pinned store.entries store.entries.length store.totalBytes with
    | (victims, true) => .ok victims
    | (_, false) => .error (.resourceLimit "khaos store" store.maxBytes)

def insertPinning (node : KhaosNode T) (headNumber : Option Int)
    (pinned : Option (KhaosNode T)) : Prog (KhaosStore T) KhaosError Unit := do
  let store ← get
  let victims ← Prog.ofExcept id
    (store.checkResourceLimit (accountedBytes node) (pinned.map (·.uid)))
  modify fun store => victims.foldl evictEntry store
  let store ← get
  match pinned with
  | some parent =>
    if ¬ (store.byHash.lookup parent.block.id).any (fun n => n.uid = parent.uid) then
      throw (.resourceLimit "khaos store" store.maxBytes)
  | none => pure ()
  modify fun store => { store with
    byHash := store.byHash.insert node.block.id node
    entries := store.entries ++ [node] }
  match headNumber with
  | some headNumber => modify fun store => store.evict headNumber
  | none => pure ()

end KhaosStore

namespace KhaosDatabase

variable {T : Type}

def new : KhaosDatabase T where
  head := none
  linked := .new
  unlinked := .new
  nextUid := 0

def setLimits (db : KhaosDatabase T) (limits : KhaosLimits) : KhaosDatabase T := { db with
  linked := { db.linked with
    maxEntries := limits.maxListEntries, maxBytes := limits.maxTotalBytes }
  unlinked := { db.unlinked with
    maxEntries := limits.maxOrphanEntries, maxBytes := limits.maxOrphanBytes } }

def setMaxSize (db : KhaosDatabase T) (maxSize : Int) : KhaosDatabase T :=
  { db with
    linked := db.linked.setMaxCapacity maxSize
    unlinked := db.unlinked.setMaxCapacity maxSize }.setLimits (.fromCapacity maxSize)

def containBlock (db : KhaosDatabase T) (id : BlockId) : Bool :=
  (db.linked.getByHash id).isSome || (db.unlinked.getByHash id).isSome

def containBlockInMiniStore (db : KhaosDatabase T) (id : BlockId) : Bool :=
  (db.linked.getByHash id).isSome

def getBlock (db : KhaosDatabase T) (id : BlockId) : Option (KhaosBlockData T) :=
  ((db.linked.getByHash id).or (db.unlinked.getByHash id)).map (·.block)

def getHead (db : KhaosDatabase T) : Option (KhaosBlockData T) := db.head.map (·.block)

def hasData (db : KhaosDatabase T) : Bool := db.linked.byHash.keys.card ≠ 0

/-- `Weak::upgrade`: the node, if a store or the head still holds it. -/
def upgrade (db : KhaosDatabase T) (uid : Nat) : Option (KhaosNode T) :=
  (db.linked.entries ++ db.unlinked.entries ++ db.head.toList).find? fun n => n.uid = uid

/-- `KhaosNode::parent`. -/
def parentOf (db : KhaosDatabase T) (node : KhaosNode T) : Option (KhaosNode T) :=
  node.parent.bind db.upgrade

def setHead (id : BlockId) : Prog (KhaosDatabase T) KhaosError Unit := fun db =>
  match db.linked.getByHash id with
  | none => (.error .nonCommonBlock, db)
  | some node => (.ok (), { db with head := some node })

/-- `KhaosDatabase::pop`: whether the head had a parent. -/
def pop (db : KhaosDatabase T) : Bool × KhaosDatabase T :=
  match db.head.bind db.parentOf with
  | none => (false, db)
  | some parent => (true, { db with head := some parent })

def removeBlk (id : BlockId) : Prog (KhaosDatabase T) KhaosError Unit := fun db =>
  let db :=
    match db.linked.remove id with
    | (true, linked) => { db with linked := linked }
    | (false, _) => { db with unlinked := (db.unlinked.remove id).2 }
  match db.linked.highestFirst with
  | none => (.error .headWouldBeNull, db)
  | some node => (.ok (), { db with head := some node })

variable [RetainedSize T]

def start (block : KhaosBlockData T) : Prog (KhaosDatabase T) KhaosError Unit := do
  let db ← get
  let node : KhaosNode T := ⟨block, db.nextUid, none⟩
  modify fun db => { db with nextUid := db.nextUid + 1 }
  Prog.zoom linked (fun db store => { db with linked := store }) id
    (KhaosStore.insertPinning node (some block.number) none)
  modify fun db => { db with head := some node }

/-- The rest of `KhaosDatabase::push`, once the parent of the block is resolved. -/
def pushLinked (block : KhaosBlockData T) (parent : Option (KhaosNode T)) :
    Prog (KhaosDatabase T) KhaosError Unit := do
  let db ← get
  let node : KhaosNode T := ⟨block, db.nextUid, parent.map (·.uid)⟩
  modify fun db => { db with nextUid := db.nextUid + 1 }
  Prog.zoom linked (fun db store => { db with linked := store }) id
    (KhaosStore.insertPinning node (db.getHead.map (·.number)) parent)
  modify fun db =>
    if db.getHead.all (fun head => head.number < block.number) then { db with head := some node }
    else db

/-- `KhaosDatabase::push`. A node refers to its parent from the start here; the source sets the
reference after the insertion, which does not read it. -/
def push (block : KhaosBlockData T) : Prog (KhaosDatabase T) KhaosError Unit := do
  let db ← get
  if db.head.isSome && block.parentId ≠ Hash32.zero then
    match db.linked.getByHash block.parentId with
    | some parent =>
      if block.number ≠ parent.block.number + 1 then
        throw (.badNumber parent.block.number block.number)
      else pushLinked block (some parent)
    | none =>
      modify fun db => { db with nextUid := db.nextUid + 1 }
      Prog.zoom unlinked (fun db store => { db with unlinked := store }) id
        (KhaosStore.insertPinning ⟨block, db.nextUid, none⟩ (db.getHead.map (·.number)) none)
      throw (.unlinkedBlock block.id block.parentId)
  else pushLinked block none

def checkLinkedResource (db : KhaosDatabase T) (parentId : BlockId) (retainedSize : Nat) :
    Except KhaosError Unit :=
  match db.linked.getByHash parentId with
  | none => .error .nonCommonBlock
  | some parent =>
    (db.linked.checkResourceLimit (khaosBlockOverhead + retainedSize) (some parent.uid)).map
      fun _ => ()

omit [RetainedSize T]

/-- One walk of `get_branch`: the nodes passed so far, newest first, the ids seen, and the node
reached. -/
structure Walk (T : Type) where
  node : KhaosNode T
  seen : List BlockId
  passed : List (KhaosNode T)

/-- One step of a walk: `KhaosDatabase::checked_parent`, and the push before it. -/
def Walk.step (db : KhaosDatabase T) (walk : Walk T) : Except KhaosError (Walk T) :=
  match db.parentOf walk.node with
  | none => .error .nonCommonBlock
  | some parent =>
    if walk.node.block.number ≤ parent.block.number then
      .error (.malformedChain walk.node.block.number parent.block.number)
    else if parent.block.id ∈ walk.seen then .error (.cycleDetected parent.block.id)
    else
      match db.linked.getByHash parent.block.id with
      | none => .error .nonCommonBlock
      | some resolved =>
        if walk.node.block.number ≤ resolved.block.number then
          .error (.malformedChain walk.node.block.number resolved.block.number)
        else .ok ⟨resolved, parent.block.id :: walk.seen, walk.passed ++ [walk.node]⟩

/-- A walk down while the node is above `limit`, with the steps left of `maximum`. -/
def Walk.down (db : KhaosDatabase T) (maximum : Nat) (limit : Int) :
    Nat → Walk T → Except KhaosError (Nat × Walk T)
  | fuel, walk =>
    if limit < walk.node.block.number then
      match fuel with
      | 0 => .error (.traversalLimit maximum)
      | fuel + 1 =>
        match walk.step db with
        | .error e => .error e
        | .ok next => Walk.down db maximum limit fuel next
    else .ok (fuel, walk)

/-- Both walks down until they meet. -/
def Walk.meet (db : KhaosDatabase T) (maximum : Nat) :
    Nat → Walk T → Walk T → Except KhaosError (Walk T × Walk T)
  | fuel, first, second =>
    if first.node.block.id = second.node.block.id then .ok (first, second)
    else
      match fuel with
      | 0 => .error (.traversalLimit maximum)
      | fuel + 1 =>
        match first.step db with
        | .error e => .error e
        | .ok first =>
          match fuel with
          | 0 => .error (.traversalLimit maximum)
          | fuel + 1 =>
            match second.step db with
            | .error e => .error e
            | .ok second => Walk.meet db maximum fuel first second

/-- `KhaosDatabase::get_branch`: the nodes from each block down to their common ancestor, newest
first. -/
def getBranch (db : KhaosDatabase T) (first second : BlockId) :
    Except KhaosError (List (KhaosNode T) × List (KhaosNode T)) :=
  match db.linked.getByHash first, db.linked.getByHash second with
  | some firstNode, some secondNode =>
    let maximum := db.linked.entries.length * 2 + 2
    let firstWalk : Walk T := ⟨firstNode, [firstNode.block.id], []⟩
    let secondWalk : Walk T := ⟨secondNode, [secondNode.block.id], []⟩
    match Walk.down db maximum secondNode.block.number maximum firstWalk with
    | .error e => .error e
    | .ok (fuel, firstWalk) =>
      match Walk.down db maximum firstWalk.node.block.number fuel secondWalk with
      | .error e => .error e
      | .ok (fuel, secondWalk) =>
        match Walk.meet db maximum fuel firstWalk secondWalk with
        | .error e => .error e
        | .ok (firstWalk, secondWalk) => .ok (firstWalk.passed, secondWalk.passed)
  | _, _ => .error .nonCommonBlock

/-- One step of a walk of `get_branch_deprecated`: `KhaosDatabase::checked_parent_deprecated`, and
the push before it. -/
def Walk.stepDeprecated (db : KhaosDatabase T) (walk : Walk T) : Except KhaosError (Walk T) :=
  match db.parentOf walk.node with
  | none => .error .deprecatedMissingAncestor
  | some parent =>
    if parent.block.id ∈ walk.seen then .error (.cycleDetected parent.block.id)
    else if walk.node.block.number ≤ parent.block.number then
      .error (.malformedChain walk.node.block.number parent.block.number)
    else
      match db.linked.getByHash parent.block.id with
      | none => .error .deprecatedMissingAncestor
      | some resolved =>
        if walk.node.block.number ≤ resolved.block.number then
          .error (.malformedChain walk.node.block.number resolved.block.number)
        else .ok ⟨resolved, parent.block.id :: walk.seen, walk.passed ++ [walk.node]⟩

/-- The loop of `get_branch_deprecated`: the higher walk goes on, or both at the same height. -/
def Walk.meetDeprecated (db : KhaosDatabase T) (maximum : Nat) :
    Nat → Walk T → Walk T → Except KhaosError (Walk T × Walk T)
  | fuel, first, second =>
    if first.node.block.id = second.node.block.id then .ok (first, second)
    else
      match fuel with
      | 0 => .error (.traversalLimit maximum)
      | fuel + 1 =>
        if second.node.block.number < first.node.block.number then
          match first.stepDeprecated db with
          | .error e => .error e
          | .ok first => Walk.meetDeprecated db maximum fuel first second
        else if first.node.block.number < second.node.block.number then
          match second.stepDeprecated db with
          | .error e => .error e
          | .ok second => Walk.meetDeprecated db maximum fuel first second
        else
          match first.stepDeprecated db with
          | .error e => .error e
          | .ok first =>
            match fuel with
            | 0 => .error (.traversalLimit maximum)
            | fuel + 1 =>
              match second.stepDeprecated db with
              | .error e => .error e
              | .ok second => Walk.meetDeprecated db maximum fuel first second

/-- `KhaosDatabase::get_branch_deprecated`: nothing for a block that is not linked. -/
def getBranchDeprecated (db : KhaosDatabase T) (first second : BlockId) :
    Except KhaosError (List (KhaosNode T) × List (KhaosNode T)) :=
  match db.linked.getByHash first, db.linked.getByHash second with
  | some firstNode, some secondNode =>
    let maximum := db.linked.entries.length
    match Walk.meetDeprecated db maximum maximum ⟨firstNode, [firstNode.block.id], []⟩
      ⟨secondNode, [secondNode.block.id], []⟩ with
    | .error e => .error e
    | .ok (firstWalk, secondWalk) => .ok (firstWalk.passed, secondWalk.passed)
  | _, _ => .ok ([], [])

end KhaosDatabase

end RustTron.State
