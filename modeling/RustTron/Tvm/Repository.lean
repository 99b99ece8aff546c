import RustTron.Library.Prog
import RustTron.State.Stores
import RustTron.Tvm.Legacy

/-!
# The repository

The state that a run of the virtual machine works on: a session, with the writes of the run in
layers above it. Each call has a layer of its own, which is merged into the one below when the call
succeeds and dropped when it does not. A layer also holds the transient storage and the contracts
created in it.

## Main definitions

* `RepositoryLayer`, `Repository`: the layers over a session
* `Repository.raw`, `Repository.write`: reading and writing a row
* `Repository.beginChild`, `Repository.commitChild`, `Repository.revokeChild`: the layers of calls
* `Repository.onWorld`: an operation on the rows of staking, run on the repository
-/

namespace RustTron.Tvm

/-- `RepositoryLayer`, with the deletion of a row as `none`. -/
structure RepositoryLayer where
  persistent : AList (fun k : StateKey => Option k.Row) := ∅
  transient : AList (fun _ : Bytes × Word => Word) := ∅
  newContracts : List Bytes := []

/-- `Repository`: the newest layer first, and each row as it was before the first write to it. -/
structure Repository where
  base : Stores
  layers : List RepositoryLayer
  before : AList (fun k : StateKey => Option k.Row)
  blackholeAddress : Bytes

namespace Repository

/-! ## Rows -/

/-- `from_session`, with the address of the black hole. -/
def fromSession (session : Stores) (blackholeAddress : Bytes) : Repository :=
  ⟨session, [{}], ∅, blackholeAddress⟩

/-- The persistent writes of the layers. -/
def writes (r : Repository) : List (AList fun k : StateKey => Option k.Row) :=
  r.layers.map RepositoryLayer.persistent

def raw (r : Repository) (k : StateKey) : Option k.Row := Layers.read r.base r.writes k

/-- Change the newest layer. -/
def onTop (r : Repository) (f : RepositoryLayer → RepositoryLayer) : Repository :=
  match r.layers with
  | [] => r
  | top :: layers => { r with layers := f top :: layers }

def write (r : Repository) (k : StateKey) (v : Option k.Row) : Repository :=
  let before := if k ∈ r.before then r.before else r.before.insert k (r.raw k)
  { r with before }.onTop fun top => { top with persistent := top.persistent.insert k v }

/-! ## Layers -/

/-- `begin_child`, with the id of the child. -/
def beginChild (r : Repository) : Nat × Repository :=
  (r.layers.length, { r with layers := {} :: r.layers })

/-- A layer merged into the one below. -/
def RepositoryLayer.merge (child parent : RepositoryLayer) : RepositoryLayer where
  persistent := child.persistent ∪ parent.persistent
  transient := child.transient ∪ parent.transient
  newContracts := child.newContracts ++ parent.newContracts

def commitChild (r : Repository) (id : Nat) : Except RepositoryError Repository :=
  match r.layers with
  | child :: parent :: layers =>
    if id = layers.length + 1 then
      .ok { r with layers := RepositoryLayer.merge child parent :: layers }
    else .error .invalidChild
  | _ => .error .invalidChild

def revokeChild (r : Repository) (id : Nat) : Except RepositoryError Repository :=
  match r.layers with
  | _ :: parent :: layers =>
    if id = layers.length + 1 then .ok { r with layers := parent :: layers }
    else .error .invalidChild
  | _ => .error .invalidChild

/-- The repository after a step whose error is ignored. -/
def orSame (r : Repository) : Except RepositoryError Repository → Repository
  | .ok r' => r'
  | .error _ => r

/-! ## Transient storage and new contracts -/

def transient (r : Repository) (address : Bytes) (slot : Word) : Word :=
  (Layers.lookup (r.layers.map RepositoryLayer.transient) (address, slot)).getD 0

def setTransient (r : Repository) (address : Bytes) (slot value : Word) : Repository :=
  r.onTop fun top => { top with transient := top.transient.insert (address, slot) value }

def markNewContract (r : Repository) (address : Bytes) : Repository :=
  r.onTop fun top => { top with newContracts := address :: top.newContracts }

/-! ## Accounts -/

def account (r : Repository) (address : Bytes) : Option Account :=
  (r.raw (.account address)).map Subtype.val

def putAccount (r : Repository) (a : Account) : Repository :=
  r.write (.account a.address) (some ⟨a, rfl⟩)

def balance (r : Repository) (address : Bytes) : Int :=
  ((r.account address).map Account.balance).getD 0

def setBalance (r : Repository) (address : Bytes) (balance : Int) : Repository :=
  r.putAccount { (r.account address).getD { address } with balance }

def tokenBalance (r : Repository) (address token : Bytes) : Int :=
  ((r.account address).bind fun a => a.assetV2.lookup token).getD 0

def setTokenBalance (r : Repository) (address token : Bytes) (balance : Int) : Repository :=
  let a := (r.account address).getD { address }
  r.putAccount { a with
    assetV2 := if balance = 0 then a.assetV2.erase token else a.assetV2.insert token balance }

/-! ## Contracts -/

def contract (r : Repository) (address : Bytes) : Option SmartContract := r.raw (.contract address)

/-- `put_contract`, with the ABI that comes with the contract: it is kept unless there is one. -/
def putContract (r : Repository) (c : SmartContract) (abi : Option Bytes) : Repository :=
  let r := r.write (.contract c.contractAddress) (some c)
  match r.raw (.abi c.contractAddress), abi with
  | none, some abi => r.write (.abi c.contractAddress) (some abi)
  | _, _ => r

def code (r : Repository) (address : Bytes) : Option Bytes := r.raw (.code address)

def putCode (r : Repository) (address code : Bytes) : Repository := r.write (.code address) (some code)

def createDestinationExists (r : Repository) (address : Bytes) (constantinople : Bool) : Bool :=
  (r.account address).isSome && (!constantinople || (r.contract address).isSome)

/-- The account of a new contract: with the constantinople rule one that exists is taken over. -/
def createdAccount (existing : Option Account) (address : Bytes) (constantinople : Bool) : Account :=
  match existing, constantinople with
  | some a, true =>
    { a with
      type := .contract
      acquiredDelegatedFrozenBalanceForBandwidth := 0
      acquiredDelegatedFrozenV2BalanceForBandwidth := 0
      accountResource := some { a.resource with
        acquiredDelegatedFrozenBalanceForEnergy := 0
        acquiredDelegatedFrozenV2BalanceForEnergy := 0 }
      address }
  | _, _ => { address, type := .contract }

def prepareCreatedContract (r : Repository) (address origin rootTxid : Bytes)
    (isCreate2 constantinople compatibleEvm : Bool) (version : Int) : Repository :=
  let r := r.putAccount (createdAccount (r.account address) address constantinople)
  let r := r.putContract
    { originAddress := origin
      contractAddress := address
      consumeUserResourcePercent := 100
      trxHash := if isCreate2 then rootTxid else []
      version := if compatibleEvm then version else 0 } none
  r.markNewContract address

def saveCreatedCode (keccak256 : Bytes → Hash32) (r : Repository) (address code : Bytes)
    (constantinople : Bool) : Except RepositoryError Repository :=
  if constantinople then
    match r.contract address with
    | none => .error (.decode "created contract")
    | some c => .ok ((r.putContract { c with codeHash := (keccak256 code).bytes } none).putCode
        address code)
  else .ok (r.putCode address code)

/-! ## Contract storage -/

def storageRowKey (keccak256 : Bytes → Hash32) (address slot : Bytes) (contractVersion : Int)
    (trxHash : Option Bytes) : Bytes :=
  let addressHash := (keccak256 (address ++ trxHash.getD [])).bytes
  let slotDomain := if contractVersion = 1 then (keccak256 slot).bytes else slot
  addressHash.take 16 ++ slotDomain.drop 16

def storageKey (keccak256 : Bytes → Hash32) (address : Bytes) (slot : Word) (contractVersion : Int)
    (trxHash : Option Bytes) : Bytes :=
  storageRowKey keccak256 address slot.toBeBytes contractVersion trxHash

def storage (keccak256 : Bytes → Hash32) (r : Repository) (address : Bytes) (slot : Word)
    (contractVersion : Int) (trxHash : Option Bytes) : Option Word :=
  r.raw (.storageRow (storageKey keccak256 address slot contractVersion trxHash))

/-- `set_storage`: a row of zero is deleted. -/
def setStorage (keccak256 : Bytes → Hash32) (r : Repository) (address : Bytes) (slot value : Word)
    (contractVersion : Int) (trxHash : Option Bytes) : Repository :=
  r.write (.storageRow (storageKey keccak256 address slot contractVersion trxHash))
    (if value = 0 then none else some value)

/-! ## The rows of staking -/

/-- The rows of the repository as stores. -/
def stores (r : Repository) : Stores := Layers.flatten r.base r.writes

/-- The rows of staking and voting. -/
def world (r : Repository) : World := r.stores.world

def dynamicI64 (r : Repository) (p : Property) : Attempt (Option Int) := Tvm.dynamicI64 r.world p

/-- Write the rows of staking that differ from those of `w`. -/
def writeWorld (r : Repository) (w : World) : Repository :=
  let s : Stores := { r.stores with world := w }
  (r.world.changes w).foldl (fun r k => r.write k (s.get k)) r

/-- An operation on the rows of staking: what it changes is written to the newest layer. -/
def onWorld {α : Type} (f : World → Attempt (α × World)) : Prog Repository RepositoryError α :=
  fun r =>
    match f r.world with
    | .ok (a, w) => (.ok a, r.writeWorld w)
    | .error e => (.error e, r)

/-! ## What a write changes -/

section Writes

variable {r : Repository}

end Writes

end Repository

end RustTron.Tvm
