import RustTron.Library.FMap
import RustTron.Primitives.Bytes

/-!
# Stores

The state is a set of named stores of byte strings. Sessions and read views address a row by its
store and its key; the names of the stores enter only the size of a checkpoint image.

## Main definitions

* `StoreKind`, `StoreKind.dbName`: the stores and their names
* `RowKey`, `Image`, `Overlay`: a row of a store, a state image, and a layer of writes over one
* `Marker.key`: the rows of the head and solidity markers
-/

namespace RustTron

namespace State

inductive StoreKind where
  | account | accountIdIndex | accountIndex | accountAsset | assetIssue | assetIssueV2
  | block | blockIndex | transaction | transactionCache | transactionRet | transactionHistory
  | recentBlock | recentTransaction | contract | abi | code | contractState | storageRow
  | witness | witnessSchedule | votes | proposal | exchange | exchangeV2 | marketAccount
  | marketOrder | marketPairToPrice | marketPairPriceToOrder | delegatedResource
  | delegatedResourceAccountIndex | dynamicProperties | incrementalMerkleTree | nullifier
  | zkProof | treeBlockIndex | sectionBloom | accountTrace | balanceTrace | delegation | pbft
  | rewardVi | common | checkpoint | temporary
  deriving DecidableEq, Repr

def StoreKind.dbName : StoreKind → String
  | .account => "account" | .accountIdIndex => "accountid-index"
  | .accountIndex => "account-index" | .accountAsset => "account-asset"
  | .assetIssue => "asset-issue" | .assetIssueV2 => "asset-issue-v2"
  | .block => "block" | .blockIndex => "block-index" | .transaction => "trans"
  | .transactionCache => "trans-cache" | .transactionRet => "transactionRetStore"
  | .transactionHistory => "transactionHistoryStore" | .recentBlock => "recent-block"
  | .recentTransaction => "recent-transaction" | .contract => "contract" | .abi => "abi"
  | .code => "code" | .contractState => "contract-state" | .storageRow => "storage-row"
  | .witness => "witness" | .witnessSchedule => "witness_schedule" | .votes => "votes"
  | .proposal => "proposal" | .exchange => "exchange" | .exchangeV2 => "exchange-v2"
  | .marketAccount => "market_account" | .marketOrder => "market_order"
  | .marketPairToPrice => "market_pair_to_price"
  | .marketPairPriceToOrder => "market_pair_price_to_order"
  | .delegatedResource => "DelegatedResource"
  | .delegatedResourceAccountIndex => "DelegatedResourceAccountIndex"
  | .dynamicProperties => "properties" | .incrementalMerkleTree => "IncrementalMerkleTree"
  | .nullifier => "nullifier" | .zkProof => "zkProof" | .treeBlockIndex => "tree-block-index"
  | .sectionBloom => "section-bloom" | .accountTrace => "account-trace"
  | .balanceTrace => "balance-trace" | .delegation => "delegation" | .pbft => "pbft-sign-data"
  | .rewardVi => "reward-vi" | .common => "common" | .checkpoint => "checkpoint"
  | .temporary => "tmp"

def StoreKind.all : List StoreKind :=
  [.account, .accountIdIndex, .accountIndex, .accountAsset, .assetIssue, .assetIssueV2, .block,
    .blockIndex, .transaction, .transactionCache, .transactionRet, .transactionHistory,
    .recentBlock, .recentTransaction, .contract, .abi, .code, .contractState, .storageRow,
    .witness, .witnessSchedule, .votes, .proposal, .exchange, .exchangeV2, .marketAccount,
    .marketOrder, .marketPairToPrice, .marketPairPriceToOrder, .delegatedResource,
    .delegatedResourceAccountIndex, .dynamicProperties, .incrementalMerkleTree, .nullifier,
    .zkProof, .treeBlockIndex, .sectionBloom, .accountTrace, .balanceTrace, .delegation, .pbft,
    .rewardVi, .common, .checkpoint, .temporary]

/-- A row of a store. -/
structure RowKey where
  store : StoreKind
  key : Bytes
  deriving DecidableEq, Repr

/-- A state image: the rows of all stores. -/
abbrev Image := FMap RowKey Bytes

/-- `OverlayValue`, and the values of an overlay layer. -/
abbrev Overlay := FMap RowKey (Write Bytes)

/-- The keys of the head and solidity markers among the dynamic properties. -/
inductive Marker where
  | latestBlockHeaderNumber
  | latestBlockHeaderTimestamp
  | latestBlockHeaderHash
  | latestSolidifiedBlockNum
  deriving DecidableEq

/-- `dynamic::key`, at the markers. -/
def Marker.key : Marker → RowKey
  | .latestBlockHeaderNumber => ⟨.dynamicProperties, ascii "latest_block_header_number"⟩
  | .latestBlockHeaderTimestamp => ⟨.dynamicProperties, ascii "latest_block_header_timestamp"⟩
  | .latestBlockHeaderHash => ⟨.dynamicProperties, ascii "latest_block_header_hash"⟩
  | .latestSolidifiedBlockNum => ⟨.dynamicProperties, ascii "LATEST_SOLIDIFIED_BLOCK_NUM"⟩
where
  /-- The bytes of an ASCII string. -/
  ascii (s : String) : Bytes := s.toList.map fun c => UInt8.ofNat c.toNat

end State

end RustTron
