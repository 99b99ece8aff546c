import RustTron.Primitives.Bytes

/-!
# Logs and log filters

The logs the interface answers with, and the filter a client states: a block range, addresses,
and for each topic position the topics it accepts.  An empty list of addresses and an absent or
empty topic position accept anything, but a log must have a topic at every position the filter
names.

## Main definitions

* `RpcLog`, `LogFilter`, `LogFilter.matchesLog`

## Main results

* `LogFilter.matchesLog_iff`: what a match says, position by position
-/

namespace RustTron.Apis

structure RpcLog where
  address : Bytes
  topics : List Hash32
  data : Bytes
  blockHash : Hash32
  blockNumber : Nat
  transactionHash : Hash32
  transactionIndex : Nat
  logIndex : Nat
  removed : Bool
  deriving DecidableEq

structure LogFilter where
  addresses : List Bytes := []
  topics : List (Option (List Hash32)) := []
  fromBlock : Option Nat := none
  toBlock : Option Nat := none
  blockHash : Option Hash32 := none
  deriving DecidableEq

namespace LogFilter

/-- The topics a position accepts; a wildcard accepts every topic, but there must be one. -/
def topicsMatch : List (Option (List Hash32)) → List Hash32 → Bool
  | [], _ => true
  | _ :: _, [] => false
  | want :: rest, topic :: topics =>
    (match want with
      | some want => want.isEmpty || want.contains topic
      | none => true) && topicsMatch rest topics

/-- `LogFilter::matches`. -/
def matchesLog (f : LogFilter) (log : RpcLog) : Bool :=
  !(f.fromBlock.any fun n => decide (log.blockNumber < n)) &&
  !(f.toBlock.any fun n => decide (n < log.blockNumber)) &&
  (f.addresses.isEmpty || f.addresses.any (· == log.address)) &&
  topicsMatch f.topics log.topics

theorem topicsMatch_iff (wants : List (Option (List Hash32))) (topics : List Hash32) :
    topicsMatch wants topics = true ↔
      wants.length ≤ topics.length ∧
        ∀ p ∈ wants.zip topics, ∀ want, p.1 = some want → want = [] ∨ p.2 ∈ want := by
  induction wants generalizing topics with
  | nil => simp [topicsMatch]
  | cons want rest ih =>
    cases topics with
    | nil => simp [topicsMatch]
    | cons topic topics =>
      cases want with
      | none => simp [topicsMatch, ih]
      | some want =>
        simp only [topicsMatch, Bool.and_eq_true, Bool.or_eq_true, List.isEmpty_iff,
          List.contains_iff_mem, ih, List.length_cons, Nat.add_le_add_iff_right, List.zip_cons_cons,
          List.forall_mem_cons, Option.some.injEq, forall_eq']
        tauto

/-- A filter matches a log iff the log is in its range, from one of its addresses, and accepted
at each topic position. -/
theorem matchesLog_iff (f : LogFilter) (log : RpcLog) :
    f.matchesLog log = true ↔
      (∀ n, f.fromBlock = some n → n ≤ log.blockNumber) ∧
      (∀ n, f.toBlock = some n → log.blockNumber ≤ n) ∧
      (f.addresses = [] ∨ log.address ∈ f.addresses) ∧
      topicsMatch f.topics log.topics = true := by
  have hf : (!(f.fromBlock.any fun n => decide (log.blockNumber < n))) = true ↔
      ∀ n, f.fromBlock = some n → n ≤ log.blockNumber := by
    cases f.fromBlock <;> simp
  have hto : (!(f.toBlock.any fun n => decide (n < log.blockNumber))) = true ↔
      ∀ n, f.toBlock = some n → log.blockNumber ≤ n := by
    cases f.toBlock <;> simp
  simp only [matchesLog, Bool.and_eq_true, hf, hto, Bool.or_eq_true, List.isEmpty_iff,
    List.any_beq', List.contains_iff_mem, and_assoc]

end LogFilter

end RustTron.Apis
