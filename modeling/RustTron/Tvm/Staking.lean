import RustTron.Primitives.Word
import RustTron.Staking.Actuators

/-!
# Staking and voting in the virtual machine

The operations of the TVM repository that stake, delegate and vote for a contract. They work on the
same rows as the actuators and have code of their own: each gives the word that is pushed, and a
failed computation is revoked and pushes zero.

## Main definitions

* `RepositoryError`, `Attempt`: the errors of the repository, and its results
* `freezeV2`, `unfreezeV2`, `withdrawExpiredV2`, `cancelAllUnfreezeV2`, `delegateV2`,
  `undelegateV2`: the staking operations
* `voteWitness`: voting
* `transactional`: what an operation leaves behind
-/

namespace RustTron.Tvm

open Actuator (frozenV2 delegatedV2 acquiredV2 setDelegatedV2 setAcquiredV2 delegatedLegacy
  expiredAmount pendingItems weightName save delegated rowAmount rowExpire setRow rowEmpty
  putDelegated deleteDelegated resourceV2Key dayMs wrap saturate fromBe32)

/-- `RepositoryError`, as far as the modelled operations give one. -/
inductive RepositoryError where
  | decode (what : String)
  | invalidDynamicValue (key : String) (length : Nat)
  | invalidChild
  deriving DecidableEq, Repr

/-- `Result<α, RepositoryError>`. -/
abbrev Attempt (α : Type) : Type := Except RepositoryError α

def checkedAdd (x y : Int) : Attempt Int :=
  if InI64 (x + y) then .ok (x + y) else .error (.decode "long overflow")

/-- `checked_mul` with the error of the repository. -/
def checkedMul (x y : Int) : Attempt Int :=
  if InI64 (x * y) then .ok (x * y) else .error (.decode "long overflow")

def dynamicI64 (w : World) (p : Property) : Attempt (Option Int) :=
  match w.dynamicProperties.lookup p with
  | none => .ok none
  | some bytes =>
    if bytes.length = 8 then .ok (fromBe64 bytes)
    else if bytes.length = 4 then .ok (fromBe32 bytes)
    else .error (.invalidDynamicValue p.name bytes.length)

/-- `dynamic_i64` with `unwrap_or(0)`. -/
def dynamicOrZero (w : World) (p : Property) : Attempt Int := do
  let value ← dynamicI64 w p
  pure (value.getD 0)

def setDynamicI64 (w : World) (p : Property) (value : Int) : World :=
  { w with dynamicProperties := w.dynamicProperties.insert p (be64 value) }

def resource (word : Word) (tronPower : Bool) : Option ResourceCode :=
  if word.toI64Safe = 0 then some .bandwidth
  else if word.toI64Safe = 1 then some .energy
  else if word.toI64Safe = 2 ∧ tronPower then some .tronPower
  else none

/-- The loop of `add_frozen_v2`. -/
def addFrozenV2Items (kind : ResourceCode) (n : Int) : List FreezeV2 → Attempt (List FreezeV2)
  | [] => pure [⟨kind.toI32, n⟩]
  | item :: items =>
    if item.type = kind.toI32 then do
      let amount ← checkedAdd item.amount n
      pure ({ item with amount } :: items)
    else do
      let items ← addFrozenV2Items kind n items
      pure (item :: items)

def addFrozenV2 (a : Account) (kind : ResourceCode) (n : Int) : Attempt Account := do
  let frozenV2 ← addFrozenV2Items kind n a.frozenV2
  pure { a with frozenV2 }

/-- `change_weight`: in the virtual machine the stake that is lent does not count. -/
def changeWeight (w : World) (kind : ResourceCode) (old new : Int) : Attempt World := do
  let total ← dynamicOrZero w (weightName kind)
  let next ← checkedAdd total (new.tdiv 1000000 - old.tdiv 1000000)
  pure (setDynamicI64 w (weightName kind) next)

/-! ## Staking -/

def freezeV2 (w : World) (owner : Bytes) (amount kind : Word) : Attempt (Bool × World) :=
  let n := amount.toI64Safe
  match resource kind true with
  | none => pure (false, w)
  | some k =>
    match w.accounts.get owner with
    | none => pure (false, w)
    | some a =>
      if n < 1000000 ∨ n > a.balance then pure (false, w)
      else do
        let old := frozenV2 a k
        let a ← addFrozenV2 { a with balance := a.balance - n } k n
        let w ← changeWeight w k old (frozenV2 a k)
        pure (true, save w a)

def unfreezeV2 (w : World) (owner : Bytes) (amount kind : Word) : Attempt (Bool × World) :=
  let n := amount.toI64Safe
  match resource kind true with
  | none => pure (false, w)
  | some k =>
    match w.accounts.get owner with
    | none => pure (false, w)
    | some a => do
      let now ← dynamicOrZero w .latestBlockHeaderTimestamp
      if n ≤ 0 ∨ n > frozenV2 a k ∨ (pendingItems now a.unfrozenV2).length ≥ 32 then pure (false, w)
      else
        let balance ← checkedAdd a.balance (expiredAmount now a.unfrozenV2)
        let a := { a with unfrozenV2 := pendingItems now a.unfrozenV2, balance }
        let old := frozenV2 a k
        let a ← addFrozenV2 a k (-n)
        let w ← changeWeight w k old (frozenV2 a k)
        let days ← dynamicOrZero w .unfreezeDelayDays
        let delay ← checkedMul days dayMs
        let expire ← checkedAdd now delay
        pure (true, save w { a with unfrozenV2 := a.unfrozenV2 ++ [⟨k.toI32, n, expire⟩] })

def withdrawExpiredV2 (w : World) (owner : Bytes) : Attempt (Int × World) :=
  match w.accounts.get owner with
  | none => pure (0, w)
  | some a => do
    let now ← dynamicOrZero w .latestBlockHeaderTimestamp
    let n := expiredAmount now a.unfrozenV2
    if n > 0 then
      let balance ← checkedAdd a.balance n
      pure (n, save w { a with unfrozenV2 := pendingItems now a.unfrozenV2, balance })
    else pure (n, w)

/-- The loop of `cancel_all_unfreeze_v2`. An entry of an unknown resource ends it: the account is
not saved, and the weights that have moved stay moved. -/
def cancelLoop (now : Int) : World → Account → List UnFreezeV2 → Attempt (Bool × World)
  | w, a, [] => pure (true, save w a)
  | w, a, item :: items =>
    if item.unfreezeExpireTime ≤ now then do
      let balance ← checkedAdd a.balance item.unfreezeAmount
      cancelLoop now w { a with balance } items
    else
      match ResourceCode.ofI32? item.type with
      | none => pure (false, w)
      | some k => do
        let old := frozenV2 a k
        let a ← addFrozenV2 a k item.unfreezeAmount
        let w ← changeWeight w k old (frozenV2 a k)
        cancelLoop now w a items

def cancelAllUnfreezeV2 (w : World) (owner : Bytes) : Attempt (Bool × World) := do
  let allowed ← dynamicOrZero w .allowCancelAllUnfreezeV2
  if allowed ≠ 1 then pure (false, w)
  else
    match w.accounts.get owner with
    | none => pure (false, w)
    | some a =>
      if a.unfrozenV2 = [] then pure (false, w)
      else
        let now ← dynamicOrZero w .latestBlockHeaderTimestamp
        cancelLoop now w { a with unfrozenV2 := [] } a.unfrozenV2

/-! ## Delegation -/

def delegateV2 (w : World) (owner receiver : Bytes) (amount kind : Word) :
    Attempt (Bool × World) :=
  let n := amount.toI64Safe
  match resource kind false with
  | none => pure (false, w)
  | some k => do
    if n < 1000000 ∨ owner = receiver then pure (false, w)
    else
      let allowed ← dynamicOrZero w .allowDelegateResource
      if allowed ≠ 1 then pure (false, w)
      else
        match w.accounts.get owner, w.accounts.get receiver with
        | some sender, some taker =>
          if (w.contracts.lookup receiver).isSome ∨ n > frozenV2 sender k then pure (false, w)
          else
            let sender ← addFrozenV2 sender k (-n)
            let lent ← checkedAdd (delegatedV2 sender k) n
            let acquired ← checkedAdd (acquiredV2 taker k) n
            let key := resourceV2Key owner receiver false
            let row := delegated w key owner receiver
            let held ← checkedAdd (rowAmount row k) n
            let w := putDelegated w key (setRow row k held (rowExpire row k))
            pure (true, save (save w (setDelegatedV2 sender k lent)) (setAcquiredV2 taker k acquired))
        | _, _ => pure (false, w)

def undelegateV2 (w : World) (owner receiver : Bytes) (amount kind : Word) :
    Attempt (Bool × World) :=
  let n := amount.toI64Safe
  match resource kind false with
  | none => pure (false, w)
  | some k =>
    if n ≤ 0 then pure (false, w)
    else
      match w.accounts.get owner, w.accounts.get receiver with
      | some sender, some taker =>
        let key := resourceV2Key owner receiver false
        match w.delegatedResources.lookup key with
        | none => pure (false, w)
        | some row =>
          if n > rowAmount row k then pure (false, w)
          else do
            let sender ← addFrozenV2 sender k n
            let row := setRow row k (rowAmount row k - n) (rowExpire row k)
            let w := if rowEmpty row then deleteDelegated w key else putDelegated w key row
            pure (true, save (save w (setDelegatedV2 sender k (wrap (delegatedV2 sender k - n))))
              (setAcquiredV2 taker k (saturate (acquiredV2 taker k - n))))
      | _, _ => pure (false, w)

/-! ## Voting -/

/-- The votes added up. -/
def voteTotal : List Vote → Attempt Int :=
  List.foldlM (fun n vote => checkedAdd n vote.voteCount) 0

/-- `vote_witness`: the row of vote changes is written anew, with the current votes as the old
ones. -/
def voteWitness (w : World) (owner : Bytes) (votes : List Vote) : Attempt (Bool × World) :=
  match w.accounts.get owner with
  | none => pure (false, w)
  | some a =>
    if votes.length > 30 ∨ votes.any fun vote =>
        vote.voteCount ≤ 0 ∨ w.witnesses.lookup vote.voteAddress = none then pure (false, w)
    else do
      let total ← voteTotal votes
      let power := wrap ((a.frozen.map Frozen.frozenBalance).sum +
        (a.frozenV2.map FreezeV2.amount).sum)
      if total > power.tdiv 1000000 then pure (false, w)
      else
        pure (true, save { w with votes := w.votes.insert owner ⟨a.address, a.votes, votes⟩ }
          { a with votes })

/-! ## Transactions -/

/-- `transactional`: the pushed value and the repository after an operation; a failed one is
revoked and pushes zero. -/
def transactional (w : World) : Attempt (Int × World) → Int × World
  | .ok done => done
  | .error _ => (0, w)

/-- A result that is pushed as one or zero. -/
def pushBool (x : Attempt (Bool × World)) : Attempt (Int × World) := do
  let (accepted, w) ← x
  pure (if accepted then 1 else 0, w)

end RustTron.Tvm
