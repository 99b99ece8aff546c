import RustTron.Tvm.Staking

/-!
# Legacy stakes, rewards and the end of a contract

The remaining operations of the TVM repository on the rows of staking: the legacy freezing
instructions, the withdrawal of rewards, and what a contract that destroys itself leaves to its
beneficiary.

## Main definitions

* `freezeLegacy`, `unfreezeLegacy`, `freezeExpireTime`: the legacy freezing instructions
* `withdrawReward`: the withdrawal of the allowance
* `canSelfdestruct`: whether a contract may end
-/

namespace RustTron.Tvm

open Actuator (frozenV2 expiredAmount pendingItems weightName save delegated rowAmount rowExpire
  setRow putDelegated legacyResourceKey legacyResourceBalance delegatedLegacy setDelegatedLegacy
  acquiredLegacy setAcquiredLegacy dayMs wrap)

/-! ## Legacy freezing -/

/-- The account at an address, or a new one. -/
def accountOrNew (w : World) (address : Bytes) : Account := (w.accounts.get address).getD { address }

/-- The part of `freeze_legacy` that lends the stake to another account. -/
def lendLegacy (w : World) (sender : Account) (owner receiver : Bytes) (k : ResourceCode)
    (n expire : Int) : Attempt (World × Account) := do
  let key := legacyResourceKey owner receiver
  let row := delegated w key owner receiver
  let taker := accountOrNew w receiver
  let held ← checkedAdd (rowAmount row k) n
  let lent ← checkedAdd (delegatedLegacy sender k) n
  let acquired ← checkedAdd (acquiredLegacy taker k) n
  pure (save (putDelegated w key (setRow row k held expire)) (setAcquiredLegacy taker k acquired),
    setDelegatedLegacy sender k lent)

/-- The part of `freeze_legacy` that keeps the stake. -/
def holdLegacy (a : Account) (k : ResourceCode) (n expire : Int) : Attempt Account :=
  match k with
  | .bandwidth =>
    match a.frozen with
    | [] => pure { a with frozen := [⟨n, expire⟩] }
    | item :: items => do
      let frozenBalance ← checkedAdd item.frozenBalance n
      pure { a with frozen := ⟨frozenBalance, expire⟩ :: items }
  | .energy => do
    let item := a.resource.frozenBalanceForEnergy.getD {}
    let frozenBalance ← checkedAdd item.frozenBalance n
    pure { a with
      accountResource := some { a.resource with
        frozenBalanceForEnergy := some ⟨frozenBalance, expire⟩ } }
  | .tronPower => pure a

def freezeLegacy (w : World) (owner receiver : Bytes) (amount kind : Word) :
    Attempt (Bool × World) :=
  let n := amount.toI64Safe
  match resource kind false with
  | none => pure (false, w)
  | some k =>
    match w.accounts.get owner with
    | none => pure (false, w)
    | some sender =>
      if n < 1000000 ∨ n > sender.balance ∨ sender.frozen.length > 1 then pure (false, w)
      else if owner ≠ receiver ∧ (accountOrNew w receiver).type = .contract then pure (false, w)
      else do
        let now ← dynamicOrZero w .latestBlockHeaderTimestamp
        let days ← dynamicOrZero w .minFrozenTime
        let delay ← checkedMul days dayMs
        let expire ← checkedAdd now delay
        let (w, sender) ←
          (if owner = receiver then do
            let sender ← holdLegacy sender k n expire
            pure (w, sender)
          else lendLegacy w sender owner receiver k n expire)
        let total ← dynamicOrZero w (weightName k)
        let next ← checkedAdd total (n.tdiv 1000000)
        pure (true, save (setDynamicI64 w (weightName k) next)
          { sender with balance := sender.balance - n })

/-- The part of `unfreeze_legacy` that takes a lent stake back; `none` where there is nothing to
take. -/
def recallLegacy (w : World) (sender : Account) (owner receiver : Bytes) (k : ResourceCode)
    (now : Int) : Option (Int × World × Account) :=
  let key := legacyResourceKey owner receiver
  match w.delegatedResources.lookup key with
  | none => none
  | some row =>
    let n := rowAmount row k
    if n ≤ 0 ∨ rowExpire row k > now then none
    else
      let w :=
        match w.accounts.get receiver with
        | some taker => save w (setAcquiredLegacy taker k (wrap (acquiredLegacy taker k - n)))
        | none => w
      some (n, putDelegated w key (setRow row k 0 0),
        setDelegatedLegacy sender k (wrap (delegatedLegacy sender k - n)))

/-- The part of `unfreeze_legacy` that releases the own stake; `none` where nothing has expired. -/
def releaseOwnLegacy (a : Account) (k : ResourceCode) (now : Int) : Option (Int × Account) :=
  match k with
  | .bandwidth =>
    if a.frozen.any fun item => item.expireTime ≤ now then
      some (wrap ((a.frozen.filter fun item => item.expireTime ≤ now).map Frozen.frozenBalance).sum,
        { a with frozen := a.frozen.filter fun item => ¬ item.expireTime ≤ now })
    else none
  | .energy =>
    let n := legacyResourceBalance a .energy
    let expire := (a.resource.frozenBalanceForEnergy.map Frozen.expireTime).getD 0
    if n ≤ 0 ∨ expire > now then none
    else
      some (n, { a with
        accountResource := a.accountResource.map fun r =>
          { r with frozenBalanceForEnergy := none } })
  | .tronPower => none

def unfreezeLegacy (w : World) (owner receiver : Bytes) (kind : Word) :
    Attempt (Option Int × World) :=
  match resource kind false with
  | none => pure (none, w)
  | some k =>
    match w.accounts.get owner with
    | none => pure (none, w)
    | some sender => do
      let now ← dynamicOrZero w .latestBlockHeaderTimestamp
      let released :=
        if owner = receiver then (releaseOwnLegacy sender k now).map fun (n, a) => (n, w, a)
        else recallLegacy w sender owner receiver k now
      match released with
      | none => pure (none, w)
      | some (n, w, sender) => do
        let balance ← checkedAdd sender.balance n
        let total ← dynamicOrZero w (weightName k)
        let next ← checkedAdd total (-(n.tdiv 1000000))
        pure (some n, save (setDynamicI64 w (weightName k) next) { sender with balance })

def freezeExpireTime (w : World) (owner target : Bytes) (kind : Word) : Int :=
  let k := kind.toI64Safe
  if owner = target then
    match w.accounts.get owner with
    | none => 0
    | some a =>
      let item :=
        if k = 0 then a.frozen.head?
        else if k = 1 then a.resource.frozenBalanceForEnergy
        else none
      ((item.filter fun item => item.frozenBalance ≠ 0).map Frozen.expireTime).getD 0
  else
    match w.delegatedResources.lookup (legacyResourceKey owner target) with
    | none => 0
    | some row =>
      if k = 0 ∧ row.frozenBalanceForBandwidth ≠ 0 then row.expireTimeForBandwidth
      else if k = 1 ∧ row.frozenBalanceForEnergy ≠ 0 then row.expireTimeForEnergy
      else 0

/-! ## Rewards -/

def withdrawReward (w : World) (owner : Bytes) : Attempt (Int × World) :=
  match w.accounts.get owner with
  | none => pure (0, w)
  | some a =>
    if a.allowance ≤ 0 then pure (0, w)
    else do
      let balance ← checkedAdd a.balance a.allowance
      let now ← dynamicOrZero w .latestBlockHeaderTimestamp
      pure (a.allowance, save w { a with allowance := 0, balance, latestWithdrawTime := now })

/-! ## The end of a contract -/

/-- A legacy stake that has not expired. -/
def heldUntil (now : Int) (item : Frozen) : Bool := item.frozenBalance > 0 ∧ item.expireTime > now

/-- The first part of `can_selfdestruct`: nothing is lent, and nothing is held where the
instruction is restricted. -/
def freeOfLegacy (w : World) (a : Account) (restricted : Bool) : Attempt Bool :=
  if a.delegatedFrozenBalanceForBandwidth ≠ 0 ∨ a.resource.delegatedFrozenBalanceForEnergy ≠ 0 then
    pure false
  else if restricted then do
    let now ← dynamicOrZero w .latestBlockHeaderTimestamp
    pure (¬ (a.frozen.any (heldUntil now) ∨
      (a.resource.frozenBalanceForEnergy.map (heldUntil now)).getD false))
  else pure true

/-- The second part of `can_selfdestruct`: nothing is lent, and nothing is on its way out. -/
def freeOfV2 (w : World) (a : Account) : Attempt Bool := do
  let now ← dynamicOrZero w .latestBlockHeaderTimestamp
  pure (¬ (a.delegatedFrozenV2BalanceForBandwidth ≠ 0 ∨
    a.resource.delegatedFrozenV2BalanceForEnergy ≠ 0 ∨
    a.unfrozenV2.any fun item => item.unfreezeExpireTime > now))

def canSelfdestruct (w : World) (owner : Bytes) (freeze freezeV2 restricted : Bool) :
    Attempt Bool :=
  match w.accounts.get owner with
  | none => pure false
  | some a => do
    let legacy ← (if freeze then freeOfLegacy w a restricted else pure true)
    if ¬ legacy then pure false
    else if freezeV2 then freeOfV2 w a
    else pure true

end RustTron.Tvm
