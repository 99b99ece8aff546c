import RustTron.Tvm.WellFormed

/-!
# What instructions leave alone

Every instruction works on the stack, the memory and the program. Few touch more of their context,
and those that write ask a guard first. A property that does not look at the first three is kept by
the whole table, as soon as charges keep it and writes do where a guard lets them through.

Two are proved so: the meter of a frame stays within its limit, whatever its children report, and a
static frame writes nothing. The legacy stakes are guarded only under the vote rule, so the second
needs that rule: without it a static frame can freeze.

## Main definitions

* `Rough`: a property that does not look at the stack, the memory and the program
* `OperationContext.Permits`: where a guard may let an instruction write
* `Guarded`: a rough property that charges and permitted writes keep
* `Within`: a meter within a limit

## Main results

* `Guarded.step`: an instruction keeps a guarded property, whether it fails or not
* `energy_within_limit`: the meter, over every run of a frame
* `static_writes_nothing`: static frames
-/

namespace RustTron.Tvm

open Prog (Keeps)

variable {I : OperationContext → Prop} {host : Host}

/-- A property that does not look at the stack, the memory and the program. -/
def Rough (I : OperationContext → Prop) : Prop :=
  ∀ c stack memory program, I c → I { c with stack, memory, program }

/-- Where a guard may let an instruction write: in a static frame only the legacy stakes do, until
the vote rule is in force. -/
def OperationContext.Permits (c : OperationContext) : Prop :=
  c.frame.isStatic = true → c.rules.vote = false

/-- A rough property that charges keep, and writes where a guard lets them through. -/
structure Guarded (I : OperationContext → Prop) : Prop where
  rough : Rough I
  charge : ∀ c amount, I c → I { c with energy := (EnergyMeter.spend amount c.energy).2 }
  returnData : ∀ c returnData, I c → I { c with effects := { c.effects with returnData } }
  write : ∀ c repository logs, I c → c.Permits →
    I { c with repository, effects := { c.effects with logs } }

namespace Rough

variable (h : Rough I)
include h

theorem scratch {α : Type} (x : Prog Scratch VmFault α) : Keeps I (scratch x) :=
  .zoom fun c hc => h c _ _ c.program hc

/-- An instruction on the stack and the memory. -/
theorem onScratch {execute : ExecuteFn}
    {x : Host → OperationContext → Prog Scratch VmFault OperationControl}
    (he : execute = onScratch x) : Keeps I (execute host) := by
  subst he
  exact .of_state fun c hc => (h.scratch (x host c)).state hc

theorem jumpTo (target : Nat) : Keeps I (OpcodesB.jumpTo target) := by
  refine .of_state fun c hc => ?_
  unfold OpcodesB.jumpTo
  split
  · exact h c c.stack c.memory _ hc
  · exact hc

theorem jump : Keeps I (OpcodesB.jump host) :=
  .bind (h.scratch _) fun _ => .bind (h.jumpTo _) fun _ => .pure

theorem jumpi : Keeps I (OpcodesB.jumpi host) :=
  .bind (h.scratch _) fun _ => .bind (h.scratch _) fun _ =>
    .ite (fun _ => .bind (h.jumpTo _) fun _ => .pure) fun _ => .pure

theorem pushConstant (count : Nat) : Keeps I (OpcodesB.pushConstant count host) := by
  refine .of_state fun c hc => ?_
  rw [OpcodesB.pushConstant, Prog.bind_of_ok (Prog.get_run c)]
  exact (h.scratch _).state (h c c.stack c.memory _ hc)

theorem permitted : Rough fun c => I c ∧ c.Permits :=
  fun c stack memory program hc => ⟨h c stack memory program hc.1, hc.2⟩

end Rough

/-! ## Guards -/

section

variable {α : Type} {f : Unit → Prog OperationContext VmFault α}

/-- A program behind the guard keeps what it keeps where writing is permitted. -/
theorem keeps_staticGuard (h : Keeps (fun c => I c ∧ c.Permits) (f ())) :
    Keeps I (staticGuard >>= f) := by
  refine .of_state fun c hc => ?_
  by_cases hs : c.frame.isStatic = true
  · have hg : staticGuard c = (.error .staticViolation, c) := by
      rw [staticGuard, Prog.bind_of_ok (Prog.get_run c), if_pos hs]
      rfl
    rw [Prog.bind_of_error hg]
    exact hc
  · have hg : staticGuard c = (.ok (), c) := by
      rw [staticGuard, Prog.bind_of_ok (Prog.get_run c), if_neg hs]
      rfl
    rw [Prog.bind_of_ok hg]
    exact (h.state ⟨hc, fun ht => absurd ht hs⟩).1

/-- The guard of the legacy stakes. -/
theorem keeps_voteGuard (h : Keeps (fun c => I c ∧ c.Permits) (f ())) :
    Keeps I (OpcodesC.voteGuard >>= f) := by
  refine .of_state fun c hc => ?_
  by_cases hv : c.rules.vote = true
  · have hg : OpcodesC.voteGuard c = staticGuard c := by
      rw [OpcodesC.voteGuard, Prog.bind_of_ok (Prog.get_run c), if_pos hv]
    rw [Prog.bind_run, hg]
    exact (keeps_staticGuard h).state hc
  · have hg : OpcodesC.voteGuard c = (.ok (), c) := by
      rw [OpcodesC.voteGuard, Prog.bind_of_ok (Prog.get_run c), if_neg hv]
      rfl
    rw [Prog.bind_of_ok hg]
    exact (h.state ⟨hc, fun _ => Bool.eq_false_iff.mpr hv⟩).1

end

/-! ## The rows of the table -/

/-- The rows of a family of opcodes. -/
theorem keeps_range {first count : Nat} {row : Nat → Operation}
    (hr : ∀ i, Keeps I ((row i).execute host)) :
    ∀ r ∈ (List.range count).map fun i => (UInt8.ofNat (first + i), row i),
      Keeps I (r.2.execute host) := by
  intro r hm
  obtain ⟨i, -, rfl⟩ := List.mem_map.mp hm
  exact hr i

namespace Guarded

variable (h : Guarded I)
include h

theorem permitted : Guarded fun c => I c ∧ c.Permits where
  rough := h.rough.permitted
  charge c amount hc := ⟨h.charge c amount hc.1, hc.2⟩
  returnData c returnData hc := ⟨h.returnData c returnData hc.1, hc.2⟩
  write c repository logs hc hp := ⟨h.write c repository logs hc.1 hp, hp⟩

theorem spendEnergy (amount : Int) : Keeps I (OpcodesC.spendEnergy amount) :=
  .zoom fun c hc => h.charge c amount hc

theorem clearReturnData : Keeps I OpcodesC.clearReturnData :=
  .modify fun c hc => h.returnData c [] hc

/-- An operation on stakes, where writing is permitted. -/
theorem transactional (f : World → Attempt (Word × World)) :
    Keeps (fun c => I c ∧ c.Permits) (OpcodesC.transactional f) := by
  refine .bind (.of_state fun c hc => ?_) fun _ => h.permitted.rough.scratch _
  exact h.permitted.write c _ c.effects.logs hc hc.2

/-- An operation on the stakes of the frame's account. -/
theorem onOwner (f : Bytes → World → Attempt (Word × World)) :
    Keeps (fun c => I c ∧ c.Permits)
      (OpcodesC.owner >>= fun owner => OpcodesC.transactional (f owner)) :=
  .bind (.bind .get fun _ => .pure) fun _ => h.transactional _

theorem sstore : Keeps I (OpcodesB.sstore host) :=
  keeps_staticGuard (.bind (h.permitted.rough.scratch _) fun _ =>
    .bind (h.permitted.rough.scratch _) fun _ =>
      .bind (.modify fun c hc => h.permitted.write c _ c.effects.logs hc hc.2) fun _ => .pure)

theorem tstore : Keeps I (OpcodesB.tstore host) :=
  keeps_staticGuard (.bind (h.permitted.rough.scratch _) fun _ =>
    .bind (h.permitted.rough.scratch _) fun _ =>
      .bind (.modify fun c hc => h.permitted.write c _ c.effects.logs hc hc.2) fun _ => .pure)

theorem log (topics : Nat) : Keeps I (OpcodesB.log topics host) :=
  keeps_staticGuard (.bind (h.permitted.rough.scratch _) fun _ =>
    .bind (h.permitted.rough.scratch _) fun _ => .bind (h.permitted.rough.scratch _) fun _ =>
      .bind (h.permitted.rough.scratch _) fun _ =>
        .bind (.modify fun c hc => h.permitted.write c c.repository _ hc hc.2) fun _ => .pure)

theorem freezeLegacy : Keeps I (OpcodesC.freezeLegacy host) :=
  keeps_voteGuard (.bind (h.permitted.rough.scratch _) fun _ =>
    .bind (h.permitted.rough.scratch _) fun _ => .bind (h.permitted.rough.scratch _) fun _ =>
      .bind .get fun _ => .ite (fun _ => h.permitted.rough.scratch _) fun _ => h.onOwner _)

theorem unfreezeLegacy : Keeps I (OpcodesC.unfreezeLegacy host) :=
  keeps_voteGuard (.bind (h.permitted.rough.scratch _) fun _ =>
    .bind (h.permitted.rough.scratch _) fun _ => h.onOwner _)

theorem onAmount (f : World → Bytes → Word → Word → Attempt (Bool × World)) :
    Keeps I (OpcodesC.onAmount f host) :=
  keeps_staticGuard (.bind (h.permitted.rough.scratch _) fun _ =>
    .bind (h.permitted.rough.scratch _) fun _ => h.onOwner _)

theorem onReceiver (f : World → Bytes → Bytes → Word → Word → Attempt (Bool × World)) :
    Keeps I (OpcodesC.onReceiver f host) :=
  keeps_staticGuard (.bind (h.permitted.rough.scratch _) fun _ =>
    .bind (h.permitted.rough.scratch _) fun _ => .bind (h.permitted.rough.scratch _) fun _ =>
      h.onOwner _)

theorem voteWitness : Keeps I (OpcodesC.voteWitness host) := by
  refine keeps_staticGuard (.bind (h.permitted.rough.scratch _) fun votes => ?_)
  cases votes with
  | none => exact h.permitted.rough.scratch _
  | some votes => exact h.onOwner _

theorem callExec (kind : CallKind) (withValue token : Bool) :
    Keeps I (OpcodesC.callExec kind withValue token host) :=
  .bind .get fun _ => .bind (h.rough.scratch _) fun _ => .bind h.clearReturnData fun _ =>
    .bind .get fun _ => .bind (h.spendEnergy _) fun _ => .bind .ofExcept fun _ => .pure

theorem create : Keeps I (OpcodesC.create host) :=
  keeps_staticGuard (.bind (h.permitted.rough.scratch _) fun _ =>
    .bind h.permitted.clearReturnData fun _ => .bind .get fun _ => .pure)

theorem create2 : Keeps I (OpcodesC.create2 host) :=
  keeps_staticGuard (.bind (h.permitted.rough.scratch _) fun _ => .bind .get fun _ =>
    .ite (fun _ => .bind h.permitted.clearReturnData fun _ => .pure) fun _ => .pure)

theorem suicide : Keeps I (OpcodesC.suicide host) := by
  refine keeps_staticGuard (.bind .get fun c => ?_)
  cases canSelfdestruct c.repository.world c.frame.contextAddress c.rules.freeze c.rules.freezeV2
      c.rules.selfdestructRestriction with
  | error fault => exact .throw
  | ok allowed =>
    cases allowed with
    | false => exact .pure
    | true => exact .bind (h.permitted.rough.scratch _) fun _ => .pure

/-- The first family works on the stack and the memory. -/
theorem specsA : ∀ row ∈ OpcodesA.specs, Keeps I (row.2.execute host) := by
  simp only [OpcodesA.specs, List.forall_mem_cons]
  and_intros
  all_goals first | exact h.rough.onScratch rfl | exact List.forall_mem_nil _

theorem singleSpecs : ∀ row ∈ OpcodesB.singleSpecs, Keeps I (row.2.execute host) := by
  have hs : ∀ {execute : ExecuteFn} {x}, execute = onScratch x → Keeps I (execute host) :=
    fun he => h.rough.onScratch he
  simp only [OpcodesB.singleSpecs, List.forall_mem_cons]
  exact ⟨hs rfl, hs rfl, hs rfl, hs rfl, hs rfl, hs rfl, h.sstore, h.rough.jump, h.rough.jumpi,
    hs rfl, hs rfl, hs rfl, hs rfl, hs rfl, h.tstore, hs rfl, hs rfl, hs rfl, hs rfl,
    List.forall_mem_nil _⟩

theorem specsB : ∀ row ∈ OpcodesB.specs, Keeps I (row.2.execute host) := by
  simp only [OpcodesB.specs, List.forall_mem_append]
  have hp : ∀ i, Keeps I (OpcodesB.pushConstant (i + 1) host) := fun _ => h.rough.pushConstant _
  have hl : ∀ i, Keeps I (OpcodesB.log i host) := fun _ => h.log _
  exact ⟨⟨⟨⟨h.singleSpecs, keeps_range hp⟩, keeps_range fun _ => h.rough.onScratch rfl⟩,
    keeps_range fun _ => h.rough.onScratch rfl⟩, keeps_range hl⟩

theorem specsC : ∀ row ∈ OpcodesC.specs, Keeps I (row.2.execute host) := by
  have hs : ∀ {execute : ExecuteFn} {x}, execute = onScratch x → Keeps I (execute host) :=
    fun he => h.rough.onScratch he
  simp only [OpcodesC.specs, List.forall_mem_cons]
  exact ⟨h.callExec _ _ _, hs rfl, hs rfl, hs rfl, hs rfl, h.freezeLegacy, h.unfreezeLegacy,
    hs rfl, h.voteWitness, keeps_staticGuard (h.onOwner _), h.onAmount _, h.onAmount _,
    keeps_staticGuard (h.onOwner _), keeps_staticGuard (h.onOwner _), h.onReceiver _,
    h.onReceiver _, h.create, h.callExec _ _ _, h.callExec _ _ _, h.callExec _ _ _, h.create2,
    h.callExec _ _ _, h.suicide, List.forall_mem_nil _⟩

theorem execute {row : UInt8 × Operation} (hm : row ∈ integration) :
    Keeps I (row.2.execute host) := by
  rcases List.mem_append.mp hm with hm | hm
  · rcases List.mem_append.mp hm with hm | hm
    · exact h.specsA row hm
    · exact h.specsB row hm
  · exact h.specsC row hm

/-- **An instruction keeps a guarded property**, whether it fails or not. -/
theorem step (check : Nat) (opcode : UInt8) : Keeps I (Tvm.step host check opcode) := by
  unfold Tvm.step
  refine .bind .get fun c => ?_
  cases hr : resolve c.rules opcode with
  | none => exact .throw
  | some operation =>
    refine .bind .ofExcept fun _ => .bind .ofExcept fun cost => ?_
    refine .bind (h.spendEnergy cost) fun _ => ?_
    cases host.limiter check with
    | some fault => exact .throw
    | none => exact .bind (h.execute (mem_integration hr)) fun _ => .pure

theorem of_step {check : Nat} {opcode : UInt8} {c c' : OperationContext}
    {result : Except VmFault (Int × OperationControl)}
    (hs : Tvm.step host check opcode c = (result, c')) (hc : I c) : I c' := by
  have hk : I (Tvm.step host check opcode c).2 := (h.step check opcode).state hc
  rwa [hs] at hk

end Guarded

/-! ## The meter -/

/-- A meter within a limit. -/
structure Within (limit : Int) (m : EnergyMeter) : Prop where
  limit_eq : m.limit = limit
  nonneg : 0 ≤ m.used
  le_limit : m.used ≤ limit

namespace Within

variable {limit : Int} {m : EnergyMeter}

theorem new (h : 0 ≤ limit) : Within limit (.new limit) := ⟨rfl, Int.le_refl 0, h⟩

theorem spend (h : Within limit m) (amount : Int) :
    Within limit (EnergyMeter.spend amount m).2 := by
  obtain ⟨rfl, hn, hl⟩ := h
  rw [EnergyMeter.spend_run]
  split
  · exact ⟨rfl, hn, hl⟩
  split
  · exact ⟨rfl, hn, hl⟩
  split
  · exact ⟨rfl, Int.le_trans hn hl, Int.le_refl _⟩
  · exact ⟨rfl, by dsimp only; omega, by dsimp only; omega⟩

theorem refund (h : Within limit m) (amount : Int) :
    Within limit (EnergyMeter.refund amount m).2 := by
  obtain ⟨rfl, hn, hl⟩ := h
  rw [EnergyMeter.refund, Prog.bind_of_ok (Prog.get_run m)]
  by_cases ha : amount < 0 ∨ amount > m.used
  · rw [if_pos ha]
    exact ⟨rfl, hn, hl⟩
  · rw [if_neg ha]
    exact ⟨rfl, by dsimp only [Prog.set_run]; omega, by dsimp only [Prog.set_run]; omega⟩

theorem charge (h : Within limit m) (amount : Int) : Within limit (m.charge amount) := h.spend _

end Within

theorem guarded_within (limit : Int) : Guarded fun c => Within limit c.energy where
  rough _ _ _ _ hc := hc
  charge _ amount hc := hc.spend amount
  returnData _ _ hc := hc
  write _ _ _ hc _ := hc

section

variable {limit : Int} {c c' : OperationContext} (host : Host) (children : Children)
  (parentHash : Hash32)

theorem within_finishCall (request : CallRequest) (record : InternalTransactionRecord) (id : Nat)
    (outcome : ExecutionOutcome) (h : Within limit c.energy) :
    Within limit (finishCall request record id outcome c).energy := by
  unfold finishCall
  dsimp only
  split <;> exact h.refund _

theorem within_driveCall (request : CallRequest) (nonce : Int) (h : Within limit c.energy) :
    Within limit (driveCall host children parentHash request nonce c).2.energy := by
  unfold driveCall
  split
  · exact h.refund _
  split
  · exact h.refund _
  dsimp only
  split
  · exact h
  · exact within_finishCall _ _ _ _ h

theorem within_finishCreate (request : CreateRequest) (address : Bytes)
    (record : InternalTransactionRecord) (id : Nat) (outcome : ExecutionOutcome)
    (childMeter : EnergyMeter) (h : Within limit c.energy) :
    Within limit (finishCreate host request address record id outcome childMeter c).energy := by
  unfold finishCreate
  dsimp only
  split <;> exact h.charge _

theorem within_driveCreateChecked (request : CreateRequest) (nonce : Int)
    (h : Within limit c.energy) :
    Within limit (driveCreateChecked host children parentHash request nonce c).2.energy := by
  unfold driveCreateChecked
  split
  · exact h
  dsimp only
  split
  · exact h.charge _
  split
  · exact h
  · exact within_finishCreate host _ _ _ _ _ _ h

theorem within_driveCreate {request : CreateRequest} {nonce nonce' : Int}
    (h : Within limit c.energy)
    (hd : driveCreate host children parentHash request nonce c = .ok (nonce', c')) :
    Within limit c'.energy := by
  have hc : (nonce', c') = driveCreateChecked host children parentHash request nonce c →
      Within limit c'.energy := by
    intro heq
    have := within_driveCreateChecked host children parentHash request nonce h
    rwa [← heq] at this
  unfold driveCreate at hd
  split at hd
  · split at hd
    · cases hd
      exact h
    split at hd
    · cases hd
      exact h
    split at hd
    · cases hd
    · exact hc (Except.ok.inj hd).symm
  · exact hc (Except.ok.inj hd).symm

/-- What a completion leaves on the meter, whatever the child reports. -/
theorem within_resume {control : OperationControl} {nonce nonce' : Int}
    (h : Within limit c.energy)
    (hr : resume host children parentHash control nonce c = .ok (some (nonce', c'))) :
    Within limit c'.energy := by
  cases control with
  | «continue» =>
    cases hr
    exact h
  | call request =>
    have hw := within_driveCall host children parentHash request nonce h
    have hd : driveCall host children parentHash request nonce c = (nonce', c') :=
      Option.some.inj (Except.ok.inj hr)
    rwa [hd] at hw
  | create request =>
    rw [resume] at hr
    cases hc : driveCreate host children parentHash request nonce c with
    | error fault =>
      rw [hc] at hr
      cases hr
    | ok driven =>
      rw [hc] at hr
      cases hr
      exact within_driveCreate host children parentHash h hc
  | halt data => cases hr
  | revert data => cases hr
  | selfDestruct beneficiary => cases hr

end

/-- **The meter of a frame stays within its limit**, at every fetch of every run and after every
instruction, also one that fails. -/
theorem energy_within_limit {limit : Int} {start c : OperationContext} (hl : 0 ≤ limit)
    (hs : start.energy = .new limit) (h : Proceeds host start c) :
    Within limit c.energy ∧
      ∀ program check opcode, Within limit (step host check opcode { c with program }).2.energy := by
  have hw : Within limit c.energy := by
    induction h with
    | start => exact hs ▸ .new hl
    | step _ _ hst hr ih => exact within_resume host _ _ ((guarded_within limit).of_step hst ih) hr
  exact ⟨hw, fun _ check opcode => ((guarded_within limit).step check opcode).state hw⟩

theorem energy_within_limit_jumped : JumpSample.jumped.energy.used = 11 ∧
    Within 100000 JumpSample.jumped.energy :=
  ⟨rfl, (energy_within_limit (by decide) rfl JumpSample.proceeds_jumped).1⟩

/-! ## Static frames -/

/-- What a static frame leaves alone, once the vote rule is in force. -/
structure Unwritten (c₀ c : OperationContext) : Prop where
  rules_eq : c.rules = c₀.rules
  frame_eq : c.frame = c₀.frame
  repository_eq : c.repository = c₀.repository
  logs_eq : c.effects.logs = c₀.effects.logs

theorem guarded_unwritten {c₀ : OperationContext} (hs : c₀.frame.isStatic = true)
    (hv : c₀.rules.vote = true) : Guarded (Unwritten c₀) where
  rough _ _ _ _ hc := ⟨hc.rules_eq, hc.frame_eq, hc.repository_eq, hc.logs_eq⟩
  charge _ _ hc := ⟨hc.rules_eq, hc.frame_eq, hc.repository_eq, hc.logs_eq⟩
  returnData _ _ hc := ⟨hc.rules_eq, hc.frame_eq, hc.repository_eq, hc.logs_eq⟩
  write c repository logs hc hp := by
    have hn : c.rules.vote = false := hp (hc.frame_eq ▸ hs)
    rw [hc.rules_eq, hv] at hn
    cases hn

/-- A static frame with a slot and a value on its stack. -/
def watched : OperationContext :=
  { MemorySample.frame [] with
    rules := { vote := true }
    frame := ⟨[], [], [], [], [], 0, 0, 0, [], 0, 0, true⟩
    stack := [1, 2] }

/-- A static frame without the vote rule, of an account that has two TRX and freezes them. -/
def unruled : OperationContext :=
  let owner := (0 : Word).toTronAddress
  { MemorySample.frame [] with
    rules := { freeze := true }
    frame := { watched.frame with contextAddress := owner }
    stack := [0, 2000000, 0]
    repository := .fromSession
      { world := { accounts := Accounts.empty.put { address := owner, balance := 2000000 } } } [] }

/-- Without the vote rule the guard of the legacy stakes does not ask, and they are written. -/
theorem unruled_freezes :
    (step MemorySample.host 0 0xd5 unruled).1.isOk = true ∧
      (step MemorySample.host 0 0xd5 unruled).2.repository ≠ unruled.repository := by
  refine ⟨rfl, fun h => ?_⟩
  have hb : (0 : Int) = 2000000 :=
    congrArg (fun r : Repository => r.balance unruled.frame.contextAddress) h
  exact absurd hb (by decide)

/-- **A static frame writes nothing** under the vote rule: an instruction leaves its repository and
its logs alone, whether it fails or not. The rule is needed: without it one succeeds and writes. -/
theorem static_writes_nothing :
    (∀ {host : Host} {c : OperationContext}, c.frame.isStatic = true → c.rules.vote = true →
      ∀ check opcode, (step host check opcode c).2.repository = c.repository ∧
        (step host check opcode c).2.effects.logs = c.effects.logs) ∧
    ∃ host check opcode, ∃ c : OperationContext, c.frame.isStatic = true ∧ c.rules.vote = false ∧
      (step host check opcode c).1.isOk = true ∧
        (step host check opcode c).2.repository ≠ c.repository := by
  refine ⟨fun {host c} hs hv check opcode => ?_, MemorySample.host, 0, 0xd5, unruled, rfl, rfl,
    unruled_freezes⟩
  have hk : Unwritten c (step host check opcode c).2 :=
    ((guarded_unwritten hs hv).step check opcode).state ⟨rfl, rfl, rfl, rfl⟩
  exact ⟨hk.repository_eq, hk.logs_eq⟩

theorem static_writes_nothing_sstore :
    (step MemorySample.host 0 0x55 watched).1 = .error .staticViolation ∧
      (step MemorySample.host 0 0x55 watched).2.repository = watched.repository :=
  ⟨rfl, (static_writes_nothing.1 rfl rfl 0 0x55).1⟩

end RustTron.Tvm
