import RustTron.Tvm.OpcodesA
import RustTron.Tvm.OpcodesB
import RustTron.Tvm.OpcodesC

/-!
# The interpreter of a frame

An instruction is looked up in the table of the three families, its operands are counted, its
energy is charged, the clock is asked, and only then is it executed. A frame executes one
instruction after the other. A call or a creation hands the frame over to a child; what the child
leaves of it is its program, its memory up to the output that was asked for, and the word it pushes.

## Main definitions

* `integration`, `resolve`: the table of instructions, and the part of it that is in force
* `step`: one instruction
* `Resumed`: what a frame goes on with after an instruction
* `FrameRun`: the instructions that a frame has executed without a fault, and what they were
  charged
-/

namespace RustTron.Tvm

/-! ## The table -/

def integration : List (UInt8 × Operation) := OpcodesA.specs ++ OpcodesB.specs ++ OpcodesC.specs

/-- `OperationRegistry::resolve`, of an opcode. -/
def resolve (rules : TvmRules) (opcode : UInt8) : Option Operation :=
  (integration.lookup opcode).filter fun operation => operation.activation rules

theorem mem_integration {rules : TvmRules} {opcode : UInt8} {operation : Operation}
    (h : resolve rules opcode = some operation) : (opcode, operation) ∈ integration := by
  obtain ⟨hl, -⟩ := Option.filter_eq_some_iff.mp h
  generalize integration = rows at hl
  induction rows with
  | nil => cases hl
  | cons row rows ih =>
    obtain ⟨key, value⟩ := row
    rw [List.lookup_cons] at hl
    split at hl
    · next heq =>
      cases hl
      rw [beq_iff_eq.mp heq]
      exact List.mem_cons_self
    · exact List.mem_cons_of_mem _ (ih hl)

/-! ## Instructions -/

/-- `step`, with the energy that it reports as charged. Of all checks of the clock this one is the
`check`-th. -/
def step (host : Host) (check : Nat) (opcode : UInt8) :
    Prog OperationContext VmFault (Int × OperationControl) := do
  let c ← get
  match resolve c.rules opcode with
  | none => throw .illegalOperation
  | some operation =>
    lift (c.stack.checkShape operation.requiredBefore operation.resultingWindow)
    let cost ← lift (operation.energy host c)
    OpcodesC.spendEnergy cost
    match host.limiter check with
    | some fault => throw fault
    | none =>
      let control ← operation.execute host
      pure (cost, control)

/-- What is known of an instruction that was executed: the stack had its operands, and the energy
was charged before. -/
theorem step_eq_ok {host : Host} {check : Nat} {opcode : UInt8} {c c' : OperationContext}
    {cost : Int} {control : OperationControl}
    (h : step host check opcode c = (.ok (cost, control), c')) :
    ∃ operation, resolve c.rules opcode = some operation ∧
      operation.requiredBefore ≤ c.stack.length ∧ operation.energy host c = .ok cost ∧
      ∃ energy, operation.execute host { c with energy } = (.ok control, c') := by
  rw [step, Prog.bind_of_ok (Prog.get_run c)] at h
  cases hr : resolve c.rules opcode with
  | none =>
    rw [hr] at h
    cases h
  | some operation =>
  rw [hr] at h
  dsimp only at h
  rw [Prog.bind_run, lift] at h
  cases hs : c.stack.checkShape operation.requiredBefore operation.resultingWindow with
  | error fault =>
    rw [hs] at h
    cases h
  | ok _ =>
  rw [hs, Prog.ofExcept_ok_run] at h
  dsimp only at h
  rw [Prog.bind_run, lift] at h
  cases he : operation.energy host c with
  | error fault =>
    rw [he] at h
    cases h
  | ok amount =>
  rw [he, Prog.ofExcept_ok_run] at h
  dsimp only at h
  rw [Prog.bind_run, OpcodesC.spendEnergy, Prog.zoom] at h
  rcases hsp : EnergyMeter.spend amount c.energy with ⟨fault | _, energy⟩ <;>
    rw [hsp] at h <;> dsimp only at h
  · cases h
  cases hl : host.limiter check with
  | some fault =>
    rw [hl] at h
    cases h
  | none =>
  rw [hl] at h
  dsimp only at h
  rw [Prog.bind_run] at h
  rcases hexe : operation.execute host { c with energy } with ⟨fault | control', c₁⟩ <;>
    rw [hexe] at h <;> dsimp only at h
  · cases h
  cases h
  refine ⟨operation, rfl, ?_, he, energy, hexe⟩
  unfold Stack1024.checkShape at hs
  split at hs
  · cases hs
  · next hle => exact Nat.not_lt.mp hle

/-! ## Frames -/

/-- The frame goes on after the instruction. -/
def OperationControl.goesOn : OperationControl → Bool
  | .continue | .call _ | .create _ => true
  | .halt _ | .revert _ | .selfDestruct _ => false

/-- What a frame goes on with. A call that is made writes what the child returned over the output,
as far as it fits; a write that fails is passed over. -/
inductive Resumed : OperationControl → OperationContext → OperationContext → Prop
  | continue {c : OperationContext} : Resumed .continue c c
  | rejected {request : CallRequest} {c : OperationContext} (stack : Stack1024)
    (effects : OperationEffects) (energy : EnergyMeter) (repository : Repository) :
    Resumed (.call request) c { c with stack, effects, energy, repository }
  | returned {request : CallRequest} {c : OperationContext} (stack : Stack1024)
    (effects : OperationEffects) (energy : EnergyMeter) (repository : Repository) (data : Bytes) :
    Resumed (.call request) c
      { c with
        memory := match c.memory.write request.outputOffset (data.take request.outputSize) with
          | .ok memory => memory
          | .error _ => c.memory
        stack, effects, energy, repository }
  | created {request : CreateRequest} {c : OperationContext} (stack : Stack1024)
    (effects : OperationEffects) (energy : EnergyMeter) (repository : Repository) :
    Resumed (.create request) c { c with stack, effects, energy, repository }
  | ended {control : OperationControl} {c : OperationContext} (h : control.goesOn = false) :
    Resumed control c c

/-- `EnergyCharged`, with the context that the energy was taken from. -/
structure Charge where
  opcode : UInt8
  context : OperationContext
  amount : Int

/-- **The run of a frame** from a context, by instructions that are `allowed`: what they were
charged, the context they left, and whether the frame goes on. -/
inductive FrameRun (host : Host) (allowed : UInt8 → OperationContext → Prop)
    (start : OperationContext) : List Charge → OperationContext → Bool → Prop
  | start : FrameRun host allowed start [] start true
  | step {charges : List Charge} {c c' c'' : OperationContext} {opcode : UInt8}
    {program : Program} {check : Nat} {amount : Int} {control : OperationControl} :
    FrameRun host allowed start charges c true →
      c.program.nextOpcode = some (opcode, program) → allowed opcode { c with program } →
        step host check opcode { c with program } = (.ok (amount, control), c') →
          Resumed control c' c'' →
            FrameRun host allowed start (charges ++ [⟨opcode, { c with program }, amount⟩]) c''
              control.goesOn

end RustTron.Tvm
