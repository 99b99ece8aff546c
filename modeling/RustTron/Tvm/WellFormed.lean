import RustTron.Tvm.MemoryEnergy
import RustTron.Tvm.StackShape

/-!
# Well-formed frames

Whatever its code, its input and its rules are, and whatever its children do, a frame fetches from
instruction boundaries and from nowhere else, and its stack stays within its limit. Several handlers
of the second family do not know the opcode that they execute: they read it again from the code,
one position before the program counter, and find the one that was fetched.

## Main definitions

* `executeGeneric`, `energyMemory`, `energyLog`: the handlers that read their opcode back
* `Proceeds`, `Fetches`: the contexts in which a frame fetches
* `GoesOn`, `Executes`: what executing a fetched instruction comes to

## Main results

* `frame_wellFormed`: all of this, at every fetch of every run
-/

namespace RustTron.Tvm

/-! ## Handlers that read their opcode back -/

namespace ReadBack

/-- What `execute_generic` does for an opcode. -/
def body (op : UInt8) : Option ExecuteFn :=
  if 0x60 ≤ op ∧ op ≤ 0x7f then some (OpcodesB.pushConstant (op.toNat - 0x5f))
  else if 0x80 ≤ op ∧ op ≤ 0x8f then some (OpcodesB.dup (op.toNat - 0x80))
  else if 0x90 ≤ op ∧ op ≤ 0x9f then some (OpcodesB.swap (op.toNat - 0x8f))
  else if 0xa0 ≤ op ∧ op ≤ 0xa4 then some (OpcodesB.log (op.toNat - 0xa0))
  else match op with
  | 0x50 => some OpcodesB.popTop
  | 0x51 => some OpcodesB.mload
  | 0x52 => some OpcodesB.mstore
  | 0x53 => some OpcodesB.mstore8
  | 0x54 => some OpcodesB.sload
  | 0x55 => some OpcodesB.sstore
  | 0x56 => some OpcodesB.jump
  | 0x57 => some OpcodesB.jumpi
  | 0x58 => some OpcodesB.pc
  | 0x59 => some OpcodesB.msize
  | 0x5a => some OpcodesB.gas
  | 0x5b => some OpcodesB.jumpdest
  | 0x5c => some OpcodesB.tload
  | 0x5d => some OpcodesB.tstore
  | 0x5e => some OpcodesB.mcopy
  | 0x5f => some OpcodesB.push0
  | _ => none

def executeGeneric : ExecuteFn := fun host => do
  let c ← get
  let op ← lift c.program.current
  match body op with
  | some execute => execute host
  | none => throw .illegalOperation

def energyMemory : EnergyFn := fun host c => do
  let op ← c.program.current
  OpcodesB.energyMemory (if op = 0x53 then 1 else 32) host c

def energyLog : EnergyFn := fun host c => do
  let op ← c.program.current
  OpcodesB.energyLog (op.toNat - 0xa0) host c

/-- The opcodes of the rows whose energy is the memory's. -/
def memoryRows : List UInt8 := [0x51, 0x52, 0x53]

/-- The handlers of a row are those of the source, which read the opcode back: the row knows the
opcode, and they find the same one. -/
structure Agrees (op : UInt8) (operation : Operation) : Prop where
  execute : ∀ host c, c.program.current = .ok op → (body op).isSome →
    operation.execute host c = executeGeneric host c
  memory : ∀ host c, c.program.current = .ok op → op ∈ memoryRows →
    operation.energy host c = energyMemory host c
  log : ∀ host c, c.program.current = .ok op → 0xa0 ≤ op ∧ op ≤ 0xa4 →
    operation.energy host c = energyLog host c

theorem executeGeneric_eq {op : UInt8} {execute : ExecuteFn} {c : OperationContext} (host : Host)
    (hop : c.program.current = .ok op) (hb : body op = some execute) :
    executeGeneric host c = execute host c := by
  rw [executeGeneric, Prog.bind_of_ok (Prog.get_run c), hop,
    Prog.bind_of_ok (show lift (.ok op) c = (.ok op, c) from rfl), hb]

theorem energyMemory_eq {op : UInt8} {c : OperationContext} (host : Host)
    (hop : c.program.current = .ok op) :
    energyMemory host c = OpcodesB.energyMemory (if op = 0x53 then 1 else 32) host c := by
  rw [energyMemory, hop]
  rfl

theorem energyLog_eq {op : UInt8} {c : OperationContext} (host : Host)
    (hop : c.program.current = .ok op) :
    energyLog host c = OpcodesB.energyLog (op.toNat - 0xa0) host c := by
  rw [energyLog, hop]
  rfl

theorem Agrees.of_none {op : UInt8} {operation : Operation}
    (h : body op = none ∧ op ∉ memoryRows ∧ ¬ (0xa0 ≤ op ∧ op ≤ 0xa4)) : Agrees op operation where
  execute _ _ _ hb := by
    rw [h.1] at hb
    cases hb
  memory _ _ _ hm := absurd hm h.2.1
  log _ _ _ hl := absurd hl h.2.2

theorem Agrees.of_body {op : UInt8} {operation : Operation}
    (hb : body op = some operation.execute)
    (h : op ∉ memoryRows ∧ ¬ (0xa0 ≤ op ∧ op ≤ 0xa4)) : Agrees op operation where
  execute host _ hop _ := (executeGeneric_eq host hop hb).symm
  memory _ _ _ hm := absurd hm h.1
  log _ _ _ hl := absurd hl h.2

theorem Agrees.of_memory {op : UInt8} {operation : Operation}
    (hb : body op = some operation.execute)
    (he : operation.energy = OpcodesB.energyMemory (if op = 0x53 then 1 else 32))
    (h : ¬ (0xa0 ≤ op ∧ op ≤ 0xa4)) : Agrees op operation where
  execute host _ hop _ := (executeGeneric_eq host hop hb).symm
  memory host _ hop _ := by rw [energyMemory_eq host hop, he]
  log _ _ _ hl := absurd hl h

theorem Agrees.of_log {op : UInt8} {operation : Operation}
    (hb : body op = some operation.execute)
    (he : operation.energy = OpcodesB.energyLog (op.toNat - 0xa0)) (h : op ∉ memoryRows) :
    Agrees op operation where
  execute host _ hop _ := (executeGeneric_eq host hop hb).symm
  memory _ _ _ hm := absurd hm h
  log host _ hop _ := by rw [energyLog_eq host hop, he]

theorem agrees_singleSpecs : ∀ row ∈ OpcodesB.singleSpecs, Agrees row.1 row.2 := by
  simp only [OpcodesB.singleSpecs, List.forall_mem_cons]
  exact ⟨.of_none (by decide), .of_body rfl (by decide), .of_memory rfl rfl (by decide),
    .of_memory rfl rfl (by decide), .of_memory rfl rfl (by decide), .of_body rfl (by decide),
    .of_body rfl (by decide), .of_body rfl (by decide), .of_body rfl (by decide),
    .of_body rfl (by decide), .of_body rfl (by decide), .of_body rfl (by decide),
    .of_body rfl (by decide), .of_body rfl (by decide), .of_body rfl (by decide),
    .of_body rfl (by decide), .of_body rfl (by decide), .of_none (by decide),
    .of_none (by decide), List.forall_mem_nil _⟩

theorem agrees_range {first count : Nat} {row : Nat → Operation}
    (h : ∀ i < count, Agrees (UInt8.ofNat (first + i)) (row i)) :
    ∀ r ∈ (List.range count).map fun i => (UInt8.ofNat (first + i), row i), Agrees r.1 r.2 := by
  intro r hr
  obtain ⟨i, hi, rfl⟩ := List.mem_map.mp hr
  exact h i (List.mem_range.mp hi)

theorem body_push : ∀ i < 32,
    body (UInt8.ofNat (0x60 + i)) = some (OpcodesB.pushConstant (i + 1)) := by
  have hr : ∀ i < 32, 0x60 ≤ UInt8.ofNat (0x60 + i) ∧ UInt8.ofNat (0x60 + i) ≤ 0x7f ∧
      (UInt8.ofNat (0x60 + i)).toNat - 0x5f = i + 1 := by decide
  intro i hi
  obtain ⟨hle, hge, hc⟩ := hr i hi
  unfold body
  rw [if_pos ⟨hle, hge⟩, hc]

theorem body_dup : ∀ i < 16, body (UInt8.ofNat (0x80 + i)) = some (OpcodesB.dup i) := by
  have hr : ∀ i < 16, ¬ UInt8.ofNat (0x80 + i) ≤ 0x7f ∧ 0x80 ≤ UInt8.ofNat (0x80 + i) ∧
      UInt8.ofNat (0x80 + i) ≤ 0x8f ∧ (UInt8.ofNat (0x80 + i)).toNat - 0x80 = i := by decide
  intro i hi
  obtain ⟨hp, hle, hge, hc⟩ := hr i hi
  unfold body
  rw [if_neg fun h => hp h.2, if_pos ⟨hle, hge⟩, hc]

theorem body_swap : ∀ i < 16, body (UInt8.ofNat (0x90 + i)) = some (OpcodesB.swap (i + 1)) := by
  have hr : ∀ i < 16, ¬ UInt8.ofNat (0x90 + i) ≤ 0x7f ∧ ¬ UInt8.ofNat (0x90 + i) ≤ 0x8f ∧
      0x90 ≤ UInt8.ofNat (0x90 + i) ∧ UInt8.ofNat (0x90 + i) ≤ 0x9f ∧
        (UInt8.ofNat (0x90 + i)).toNat - 0x8f = i + 1 := by decide
  intro i hi
  obtain ⟨hp, hd, hle, hge, hc⟩ := hr i hi
  unfold body
  rw [if_neg fun h => hp h.2, if_neg fun h => hd h.2, if_pos ⟨hle, hge⟩, hc]

theorem body_log : ∀ i < 5, body (UInt8.ofNat (0xa0 + i)) = some (OpcodesB.log i) := by
  have hr : ∀ i < 5, ¬ UInt8.ofNat (0xa0 + i) ≤ 0x7f ∧ ¬ UInt8.ofNat (0xa0 + i) ≤ 0x8f ∧
      ¬ UInt8.ofNat (0xa0 + i) ≤ 0x9f ∧ 0xa0 ≤ UInt8.ofNat (0xa0 + i) ∧
        UInt8.ofNat (0xa0 + i) ≤ 0xa4 ∧ (UInt8.ofNat (0xa0 + i)).toNat - 0xa0 = i := by decide
  intro i hi
  obtain ⟨hp, hd, hs, hle, hge, hc⟩ := hr i hi
  unfold body
  rw [if_neg fun h => hp h.2, if_neg fun h => hd h.2, if_neg fun h => hs h.2,
    if_pos ⟨hle, hge⟩, hc]

theorem agrees_specsB : ∀ row ∈ OpcodesB.specs, Agrees row.1 row.2 := by
  have hp : ∀ i < 32, UInt8.ofNat (0x60 + i) ∉ memoryRows ∧
      ¬ (0xa0 ≤ UInt8.ofNat (0x60 + i) ∧ UInt8.ofNat (0x60 + i) ≤ 0xa4) := by decide
  have hd : ∀ i < 16, UInt8.ofNat (0x80 + i) ∉ memoryRows ∧
      ¬ (0xa0 ≤ UInt8.ofNat (0x80 + i) ∧ UInt8.ofNat (0x80 + i) ≤ 0xa4) := by decide
  have hs : ∀ i < 16, UInt8.ofNat (0x90 + i) ∉ memoryRows ∧
      ¬ (0xa0 ≤ UInt8.ofNat (0x90 + i) ∧ UInt8.ofNat (0x90 + i) ≤ 0xa4) := by decide
  have hl : ∀ i < 5, UInt8.ofNat (0xa0 + i) ∉ memoryRows ∧
      (UInt8.ofNat (0xa0 + i)).toNat - 0xa0 = i := by decide
  simp only [OpcodesB.specs, List.forall_mem_append]
  refine ⟨⟨⟨⟨agrees_singleSpecs, agrees_range fun i hi => .of_body (body_push i hi) (hp i hi)⟩,
    agrees_range fun i hi => .of_body (body_dup i hi) (hd i hi)⟩,
    agrees_range fun i hi => .of_body (body_swap i hi) (hs i hi)⟩,
    agrees_range fun i hi => .of_log (body_log i hi) ?_ (hl i hi).1⟩
  rw [(hl i hi).2]

/-- **Every row agrees with the source**, whose handlers find the opcode that was fetched. -/
theorem agrees_of_mem_integration {op : UInt8} {operation : Operation}
    (h : (op, operation) ∈ integration) : Agrees op operation := by
  have hA : ∀ row ∈ OpcodesA.specs, body row.1 = none ∧ row.1 ∉ memoryRows ∧
      ¬ (0xa0 ≤ row.1 ∧ row.1 ≤ 0xa4) := by
    simp only [← Option.isNone_iff_eq_none]
    decide
  have hC : ∀ row ∈ OpcodesC.specs, body row.1 = none ∧ row.1 ∉ memoryRows ∧
      ¬ (0xa0 ≤ row.1 ∧ row.1 ≤ 0xa4) := by
    simp only [← Option.isNone_iff_eq_none]
    decide
  rcases List.mem_append.mp h with h | h
  · rcases List.mem_append.mp h with h | h
    · exact .of_none (hA _ h)
    · exact agrees_specsB _ h
  · exact .of_none (hC _ h)

end ReadBack

/-! ## Runs of a frame -/

/-- The contexts in which a frame fetches: the one it starts in, and after every instruction, and the
completion of what it asks for, the next one. -/
inductive Proceeds (host : Host) (start : OperationContext) : OperationContext → Prop
  | start : Proceeds host start start
  | step {c c' c'' : OperationContext} {op : UInt8} {program : Program} {check : Nat} {amount : Int}
    {control : OperationControl} {children : Children} {parentHash : Hash32} {nonce nonce' : Int} :
    Proceeds host start c → c.program.nextOpcode = some (op, program) →
      step host check op { c with program } = (.ok (amount, control), c') →
        resume host children parentHash control nonce c' = .ok (some (nonce', c'')) →
          Proceeds host start c''

/-- **The contexts in which a frame fetches** that is entered at the beginning of its code. -/
def Fetches (host : Host) (code : Bytes) (c : OperationContext) : Prop :=
  ∃ start : OperationContext, start.program = .new code ∧ start.stack.length ≤ stackLimit ∧
    Proceeds host start c

/-- The constant after an opcode: the bytes that belong to it, with zeros for those past the end. -/
def constantAt (code : Bytes) (op : UInt8) (pc : Nat) : Word :=
  Word.fromBeBytes ((List.range (immediate op)).map fun i => code.getD (pc + i) 0)

/-- What a frame goes on with, after an instruction that it fetched in `c`. -/
structure GoesOn (code : Bytes) (op : UInt8) (operation : Operation) (c c'' : OperationContext) :
    Prop where
  height : c''.stack.length =
    c.stack.length - operation.requiredBefore + operation.resultingWindow
  counter : c''.program.pc = c.program.pc + 1 + immediate op ∨
    (Boundary code c''.program.pc ∧ code[c''.program.pc]? = some 0x5b)
  constant : 0x60 ≤ op ∧ op ≤ 0x7f → c''.stack = constantAt code op (c.program.pc + 1) :: c.stack

/-- What executing an instruction comes to, whatever energy is left: it does not fail for the stack,
its completion does not, and the frame goes on as the row says. -/
structure Executes (host : Host) (code : Bytes) (op : UInt8) (operation : Operation)
    (c : OperationContext) (program : Program) (energy : EnergyMeter) : Prop where
  fault : ∀ {fault c'}, operation.execute host { c with program, energy } = (.error fault, c') →
    ¬ fault.OfDepth
  completion : ∀ {control c' children parentHash nonce fault},
    operation.execute host { c with program, energy } = (.ok control, c') →
      resume host children parentHash control nonce c' = .error fault → ¬ fault.OfDepth
  goesOn : ∀ {control c' children parentHash nonce nonce' c''},
    operation.execute host { c with program, energy } = (.ok control, c') →
      resume host children parentHash control nonce c' = .ok (some (nonce', c'')) →
        GoesOn code op operation c c''

/-- What holds of an instruction that is fetched in `c`. -/
structure Fetched (host : Host) (code : Bytes) (c : OperationContext) (op : UInt8)
    (program : Program) : Prop where
  reads_back : program.current = .ok op
  agrees : ∀ {operation}, resolve c.rules op = some operation → ReadBack.Agrees op operation
  slices : 0x60 ≤ op ∧ op ≤ 0x7f → program.readPushSlices (immediate op) =
    some (constantAt code op program.pc, { program with pc := program.pc + immediate op })
  jumps : ∀ {target program'}, program.jump target = .ok program' →
    program'.pc = target ∧ Boundary code target ∧ code[target]? = some 0x5b
  executes : ∀ {operation}, resolve c.rules op = some operation →
    c.stack.checkShape operation.requiredBefore operation.resultingWindow = .ok () →
      ∀ energy, Executes host code op operation c program energy

/-- A frame that fetches in `c` is well formed. -/
structure WellFormed (host : Host) (code : Bytes) (c : OperationContext) : Prop where
  code_eq : c.program.code = code
  at_boundary : code.length ≤ c.program.pc ∨
    (c.program.pc < code.length ∧ Boundary code c.program.pc)
  height : c.stack.length ≤ stackLimit
  fetched : ∀ {op program}, c.program.nextOpcode = some (op, program) →
    Fetched host code c op program

/-- The invariant of a frame. -/
structure Steady (code : Bytes) (c : OperationContext) : Prop where
  runs : c.program.Runs code
  boundary : Boundary code c.program.pc
  height : c.stack.length ≤ stackLimit

section

variable {host : Host} {code : Bytes} {c c' c'' : OperationContext} {op : UInt8} {program : Program}
  {operation : Operation} {energy : EnergyMeter} {control : OperationControl} {children : Children}
  {parentHash : Hash32} {nonce nonce' : Int}

theorem checkShape_eq_ok {stack : Stack1024} {required resulting : Nat}
    (h : stack.checkShape required resulting = .ok ()) :
    required ≤ stack.length ∧ stack.length - required + resulting ≤ stackLimit := by
  unfold Stack1024.checkShape at h
  split at h
  · cases h
  split at h
  · cases h
  · omega

theorem resume_seen {n : Nat} (he : Ends n control c'.stack.length) (hn : n ≤ stackLimit)
    (h : resume host children parentHash control nonce c' = .ok (some (nonce', c''))) :
    c''.program = c'.program ∧ c''.stack.length = n := by
  have hp : c'.stack.length + 1 = n → Pushes c' c'' →
      c''.program = c'.program ∧ c''.stack.length = n := by
    rintro hl ⟨hpr, -, -, value, hs⟩
    have hr : c'.stack.length ≠ stackLimit := by omega
    refine ⟨hpr, ?_⟩
    rw [hs, pushResult, Stack1024.push, if_neg hr]
    exact hl
  cases control with
  | «continue» =>
    cases h
    exact ⟨rfl, he⟩
  | call request =>
    have hca := pushes_driveCall host children parentHash request nonce c'
    have hd : driveCall host children parentHash request nonce c' = (nonce', c'') :=
      Option.some.inj (Except.ok.inj h)
    rw [hd] at hca
    exact hp he hca
  | create request =>
    rw [resume] at h
    cases hc : driveCreate host children parentHash request nonce c' with
    | error fault =>
      rw [hc] at h
      cases h
    | ok driven =>
      rw [hc] at h
      cases h
      exact hp he (pushes_driveCreate host children parentHash hc)
  | halt data => cases h
  | revert data => cases h
  | selfDestruct beneficiary => cases h

theorem resume_error {fault : VmFault}
    (h : resume host children parentHash control nonce c' = .error fault) : ¬ fault.OfDepth := by
  cases control with
  | create request =>
    rw [resume] at h
    cases hc : driveCreate host children parentHash request nonce c' with
    | error fault' =>
      rw [hc] at h
      cases h
      rw [driveCreate_error host children parentHash hc]
      decide
    | ok driven =>
      rw [hc] at h
      cases h
  | «continue» => cases h
  | call request => cases h
  | halt data => cases h
  | revert data => cases h
  | selfDestruct beneficiary => cases h

theorem pushConstant_eq_ok {count : Nat}
    (h : OpcodesB.pushConstant count host c = (.ok control, c')) :
    control = .continue ∧ c'.stack = (c.program.readPush count).1 :: c.stack := by
  have hr : OpcodesB.pushConstant count host c =
      scratch (pushed (c.program.readPush count).1)
        { c with program := (c.program.readPush count).2 } := rfl
  rw [hr] at h
  obtain ⟨s, hp, rfl⟩ := Prog.zoom_eq_ok.mp h
  by_cases hf : c.stack.length = stackLimit
  · rw [pushed, Prog.bind_run, push, Stack1024.push, if_pos hf] at hp
    cases hp
  · rw [pushed, Prog.bind_run, push, Stack1024.push, if_neg hf] at hp
    cases hp
    exact ⟨rfl, rfl⟩

theorem body_of_push (h : 0x60 ≤ op ∧ op ≤ 0x7f) :
    ReadBack.body op = some (OpcodesB.pushConstant (immediate op)) := by
  unfold ReadBack.body immediate
  rw [if_pos h, if_pos h]

theorem counter_of_moves {p p' : Program} (hr : p.Runs code) (h : Moves op p p') :
    p'.pc = p.pc + immediate op ∨ (Boundary code p'.pc ∧ code[p'.pc]? = some 0x5b) := by
  rcases h with rfl | ⟨target, hj⟩
  · exact .inl rfl
  · obtain ⟨rfl, hb, hd⟩ := boundary_of_jump hr hj
    exact .inr ⟨hb, hd⟩

theorem runs_of_moves {p p' : Program} (hr : p.Runs code) (h : Moves op p p') :
    p'.Runs code := by
  rcases h with rfl | ⟨target, hj⟩
  · exact ⟨hr.code_eq, hr.jumpdests_eq⟩
  · obtain ⟨rfl, -, -⟩ := boundary_of_jump hr hj
    exact ⟨hr.code_eq, hr.jumpdests_eq⟩

theorem seen_of_execute (hre : resolve c.rules op = some operation)
    (hs : c.stack.checkShape operation.requiredBefore operation.resultingWindow = .ok ())
    (hru : operation.execute host { c with program, energy } = (.ok control, c'))
    (hres : resume host children parentHash control nonce c' = .ok (some (nonce', c''))) :
    Moves op program c''.program ∧ c''.stack.length =
      c.stack.length - operation.requiredBefore + operation.resultingWindow := by
  obtain ⟨hr, hro⟩ := checkShape_eq_ok hs
  have hh := shaped_of_mem_integration (mem_integration hre) host program
    (c.stack.length - operation.requiredBefore) hro
  rw [Nat.sub_add_cancel hr] at hh
  obtain ⟨hm, he⟩ := hh.of_ok hru
  obtain ⟨hp, hl⟩ := resume_seen he hro hres
  exact ⟨hp ▸ hm, hl⟩

/-- **An instruction whose shape was checked** does what its row says. -/
theorem executes_of_checkShape (hs : Steady code c)
    (hop : c.program.nextOpcode = some (op, program))
    (hr : resolve c.rules op = some operation)
    (hsh : c.stack.checkShape operation.requiredBefore operation.resultingWindow = .ok ())
    (energy : EnergyMeter) : Executes host code op operation c program energy := by
  obtain ⟨hreq, hro⟩ := checkShape_eq_ok hsh
  have hm := mem_integration hr
  have hh := shaped_of_mem_integration hm host program
    (c.stack.length - operation.requiredBefore) hro
  rw [Nat.sub_add_cancel hreq] at hh
  have hc := Program.current_of_nextOpcode hop
  obtain ⟨-, rfl⟩ := Program.nextOpcode_eq_some hop
  refine ⟨fun hru => hh.of_error hru, fun _ => resume_error, fun hru hre => ?_⟩
  obtain ⟨hmo, hl⟩ := seen_of_execute hr hsh hru hre
  have hruns : Program.Runs code { c.program with pc := c.program.pc + 1 } :=
    ⟨hs.runs.code_eq, hs.runs.jumpdests_eq⟩
  refine ⟨hl, counter_of_moves hruns hmo, fun hp => ?_⟩
  have hb := body_of_push hp
  have hrea := (ReadBack.agrees_of_mem_integration hm).execute host
    { c with program := _, energy } hc (Option.isSome_of_eq_some hb)
  rw [hrea, ReadBack.executeGeneric_eq host hc hb] at hru
  obtain ⟨rfl, hst⟩ := pushConstant_eq_ok hru
  cases hre
  rw [hst, Program.readPush_value, constantAt, ← hs.runs.code_eq]

theorem checkShape_of_step {check : Nat} {amount : Int}
    (hr : resolve c.rules op = some operation)
    (h : step host check op c = (.ok (amount, control), c')) :
    c.stack.checkShape operation.requiredBefore operation.resultingWindow = .ok () := by
  rw [step, Prog.bind_of_ok (Prog.get_run c), hr] at h
  dsimp only at h
  rw [Prog.bind_run, lift] at h
  cases hs : c.stack.checkShape operation.requiredBefore operation.resultingWindow with
  | error fault =>
    rw [hs] at h
    cases h
  | ok _ => rfl

theorem Steady.step {check : Nat} {amount : Int} (hs : Steady code c)
    (hop : c.program.nextOpcode = some (op, program))
    (hst : step host check op { c with program } = (.ok (amount, control), c'))
    (hre : resume host children parentHash control nonce c' = .ok (some (nonce', c''))) :
    Steady code c'' := by
  obtain ⟨operation, hr, -, -, energy, hrun⟩ := step_eq_ok hst
  have hsh := checkShape_of_step hr hst
  obtain ⟨hm, hl⟩ := seen_of_execute hr hsh hrun hre
  obtain ⟨hf, rfl⟩ := Program.nextOpcode_eq_some hop
  have hru : Program.Runs code { c.program with pc := c.program.pc + 1 } :=
    ⟨hs.runs.code_eq, hs.runs.jumpdests_eq⟩
  refine ⟨runs_of_moves hru hm, ?_, ?_⟩
  · rcases counter_of_moves hru hm with hn | ⟨hb, -⟩
    · rw [hn]
      exact hs.boundary.next (hs.runs.code_eq ▸ hf)
    · exact hb
  · rw [hl]
    exact (checkShape_eq_ok hsh).2

theorem steady_of_fetches (h : Fetches host code c) : Steady code c := by
  obtain ⟨start, hp, hs, h⟩ := h
  induction h with
  | start => exact ⟨hp ▸ Program.runs_new code, hp ▸ .zero, hs⟩
  | step _ hop hst hr ih => exact ih.step hop hst hr

/-- **Frames are well formed.** -/
theorem frame_wellFormed (h : Fetches host code c) : WellFormed host code c := by
  have hsteady := steady_of_fetches h
  refine ⟨hsteady.runs.code_eq, ?_, hsteady.height, fun {op program} hop => ?_⟩
  · exact (Nat.lt_or_ge c.program.pc code.length).elim
      (fun hlt => .inr ⟨hlt, hsteady.boundary⟩) .inl
  · have hexecutes : ∀ {operation}, resolve c.rules op = some operation →
        c.stack.checkShape operation.requiredBefore operation.resultingWindow = .ok () →
          ∀ energy, Executes host code op operation c program energy :=
      fun hresolve hshape energy => executes_of_checkShape hsteady hop hresolve hshape energy
    have hcurrent := Program.current_of_nextOpcode hop
    obtain ⟨hfetched, rfl⟩ := Program.nextOpcode_eq_some hop
    refine ⟨hcurrent, fun hresolve => ReadBack.agrees_of_mem_integration (mem_integration hresolve),
      fun _ => ?_, fun hjump => ?_, hexecutes⟩
    · have hpc : c.program.pc < c.program.code.length := by
        obtain ⟨hlt, -⟩ := List.getElem?_eq_some_iff.mp hfetched
        exact hlt
      rw [Program.readPushSlices_eq (p := { c.program with pc := c.program.pc + 1 })
          (immediate_le op) hpc, Program.readPush_value, constantAt,
        ← hsteady.runs.code_eq]
    · obtain ⟨rfl, hboundary⟩ :=
        boundary_of_jump ⟨hsteady.runs.code_eq, hsteady.runs.jumpdests_eq⟩ hjump
      exact ⟨rfl, hboundary⟩

end

/-! ## A jump over push data -/

namespace JumpSample

open MemorySample

/-- A jump to the last byte; the byte before it looks like a destination as well, but belongs to a
constant. -/
def code : Bytes := [0x60, 6, 0x56, 0x61, 0x5b, 0x5b, 0x5b]

/-- The contexts of the first two fetches after the one that enters. -/
def pushed : OperationContext :=
  { frame code with
    program := { Program.new code with pc := 2 }
    stack := [6]
    energy := ⟨100000, 3⟩ }

def jumped : OperationContext :=
  { frame code with program := { Program.new code with pc := 6 }, energy := ⟨100000, 11⟩ }

/-- Children that do nothing. -/
def idle : Children where
  precompiled _ _ _ := none
  executeFrame _ _ _ m n r := (⟨.succeeded, [], 0, [], [], []⟩, m, n, r)

theorem proceeds_continue {host : Host} {start c c' : OperationContext} {op : UInt8}
    {program : Program} {amount : Int} (h : Proceeds host start c)
    (hop : c.program.nextOpcode = some (op, program))
    (hs : step host 0 op { c with program } = (.ok (amount, .continue), c')) :
    Proceeds host start c' :=
  @Proceeds.step host start c c' c' op program 0 amount .continue idle .zero 0 0 h hop hs rfl

theorem proceeds_jumped : Proceeds host (frame code) jumped := by
  have hp : Proceeds host (frame code) pushed :=
    proceeds_continue .start rfl
      (show step host 0 0x60 _ = (.ok (3, .continue), pushed) from rfl)
  exact proceeds_continue hp rfl
    (show step host 0 0x56 _ = (.ok (8, .continue), jumped) from rfl)

theorem fetches_jumped : Fetches host code jumped :=
  ⟨frame code, rfl, by decide, proceeds_jumped⟩

end JumpSample

open MemorySample JumpSample in
theorem frame_wellFormed_jumped : Fetches host JumpSample.code jumped ∧
    jumped.program.pc = 6 ∧ WellFormed host JumpSample.code jumped :=
  ⟨fetches_jumped, rfl, frame_wellFormed fetches_jumped⟩

end RustTron.Tvm
