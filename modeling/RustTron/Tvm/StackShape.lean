import RustTron.Library.Tracking
import RustTron.Tvm.Boundaries
import RustTron.Tvm.Completion
import RustTron.Tvm.Interpreter

/-!
# The shape of the stack

The table of instructions says how many words each of them needs and how many it puts in their
place, next to the function that executes it. Followed through that function, the height of the
stack bears the table out in every row: with its words on the stack and room for the result, no
instruction runs out of either, and one that goes on leaves what its row says. An instruction that
asks for a call or for a creation leaves room for the word that the completion pushes.

## Main definitions

* `VmFault.OfDepth`: the faults of the stack
* `Ends`: the height that an instruction leaves, by how it ends
* `Operation.Shaped`: a row whose function does what the row says, and how it moves the program
* `Moves`: a program goes on after the bytes of its instruction, or at a jump destination

## Main results

* `shaped_of_mem_integration`: all rows are so
-/

namespace RustTron.Tvm

open Prog (Tracks)
open EnergyMeter (checked)

/-! ## Faults -/

/-- The faults of the stack. -/
def VmFault.OfDepth (fault : VmFault) : Prop := fault = .stackTooSmall ∨ fault = .stackTooLarge

instance (fault : VmFault) : Decidable fault.OfDepth :=
  inferInstanceAs (Decidable (_ ∨ _))

/-- A result that does not fail for the stack. -/
def DepthFree {α : Type} (x : Faulting α) : Prop := ∀ fault, x = .error fault → ¬ fault.OfDepth

namespace DepthFree

variable {α β : Type}

theorem ok (a : α) : DepthFree (.ok a : Faulting α) := fun _ h => nomatch h

theorem error {fault : VmFault} (h : ¬ fault.OfDepth) :
    DepthFree (.error fault : Faulting α) := by
  rintro _ ⟨⟩
  exact h

theorem bind {x : Faulting α} {f : α → Faulting β} (hx : DepthFree x)
    (hf : ∀ a, DepthFree (f a)) : DepthFree (x >>= f) := by
  cases x with
  | error fault => exact error (hx fault rfl)
  | ok a => exact hf a

theorem ite {c : Prop} [Decidable c] {x y : Faulting α} (hx : DepthFree x) (hy : DepthFree y) :
    DepthFree (if c then x else y) := by
  split
  · exact hx
  · exact hy

theorem checked {x : Int} {fault : VmFault} (h : ¬ fault.OfDepth) : DepthFree (checked x fault) :=
  ite (ok x) (error h)

theorem expand (m : Memory) (offset size : Nat) : DepthFree (m.expand offset size) :=
  ite (ok m) (ite (error (by decide)) (ok _))

theorem write (m : Memory) (offset : Nat) (data : Bytes) : DepthFree (m.write offset data) :=
  bind (expand _ _ _) fun _ => ok _

theorem writePadded (m : Memory) (offset size : Nat) (source : Bytes) (sourceOffset : Nat) :
    DepthFree (m.writePadded offset size source sourceOffset) :=
  bind (expand _ _ _) fun _ => ite (ok _) (ok _)

theorem read (m : Memory) (offset size : Nat) : DepthFree (m.read offset size) :=
  bind (expand _ _ _) fun _ => ok _

theorem copyWithin (m : Memory) (dst src size : Nat) : DepthFree (m.copyWithin dst src size) :=
  ite (ok _) (bind (expand _ _ _) fun _ => bind (expand _ _ _) fun _ => ok _)

theorem wordUsize (value : Word) : DepthFree (OpcodesC.wordUsize value) :=
  ite (error (by decide)) (ok _)

theorem rangeEnd (offset size : Word) : DepthFree (OpcodesC.rangeEnd offset size) :=
  bind (wordUsize _) fun _ => ite (ok _) (bind (wordUsize _) fun _ =>
    ite (error (by decide)) (ok _))

theorem jump (p : Program) (target : Nat) : DepthFree (p.jump target) :=
  ite (ok _) (error (by decide))

end DepthFree

/-! ## The height of a scratch stack -/

/-- From a stack of `n` words. -/
abbrev Scratch.Height {α : Type} (n : Nat) (x : Prog Scratch VmFault α)
    (Q : α → Nat → Prop) : Prop :=
  Tracks (fun s : Scratch => s.stack.length) VmFault.OfDepth n x Q

/-- The height that an instruction leaves: one that asks for a completion leaves room for a word. -/
def Ends (n : Nat) : OperationControl → Nat → Prop
  | .continue, height => height = n
  | .call _, height | .create _, height => height + 1 = n
  | .halt _, _ | .revert _, _ | .selfDestruct _, _ => True

namespace Scratch.Height

variable {α β : Type} {n : Nat} {Q : β → Nat → Prop}

theorem pop : Height (n + 1) pop fun _ m => m = n := by
  rintro ⟨_ | ⟨value, stack⟩, memory⟩ hs
  · cases hs
  · exact Nat.succ.inj hs

theorem pop_bind {f : Word → Prog Scratch VmFault β} (h : ∀ a, Height n (f a) Q) :
    Height (n + 1) (Tvm.pop >>= f) Q := by
  refine .bind pop ?_
  rintro a _ rfl
  exact h a

theorem popIf_bind {b : Bool} {f : Word → Prog Scratch VmFault β} (h : ∀ a, Height n (f a) Q) :
    Height (n + b.toNat) ((if b then Tvm.pop else pure 0) >>= f) Q := by
  cases b with
  | true => exact pop_bind h
  | false => exact h 0

theorem pushes (value : Word) (h : n < stackLimit) : Height n (pushed value) (Ends (n + 1)) := by
  rintro ⟨stack, memory⟩ rfl
  have hp : push value ⟨stack, memory⟩ = (.ok (), ⟨value :: stack, memory⟩) := by
    rw [push, Stack1024.push, if_neg (Nat.ne_of_lt h)]
  rw [Tvm.pushed, Prog.bind_of_ok hp]
  rfl

theorem onMemory {f : Memory → Faulting Memory} (hf : ∀ m, DepthFree (f m)) :
    Height n (onMemory f) fun _ m => m = n := by
  rintro s rfl
  cases hm : f s.memory with
  | error fault =>
    simp only [Tvm.onMemory, hm]
    exact hf _ fault hm
  | ok memory => simp only [Tvm.onMemory, hm]

theorem onMemory_bind {f : Memory → Faulting Memory} {g : Unit → Prog Scratch VmFault β}
    (hf : ∀ m, DepthFree (f m)) (h : Height n (g ()) Q) : Height n (Tvm.onMemory f >>= g) Q := by
  refine .bind (onMemory hf) ?_
  rintro a _ rfl
  exact h

theorem onMemory_pure {f : Memory → Faulting Memory} {a : β} (hf : ∀ m, DepthFree (f m))
    (h : Q a n) : Height n (Tvm.onMemory f >>= fun _ => pure a) Q :=
  onMemory_bind hf (.pure h)

theorem readMemory {offset size : Nat} : Height n (readMemory offset size) fun _ m => m = n := by
  rintro s rfl
  cases hm : s.memory.read offset size with
  | error fault =>
    simp only [Tvm.readMemory, hm]
    exact DepthFree.read _ _ _ fault hm
  | ok result => simp only [Tvm.readMemory, hm]

theorem readMemory_bind {offset size : Nat} {f : Bytes → Prog Scratch VmFault β}
    (h : ∀ bytes, Height n (f bytes) Q) : Height n (Tvm.readMemory offset size >>= f) Q := by
  refine .bind readMemory ?_
  rintro bytes _ rfl
  exact h bytes

theorem lift_bind {x : Faulting α} {f : α → Prog Scratch VmFault β} (hx : DepthFree x)
    (h : ∀ a, Height n (f a) Q) : Height n (lift x >>= f) Q :=
  .ofExcept_bind hx fun a _ => h a

end Scratch.Height

/-! ## Rows -/

/-- What is followed of a context: its program and the height of its stack. -/
def OperationContext.seen (c : OperationContext) : Program × Nat := (c.program, c.stack.length)

/-- From a program and a stack of `n` words. -/
abbrev OperationContext.Height {α : Type} (p : Program) (n : Nat)
    (x : Prog OperationContext VmFault α) (Q : α → Program × Nat → Prop) : Prop :=
  Tracks OperationContext.seen VmFault.OfDepth (p, n) x Q

/-- A row whose function does what the row says: with the words that it needs and room for those
that it leaves, it does not fail for the stack. -/
def Operation.Shaped (moves : Program → Program → Prop) (operation : Operation) : Prop :=
  ∀ host p n, n + operation.resultingWindow ≤ stackLimit →
    OperationContext.Height p (n + operation.requiredBefore) (operation.execute host)
      fun control seen => moves p seen.1 ∧ Ends (n + operation.resultingWindow) control seen.2

/-- The program stays where it is. -/
def Stays (p p' : Program) : Prop := p' = p

namespace OperationContext.Height

variable {α β : Type} {p : Program} {n : Nat} {Q : β → Program × Nat → Prop}

/-- A program over the stack and the memory leaves the program counter alone. -/
theorem scratch {x : Prog Scratch VmFault α} {R : α → Nat → Prop} (h : Scratch.Height n x R) :
    Height p n (scratch x) fun a seen => seen.1 = p ∧ R a seen.2 := by
  refine .zoom h (fun s hs => congrArg Prod.snd hs) (fun _ h => h) ?_
  exact fun s a t hs hR => ⟨congrArg Prod.fst hs, hR⟩

theorem scratch_bind {x : Prog Scratch VmFault α} {f : α → Prog OperationContext VmFault β}
    {R : α → Nat → Prop} (hx : Scratch.Height n x R) (h : ∀ a m, R a m → Height p m (f a) Q) :
    Height p n (Tvm.scratch x >>= f) Q := by
  refine .bind (scratch hx) ?_
  rintro a ⟨p', m⟩ ⟨rfl, hR⟩
  exact h a m hR

theorem pop_bind {f : Word → Prog OperationContext VmFault β} (h : ∀ a, Height p n (f a) Q) :
    Height p (n + 1) (Tvm.scratch pop >>= f) Q := by
  refine scratch_bind Scratch.Height.pop ?_
  rintro a _ rfl
  exact h a

/-- The last push of an instruction. -/
theorem pushes (value : Word) (h : n + 1 ≤ stackLimit) :
    Height p n (Tvm.scratch (pushed value))
      fun control seen => Stays p seen.1 ∧ Ends (n + 1) control seen.2 :=
  scratch (Scratch.Height.pushes value h)

theorem lift_bind {x : Faulting α} {f : α → Prog OperationContext VmFault β} (hx : DepthFree x)
    (h : ∀ a, Height p n (f a) Q) : Height p n (lift x >>= f) Q :=
  .ofExcept_bind hx fun a _ => h a

theorem staticGuard : Height p n staticGuard fun _ seen => seen = (p, n) :=
  .get_bind fun _ _ => .ite (fun _ => .throw (by decide)) fun _ => .pure rfl

theorem staticGuard_bind {f : Unit → Prog OperationContext VmFault β} (h : Height p n (f ()) Q) :
    Height p n (Tvm.staticGuard >>= f) Q := by
  refine .bind staticGuard ?_
  rintro ⟨⟩ _ rfl
  exact h

end OperationContext.Height

/-- An instruction on the stack and the memory. -/
theorem shaped_onScratch {required resulting : Nat} {activation : TvmRules → Bool}
    {energy : EnergyFn} {x : Host → OperationContext → Prog Scratch VmFault OperationControl}
    (h : ∀ host c n, n + resulting ≤ stackLimit → c.stack.length = n + required →
      Scratch.Height (n + required) (x host c) (Ends (n + resulting))) :
    (Operation.mk required resulting activation energy (onScratch x)).Shaped Stays := by
  rintro host p n hr c hc
  exact OperationContext.Height.scratch (h host c n hr (congrArg Prod.snd hc)) c hc

/-! ## The first family -/

namespace OpcodesA

open Scratch.Height

section

variable {activation : TvmRules → Bool} {energy : EnergyFn}

theorem shaped_unary (f : Word → Word) :
    (Operation.mk 1 1 activation energy (unary f)).Shaped Stays :=
  shaped_onScratch fun _ _ _ hr _ => pop_bind fun _ => pushes _ hr

theorem shaped_binary (f : Word → Word → Word) :
    (Operation.mk 2 1 activation energy (binary f)).Shaped Stays :=
  shaped_onScratch fun _ _ _ hr _ => pop_bind fun _ => pop_bind fun _ => pushes _ hr

theorem shaped_ternary (f : Word → Word → Word → Word) :
    (Operation.mk 3 1 activation energy (ternary f)).Shaped Stays :=
  shaped_onScratch fun _ _ _ hr _ =>
    pop_bind fun _ => pop_bind fun _ => pop_bind fun _ => pushes _ hr

theorem shaped_constant (f : OperationContext → Word) :
    (Operation.mk 0 1 activation energy (constant f)).Shaped Stays :=
  shaped_onScratch fun _ _ _ hr _ => pushes _ hr

theorem shaped_sha3 : (Operation.mk 2 1 activation energy sha3).Shaped Stays :=
  shaped_onScratch fun _ _ _ hr _ =>
    pop_bind fun _ => pop_bind fun _ => readMemory_bind fun _ => pushes _ hr

/-- The instructions that look a word up. -/
theorem shaped_lookup {f : Host → OperationContext → Word → Word} :
    (Operation.mk 1 1 activation energy
      (onScratch fun host c => pop >>= fun a => Tvm.pushed (f host c a))).Shaped Stays :=
  shaped_onScratch fun _ _ _ hr _ => pop_bind fun _ => pushes _ hr

theorem copyToMemory_bind {n : Nat} (destination sourceOffset size : Word) (source : Bytes) :
    Scratch.Height n (copyToMemory destination sourceOffset size source >>= fun _ =>
      pure .continue) (Ends n) :=
  onMemory_pure (fun _ => .writePadded _ _ _ _ _) rfl

theorem shaped_copy (source : OperationContext → Bytes) :
    (Operation.mk 3 0 activation energy (copy source)).Shaped Stays :=
  shaped_onScratch fun _ _ _ _ _ =>
    pop_bind fun _ => pop_bind fun _ => pop_bind fun _ => copyToMemory_bind _ _ _ _

theorem shaped_returndatacopy :
    (Operation.mk 3 0 activation energy returndatacopy).Shaped Stays := by
  refine shaped_onScratch fun _ _ _ _ _ => ?_
  refine pop_bind fun _ => pop_bind fun _ => pop_bind fun _ => ?_
  refine .ite (fun _ => .throw_bind (by decide)) fun _ => ?_
  exact onMemory_pure (fun _ => .write _ _ _) rfl

theorem shaped_extcodecopy : (Operation.mk 4 0 activation energy extcodecopy).Shaped Stays :=
  shaped_onScratch fun _ _ _ _ _ => pop_bind fun _ => pop_bind fun _ => pop_bind fun _ =>
    pop_bind fun _ => copyToMemory_bind _ _ _ _

end

/-- The rows of the first family. -/
theorem shaped_specs : ∀ row ∈ specs, row.2.Shaped Stays := by
  simp only [specs, List.forall_mem_cons]
  exact ⟨shaped_binary _, shaped_binary _, shaped_binary _, shaped_binary _, shaped_binary _,
    shaped_binary _, shaped_binary _, shaped_ternary _, shaped_ternary _, shaped_binary _,
    shaped_binary _, shaped_binary _, shaped_binary _, shaped_binary _, shaped_binary _,
    shaped_binary _, shaped_unary _, shaped_binary _, shaped_binary _, shaped_binary _,
    shaped_unary _, shaped_binary _, shaped_binary _, shaped_binary _, shaped_binary _,
    shaped_unary _, shaped_sha3, shaped_constant _, shaped_lookup, shaped_constant _,
    shaped_constant _, shaped_constant _, shaped_lookup, shaped_constant _, shaped_copy _,
    shaped_constant _, shaped_copy _, shaped_constant _, shaped_lookup, shaped_extcodecopy,
    shaped_constant _, shaped_returndatacopy, shaped_lookup, shaped_lookup, shaped_constant _,
    shaped_constant _, shaped_constant _, shaped_constant _, shaped_constant _, shaped_constant _,
    shaped_constant _, shaped_constant _, shaped_unary _, shaped_constant _,
    fun _ h => nomatch h⟩

end OpcodesA

/-! ## The second family -/

/-- **What an instruction does to the program**: it goes on after the bytes of the instruction, or at
a jump destination. -/
def Moves (op : UInt8) (p p' : Program) : Prop :=
  p' = p.advance op ∨ ∃ target, p.jump target = .ok p'

theorem moves_of_stays {op : UInt8} {p p' : Program} (h : immediate op = 0) (hs : Stays p p') :
    Moves op p p' := by
  refine .inl ?_
  rw [hs, Program.advance, h]
  rfl

theorem Operation.Shaped.mono {operation : Operation} {moves moves' : Program → Program → Prop}
    (h : operation.Shaped moves) (hm : ∀ p p', moves p p' → moves' p p') :
    operation.Shaped moves' := fun host p n hr =>
  (h host p n hr).conseq fun _ _ hQ => ⟨hm _ _ hQ.1, hQ.2⟩

theorem Operation.Shaped.moves {op : UInt8} {operation : Operation} (h : operation.Shaped Stays)
    (hop : immediate op = 0) : operation.Shaped (Moves op) :=
  h.mono fun _ _ => moves_of_stays hop

namespace OpcodesB

open Scratch.Height

section

variable {activation : TvmRules → Bool} {energy : EnergyFn}

theorem shaped_stop : (Operation.mk 0 0 activation energy stop).Shaped Stays :=
  shaped_onScratch fun _ _ _ _ _ => .pure trivial

theorem shaped_popTop : (Operation.mk 1 0 activation energy popTop).Shaped Stays :=
  shaped_onScratch fun _ _ _ _ _ => pop_bind fun _ => .pure rfl

theorem shaped_mload : (Operation.mk 1 1 activation energy mload).Shaped Stays :=
  shaped_onScratch fun _ _ _ hr _ => pop_bind fun _ => readMemory_bind fun _ => pushes _ hr

theorem shaped_mstore : (Operation.mk 2 0 activation energy mstore).Shaped Stays :=
  shaped_onScratch fun _ _ _ _ _ => pop_bind fun _ => pop_bind fun _ =>
    onMemory_pure (fun _ => .write _ _ _) rfl

theorem shaped_mstore8 : (Operation.mk 2 0 activation energy mstore8).Shaped Stays :=
  shaped_onScratch fun _ _ _ _ _ => pop_bind fun _ => pop_bind fun _ =>
    onMemory_pure (fun _ => .write _ _ _) rfl

theorem shaped_mcopy : (Operation.mk 3 0 activation energy mcopy).Shaped Stays :=
  shaped_onScratch fun _ _ _ _ _ => pop_bind fun _ => pop_bind fun _ => pop_bind fun _ =>
    onMemory_pure (fun _ => .copyWithin _ _ _ _) rfl

theorem shaped_constant (f : OperationContext → Word) :
    (Operation.mk 0 1 activation energy (constant f)).Shaped Stays :=
  shaped_onScratch fun _ _ _ hr _ => pushes _ hr

theorem shaped_jumpdest : (Operation.mk 0 0 activation energy jumpdest).Shaped Stays :=
  shaped_onScratch fun _ _ _ _ _ => .pure rfl

theorem shaped_dup (i : Nat) :
    (Operation.mk (i + 1) (i + 2) activation energy (dup i)).Shaped Stays := by
  refine shaped_onScratch fun _ c n hr hs => lift_bind ?_ fun _ => pushes _ hr
  have hp : i < c.stack.length := by omega
  rw [Stack1024.peek, List.getElem?_eq_getElem hp]
  exact .ok _

theorem swap_ok {stack : Stack1024} {i : Nat} (h : i < stack.length) :
    ∃ swapped : Stack1024, stack.swap i = .ok swapped ∧ swapped.length = stack.length := by
  refine ⟨(stack.set 0 (stack.get ⟨i, h⟩)).set i (stack.get ⟨0, by omega⟩), ?_, ?_⟩
  · rw [Stack1024.swap, List.getElem?_eq_getElem (by omega : 0 < stack.length),
      List.getElem?_eq_getElem h]
    rfl
  · rw [List.length_set, List.length_set]

theorem shaped_swap (i : Nat) :
    (Operation.mk (i + 1) (i + 1) activation energy (swap i)).Shaped Stays := by
  refine shaped_onScratch fun _ _ n _ _ => .get_bind fun s hs => ?_
  have hi : i < s.stack.length := by omega
  obtain ⟨swapped, hsw, hl⟩ := swap_ok hi
  rw [hsw]
  exact fun _ _ => hl.trans hs

/-- The instructions that look a word up. -/
theorem shaped_lookup {f : Host → OperationContext → Word → Word} :
    (Operation.mk 1 1 activation energy
      (onScratch fun host c => pop >>= fun a => Tvm.pushed (f host c a))).Shaped Stays :=
  shaped_onScratch fun _ _ _ hr _ => pop_bind fun _ => pushes _ hr

/-- `RETURN` and `REVERT`. -/
theorem shaped_ending {f : Bytes → OperationControl} (he : ∀ n data, Ends n (f data) n) :
    (Operation.mk 2 0 activation energy
      (onScratch fun _ _ => pop >>= fun o => pop >>= fun n =>
        readMemory o.toI32Safe n.toI32Safe >>= fun data => pure (f data))).Shaped Stays :=
  shaped_onScratch fun _ _ _ _ _ => pop_bind fun _ => pop_bind fun _ => readMemory_bind fun data =>
    .pure (he _ data)

/-! Instructions that move the program. -/

theorem jumpTo_height {p : Program} {n target : Nat} :
    OperationContext.Height p n (jumpTo target) fun _ seen =>
      p.jump target = .ok seen.1 ∧ seen.2 = n := by
  intro c hc
  cases hc
  unfold jumpTo
  cases hj : c.program.jump target with
  | error fault => exact DepthFree.jump _ _ fault hj
  | ok program => exact ⟨rfl, rfl⟩

theorem shaped_jump : (Operation.mk 1 0 activation energy jump).Shaped (Moves 0x56) := by
  intro host p n _
  refine .pop_bind fun target => .bind jumpTo_height ?_
  rintro ⟨⟩ ⟨p', _⟩ ⟨hj, rfl⟩
  exact .pure ⟨.inr ⟨_, hj⟩, rfl⟩

theorem shaped_jumpi : (Operation.mk 2 0 activation energy jumpi).Shaped (Moves 0x57) := by
  intro host p n _
  refine .pop_bind fun target => .pop_bind fun _ => ?_
  refine .ite (fun _ => .bind jumpTo_height ?_) fun _ => .pure ⟨.inl rfl, rfl⟩
  rintro ⟨⟩ ⟨p', _⟩ ⟨hj, rfl⟩
  exact .pure ⟨.inr ⟨_, hj⟩, rfl⟩

theorem shaped_pushConstant (op : UInt8) {count : Nat} (h : immediate op = count) :
    (Operation.mk 0 1 activation energy (pushConstant count)).Shaped (Moves op) := by
  intro host p n hro
  refine .get_bind fun c hc => ?_
  obtain ⟨rfl, rfl⟩ : c.program = p ∧ c.stack.length = n := Prod.mk.inj hc
  have hr : c.program.readPush count =
      ((c.program.readPush count).1, c.program.advance op) := by
    rw [Program.advance, h]
    rfl
  rw [hr]
  refine .set_bind ?_
  exact (OperationContext.Height.pushes _ hro).conseq fun _ _ hQ => ⟨.inl hQ.1, hQ.2⟩

/-! Storage and logs. -/

theorem shaped_sstore : (Operation.mk 2 0 activation energy sstore).Shaped Stays := by
  intro host p n _
  refine .staticGuard_bind ?_
  refine .pop_bind fun _ => .pop_bind fun _ => ?_
  exact .modify_bind (fun _ => rfl) (.pure ⟨rfl, rfl⟩)

theorem shaped_tstore : (Operation.mk 2 0 activation energy tstore).Shaped Stays := by
  intro host p n _
  refine .staticGuard_bind ?_
  refine .pop_bind fun _ => .pop_bind fun _ => ?_
  exact .modify_bind (fun _ => rfl) (.pure ⟨rfl, rfl⟩)

theorem popTopics_height (topics : Nat) {n : Nat} :
    Scratch.Height (n + topics) (popTopics topics) fun _ m => m = n := by
  induction topics with
  | zero => exact .pure rfl
  | succ topics ih =>
    refine pop_bind (n := n + topics) fun topic => .bind ih ?_
    rintro rest _ rfl
    exact .pure rfl

theorem shaped_log (topics : Nat) :
    (Operation.mk (topics + 2) 0 activation energy (log topics)).Shaped Stays := by
  intro host p n _
  refine .staticGuard_bind ?_
  refine .pop_bind fun _ => .pop_bind fun _ => ?_
  refine .scratch_bind (popTopics_height topics) ?_
  rintro _ _ rfl
  refine .scratch_bind Scratch.Height.readMemory ?_
  rintro _ _ rfl
  exact .modify_bind (fun _ => rfl) (.pure ⟨rfl, rfl⟩)

end

theorem shaped_singleSpecs : ∀ row ∈ singleSpecs, row.2.Shaped (Moves row.1) := by
  simp only [singleSpecs, List.forall_mem_cons]
  exact ⟨shaped_stop.moves rfl, shaped_popTop.moves rfl, shaped_mload.moves rfl,
    shaped_mstore.moves rfl, shaped_mstore8.moves rfl, shaped_lookup.moves rfl,
    shaped_sstore.moves rfl, shaped_jump, shaped_jumpi, (shaped_constant _).moves rfl,
    (shaped_constant _).moves rfl, (shaped_constant _).moves rfl, shaped_jumpdest.moves rfl,
    shaped_lookup.moves rfl, shaped_tstore.moves rfl, shaped_mcopy.moves rfl,
    (shaped_constant _).moves rfl, (shaped_ending (f := .halt) fun _ _ => trivial).moves rfl,
    (shaped_ending (f := .revert) fun _ _ => trivial).moves rfl, fun _ h => nomatch h⟩

/-- The rows of a family of opcodes from `first` on. -/
theorem shaped_range {first count : Nat} {row : Nat → Operation}
    (h : ∀ i < count, (row i).Shaped (Moves (UInt8.ofNat (first + i)))) :
    ∀ r ∈ (List.range count).map fun i => (UInt8.ofNat (first + i), row i),
      r.2.Shaped (Moves r.1) := by
  intro r hr
  obtain ⟨i, hi, rfl⟩ := List.mem_map.mp hr
  exact h i (List.mem_range.mp hi)

/-- The rows of the second family. -/
theorem shaped_specs : ∀ row ∈ specs, row.2.Shaped (Moves row.1) := by
  have hp : ∀ i < 32, immediate (UInt8.ofNat (0x60 + i)) = i + 1 := by decide
  have hd : ∀ i < 16, immediate (UInt8.ofNat (0x80 + i)) = 0 := by decide
  have hs : ∀ i < 16, immediate (UInt8.ofNat (0x90 + i)) = 0 := by decide
  have hl : ∀ i < 5, immediate (UInt8.ofNat (0xa0 + i)) = 0 := by decide
  simp only [specs, List.forall_mem_append]
  exact ⟨⟨⟨⟨shaped_singleSpecs,
    shaped_range fun i hi => shaped_pushConstant _ (hp i hi)⟩,
    shaped_range fun i hi => (shaped_dup i).moves (hd i hi)⟩,
    shaped_range fun i hi => (shaped_swap (i + 1)).moves (hs i hi)⟩,
    shaped_range fun i hi => (shaped_log i).moves (hl i hi)⟩

end OpcodesB

/-! ## The third family -/

namespace OpcodesC

open Scratch.Height

section

variable {activation : TvmRules → Bool} {energy : EnergyFn} {p : Program} {n : Nat}

theorem runTransactional_depthFree (f : World → Attempt (Word × World)) (r : Repository) :
    DepthFree (runTransactional f r).1 := by
  unfold runTransactional
  dsimp only
  split <;> split
  · exact .ok _
  · exact .error (by decide)
  · exact .ok _
  · exact .error (by decide)

/-- An operation on stakes pushes one word, whether it is accepted or not. -/
theorem transactional_height (f : World → Attempt (Word × World)) (h : n + 1 ≤ stackLimit) :
    OperationContext.Height p n (transactional f)
      fun control seen => Stays p seen.1 ∧ Ends (n + 1) control seen.2 := by
  refine .bind (Q := fun _ seen => seen = (p, n)) ?_ ?_
  · intro c hc
    have hf := runTransactional_depthFree f c.repository
    rcases hr : runTransactional f c.repository with ⟨fault | value, r⟩ <;>
      rw [hr] at hf <;> simp only [hr]
    · exact hf fault rfl
    · exact hc
  · rintro value _ rfl
    exact OperationContext.Height.pushes value h

theorem owner_bind {β : Type} {f : Bytes → Prog OperationContext VmFault β}
    {Q : β → Program × Nat → Prop} (h : ∀ address, OperationContext.Height p n (f address) Q) :
    OperationContext.Height p n (owner >>= f) Q := by
  have ho : OperationContext.Height p n owner fun _ seen => seen = (p, n) :=
    .get_bind fun _ _ => .pure rfl
  refine .bind ho ?_
  rintro address _ rfl
  exact h address

theorem voteGuard_bind {β : Type} {f : Unit → Prog OperationContext VmFault β}
    {Q : β → Program × Nat → Prop} (h : OperationContext.Height p n (f ()) Q) :
    OperationContext.Height p n (voteGuard >>= f) Q := by
  have hg : OperationContext.Height p n voteGuard fun _ seen => seen = (p, n) :=
    .get_bind fun _ _ =>
      Tracks.ite (fun _ => OperationContext.Height.staticGuard) fun _ => Tracks.pure rfl
  refine .bind hg ?_
  rintro ⟨⟩ _ rfl
  exact h

theorem shaped_tokenValue : (Operation.mk 0 1 activation energy tokenValue).Shaped Stays :=
  shaped_onScratch fun _ _ _ hr _ => pushes _ hr

theorem shaped_tokenId : (Operation.mk 0 1 activation energy tokenId).Shaped Stays :=
  shaped_onScratch fun _ _ _ hr _ => pushes _ hr

theorem shaped_tokenBalance : (Operation.mk 2 1 activation energy tokenBalance).Shaped Stays := by
  refine shaped_onScratch fun _ _ _ hr _ => pop_bind fun id => pop_bind fun _ => ?_
  cases tokenName id with
  | none => exact .throw (by decide)
  | some token => exact pushes _ hr

theorem shaped_isContract : (Operation.mk 1 1 activation energy isContract).Shaped Stays :=
  shaped_onScratch fun _ _ _ hr _ => pop_bind fun _ => pushes _ hr

theorem shaped_freezeLegacy : (Operation.mk 3 1 activation energy freezeLegacy).Shaped Stays := by
  intro _ p n hr
  refine voteGuard_bind ?_
  refine .pop_bind fun _ => .pop_bind fun _ =>
    .pop_bind fun _ => .get_bind fun c _ => ?_
  refine Tracks.ite (fun _ => OperationContext.Height.pushes _ hr) fun _ => ?_
  exact owner_bind fun _ => transactional_height _ hr

theorem shaped_unfreezeLegacy :
    (Operation.mk 2 1 activation energy unfreezeLegacy).Shaped Stays := by
  intro _ p n hr
  refine voteGuard_bind ?_
  refine .pop_bind fun _ => .pop_bind fun _ => ?_
  exact owner_bind fun _ => transactional_height _ hr

theorem shaped_expire : (Operation.mk 2 1 activation energy expire).Shaped Stays :=
  shaped_onScratch fun _ _ _ hr _ => pop_bind fun _ => pop_bind fun _ => pushes _ hr

theorem shaped_onAmount (f : World → Bytes → Word → Word → Attempt (Bool × World)) :
    (Operation.mk 2 1 activation energy (onAmount f)).Shaped Stays := by
  intro _ p n hr
  refine .staticGuard_bind ?_
  refine .pop_bind fun _ => .pop_bind fun _ => ?_
  exact owner_bind fun _ => transactional_height _ hr

/-- The instructions without operands. -/
theorem shaped_onOwner {f : Bytes → World → Attempt (Word × World)} :
    (Operation.mk 0 1 activation energy fun _ =>
      staticGuard >>= fun _ => owner >>= fun owner => transactional (f owner)).Shaped Stays := by
  intro _ p n hr
  refine .staticGuard_bind ?_
  exact owner_bind fun _ => transactional_height _ hr

theorem shaped_onReceiver (f : World → Bytes → Bytes → Word → Word → Attempt (Bool × World)) :
    (Operation.mk 3 1 activation energy (onReceiver f)).Shaped Stays := by
  intro _ p n hr
  refine .staticGuard_bind ?_
  refine .pop_bind fun _ => .pop_bind fun _ =>
    .pop_bind fun _ => ?_
  exact owner_bind fun _ => transactional_height _ hr

theorem readVotes_height (witnessOff amountOff count i : Nat) :
    Scratch.Height n (readVotes witnessOff amountOff count i) fun _ m => m = n := by
  induction count generalizing i with
  | zero => exact .pure rfl
  | succ count ih =>
    refine readMemory_bind fun _ => readMemory_bind fun _ => .bind (ih (i + 1)) ?_
    rintro votes _ rfl
    exact .pure rfl

theorem voteArrays_height : Scratch.Height (n + 4) voteArrays fun _ m => m = n := by
  refine pop_bind fun _ => pop_bind fun _ => pop_bind fun _ => pop_bind fun _ => ?_
  refine .ite (fun _ => .pure rfl) fun _ => ?_
  refine readMemory_bind fun _ => readMemory_bind fun _ => ?_
  refine .ite (fun _ => .throw_bind (by decide)) fun _ => ?_
  refine .bind (readVotes_height _ _ _ _) ?_
  rintro votes _ rfl
  exact .pure rfl

theorem shaped_voteWitness : (Operation.mk 4 1 activation energy voteWitness).Shaped Stays := by
  intro _ p n hr
  refine .staticGuard_bind ?_
  refine .scratch_bind voteArrays_height ?_
  rintro votes _ rfl
  cases votes with
  | none => exact .pushes _ hr
  | some votes => exact owner_bind fun _ => transactional_height _ hr

/-! Calls, creations and the end of a contract. -/

theorem spend_depthFree (amount : Int) (m : EnergyMeter) :
    DepthFree (EnergyMeter.spend amount m).1 := by
  rw [EnergyMeter.spend_run]
  split
  · exact .error (by decide)
  split
  · exact .error (by decide)
  split
  · exact .error (by decide)
  · exact .ok _

theorem spendEnergy_height (amount : Int) :
    OperationContext.Height p n (spendEnergy amount) fun _ seen => seen = (p, n) := by
  intro c hc
  unfold spendEnergy Prog.zoom
  have hf := spend_depthFree amount c.energy
  rcases hr : EnergyMeter.spend amount c.energy with ⟨fault | ⟨⟩, energy⟩ <;>
    rw [hr] at hf
  · exact hf fault rfl
  · exact hc

theorem callOperands_height (isStatic withValue token : Bool) :
    Scratch.Height (n + 4 + token.toNat + withValue.toNat + 2)
      (callOperands isStatic withValue token) fun _ m => m = n := by
  refine pop_bind fun _ => pop_bind fun _ => popIf_bind fun _ => ?_
  refine .ite (fun _ => .throw_bind (by decide)) fun _ => popIf_bind fun _ => ?_
  refine pop_bind fun _ => pop_bind fun _ => pop_bind fun _ => pop_bind fun _ => ?_
  refine lift_bind (.rangeEnd _ _) fun _ => lift_bind (.rangeEnd _ _) fun _ => ?_
  refine lift_bind (.wordUsize _) fun _ => lift_bind (.wordUsize _) fun _ => ?_
  exact readMemory_bind fun _ => onMemory_pure (fun _ => .expand _ _ _) rfl

/-- A call takes all its operands, and leaves room for its result. -/
theorem callExec_height (host : Host) (kind : CallKind) (withValue token : Bool) :
    OperationContext.Height p (n + 4 + token.toNat + withValue.toNat + 2)
      (callExec kind withValue token host)
      fun control seen => Stays p seen.1 ∧ Ends (n + 1) control seen.2 := by
  refine .get_bind fun c _ => ?_
  refine OperationContext.Height.scratch_bind (callOperands_height _ _ _) ?_
  rintro operands _ rfl
  refine Tracks.modify_bind (fun _ => rfl) (Tracks.get_bind fun c _ => ?_)
  refine .bind (spendEnergy_height _) ?_
  rintro ⟨⟩ _ rfl
  refine OperationContext.Height.lift_bind (DepthFree.checked (by decide)) fun _ => ?_
  exact Tracks.pure ⟨rfl, rfl⟩

theorem createOperands_height (withSalt : Bool) :
    Scratch.Height (n + withSalt.toNat + 3) (createOperands withSalt) fun _ m => m = n := by
  refine pop_bind fun _ => pop_bind fun _ => pop_bind fun _ => ?_
  have hs : Scratch.Height (n + withSalt.toNat) (if withSalt then some <$> pop else pure none)
      fun _ m => m = n := by
    cases withSalt with
    | true => exact pop_bind fun _ => .pure rfl
    | false => exact .pure rfl
  refine .bind hs ?_
  rintro salt _ rfl
  refine lift_bind (.rangeEnd _ _) fun _ => lift_bind (.wordUsize _) fun _ => ?_
  exact readMemory_bind fun _ => .pure rfl

theorem shaped_create : (Operation.mk 3 1 activation energy create).Shaped Stays := by
  intro _ p n _
  refine .staticGuard_bind ?_
  refine .scratch_bind (createOperands_height (n := n) false) ?_
  rintro ⟨value, initCode, salt⟩ _ rfl
  refine .modify_bind (fun _ => rfl) (.get_bind fun c _ => ?_)
  exact .pure ⟨rfl, rfl⟩

theorem shaped_create2 : (Operation.mk 4 1 activation energy create2).Shaped Stays := by
  intro _ p n _
  refine .staticGuard_bind ?_
  refine .scratch_bind (createOperands_height (n := n) true) ?_
  rintro ⟨value, initCode, salt⟩ _ rfl
  refine .get_bind fun c _ => .ite (fun _ => ?_) fun _ => ?_
  · exact .modify_bind (fun _ => rfl) (.pure ⟨rfl, rfl⟩)
  · exact .pure ⟨rfl, rfl⟩

theorem shaped_suicide : (Operation.mk 1 0 activation energy suicide).Shaped Stays := by
  intro _ p n _
  refine .staticGuard_bind (.get_bind fun c _ => ?_)
  cases canSelfdestruct c.repository.world c.frame.contextAddress c.rules.freeze c.rules.freezeV2
      c.rules.selfdestructRestriction with
  | error e => exact .throw (by decide)
  | ok allowed =>
    cases allowed with
    | false => exact .pure ⟨rfl, trivial⟩
    | true => exact OperationContext.Height.pop_bind fun _ => Tracks.pure ⟨rfl, trivial⟩

end

/-- The rows of the third family. -/
theorem shaped_specs : ∀ row ∈ specs, row.2.Shaped Stays := by
  simp only [specs, List.forall_mem_cons]
  exact ⟨fun host _ _ _ => callExec_height host .callToken true true, shaped_tokenBalance,
    shaped_tokenValue, shaped_tokenId, shaped_isContract, shaped_freezeLegacy,
    shaped_unfreezeLegacy, shaped_expire, shaped_voteWitness, shaped_onOwner, shaped_onAmount _,
    shaped_onAmount _, shaped_onOwner, shaped_onOwner, shaped_onReceiver _, shaped_onReceiver _,
    shaped_create, fun host _ _ _ => callExec_height host .call true false,
    fun host _ _ _ => callExec_height host .callCode true false,
    fun host _ _ _ => callExec_height host .delegateCall false false, shaped_create2,
    fun host _ _ _ => callExec_height host .staticCall false false, shaped_suicide,
    fun _ h => nomatch h⟩

end OpcodesC

/-! ## The table -/

/-- **Every row of the table has the shape that it declares.** -/
theorem shaped_of_mem_integration {op : UInt8} {operation : Operation}
    (h : (op, operation) ∈ integration) : operation.Shaped (Moves op) := by
  have hA : ∀ row ∈ OpcodesA.specs, immediate row.1 = 0 := by decide
  have hC : ∀ row ∈ OpcodesC.specs, immediate row.1 = 0 := by decide
  rcases List.mem_append.mp h with h | h
  · rcases List.mem_append.mp h with h | h
    · exact (OpcodesA.shaped_specs _ h).moves (hA _ h)
    · exact OpcodesB.shaped_specs _ h
  · exact (OpcodesC.shaped_specs _ h).moves (hC _ h)

end RustTron.Tvm
