import RustTron.Tvm.MemoryCharge

/-!
# The energy of memory

The memory components of the charges of a frame add up to the cost of its memory, if each of them
is the difference that its instruction makes. The first family does not see to that: a range that
ends in an earlier word than the memory is charged a negative amount, which is taken off the rest
of the charge, or makes it fail.

## Main definitions

* `Charge.memoryComponent`: the part of a charge that is for the memory
* `InPlace`: no range of the first family ends in an earlier word than the memory
* `Touches`: what an instruction is charged, and what memory it leaves

## Main results

* `rows_integration`: every instruction but `VOTEWITNESS` reaches into the memory as it is charged
  for, or leaves it
* `FrameRun.memory_telescopes`: the memory components add up to the cost of the memory, as long as
  every instruction is in place
-/

namespace RustTron.Tvm

open EnergyMeter (memoryCost)

/-! ## Components -/

/-- The part of a charge that is for the memory. -/
def Charge.memoryComponent (charge : Charge) : Int :=
  if charge.opcode ∈ memoryOpcodes then charge.amount - flatEnergy charge.opcode charge.context
  else 0

/-- **An instruction in place**: it is not `VOTEWITNESS`, and no range of the first family that is
not empty ends in an earlier word than the memory. -/
def InPlace (opcode : UInt8) (c : OperationContext) : Prop :=
  opcode ≠ 0xd8 ∧ (opcode ∈ copyOpcodes → reach opcode c.stack ≠ 0 →
    c.memory.softLen ≤ roundUp (reach opcode c.stack))

instance (opcode : UInt8) (c : OperationContext) : Decidable (InPlace opcode c) :=
  inferInstanceAs (Decidable (_ ∧ (_ → _ → _)))

/-! ## What memory is left -/

/-- An instruction extends the memory to its last range, within the limit. The output of a call it
asks for is part of it. -/
def Reaches (execute : ExecuteFn) (reach : Stack1024 → Nat) : Prop :=
  ∀ host c control c', execute host c = (.ok control, c') →
    reach c.stack ≤ memoryLimit ∧
      c'.memory.softLen = max c.memory.softLen (roundUp (reach c.stack)) ∧
        ∀ request, control = .call request →
          rangeOf request.outputOffset request.outputSize ≤ reach c.stack

/-- An instruction that reaches into the memory: what it is charged, and what memory it leaves. -/
structure Touches (opcode : UInt8) (operation : Operation) : Prop where
  charges : Charges operation.requiredBefore operation.energy (reach opcode) (flatEnergy opcode)
    (if opcode ∈ copyOpcodes then rawDelta else clampedDelta)
  reaches : Reaches operation.execute (reach opcode)

section Silent

variable {σ α β : Type} {memory : σ → Memory}

/-- A program that leaves the memory. -/
def Mute (memory : σ → Memory) (x : Prog σ VmFault α) : Prop :=
  ∀ s a s', x s = (.ok a, s') → memory s' = memory s

/-- An instruction that leaves the memory, and asks for no call. -/
def Silent (memory : σ → Memory) (x : Prog σ VmFault OperationControl) : Prop :=
  ∀ s control s', x s = (.ok control, s') →
    memory s' = memory s ∧ ∀ request, control ≠ .call request

theorem bind_eq_ok {x : Prog σ VmFault α} {f : α → Prog σ VmFault β} {s t : σ} {b : β} :
    (x >>= f) s = (.ok b, t) ↔ ∃ a u, x s = (.ok a, u) ∧ f a u = (.ok b, t) := by
  rw [Prog.bind_run]
  rcases x s with ⟨e | a, u⟩ <;> simp

theorem Mute.bind {x : Prog σ VmFault α} {f : α → Prog σ VmFault β} (hx : Mute memory x)
    (hf : ∀ a, Mute memory (f a)) : Mute memory (x >>= f) := by
  intro s b t h
  obtain ⟨a, u, hru, hr⟩ := bind_eq_ok.mp h
  exact (hf a u b t hr).trans (hx s a u hru)

theorem Mute.pure (a : α) : Mute memory (Pure.pure a) := by
  rintro s b t ⟨⟩
  rfl

theorem Mute.get : Mute memory (MonadState.get : Prog σ VmFault σ) := by
  rintro s b t ⟨⟩
  rfl

theorem Mute.throw {e : VmFault} : Mute memory (MonadExcept.throw e : Prog σ VmFault α) := by
  rintro s b t ⟨⟩

theorem Mute.modify {f : σ → σ} (h : ∀ s, memory (f s) = memory s) :
    Mute memory (modify f : Prog σ VmFault PUnit) := by
  rintro s b t ⟨⟩
  exact h s

theorem Mute.lift (x : Faulting α) : Mute memory (lift x : Prog σ VmFault α) := by
  intro s b t h
  cases x <;> cases h
  rfl

theorem Mute.ite {p : Prop} [Decidable p] {x y : Prog σ VmFault α} (hx : Mute memory x)
    (hy : Mute memory y) : Mute memory (if p then x else y) := by
  split
  · exact hx
  · exact hy

theorem Silent.bind {x : Prog σ VmFault α} {f : α → Prog σ VmFault OperationControl}
    (hx : Mute memory x) (hf : ∀ a, Silent memory (f a)) : Silent memory (x >>= f) := by
  intro s b t h
  obtain ⟨a, u, hru, hr⟩ := bind_eq_ok.mp h
  obtain ⟨hm, hc⟩ := hf a u b t hr
  exact ⟨hm.trans (hx s a u hru), hc⟩

theorem Silent.pure {control : OperationControl} (h : ∀ request, control ≠ .call request) :
    Silent memory (Pure.pure control) := by
  rintro s b t ⟨⟩
  exact ⟨rfl, h⟩

theorem Silent.throw {e : VmFault} :
    Silent memory (MonadExcept.throw e : Prog σ VmFault OperationControl) := by
  rintro s b t ⟨⟩

theorem Silent.ite {p : Prop} [Decidable p] {x y : Prog σ VmFault OperationControl}
    (hx : Silent memory x) (hy : Silent memory y) : Silent memory (if p then x else y) := by
  split
  · exact hx
  · exact hy

theorem Silent.continue : Silent memory (Pure.pure .continue) := Silent.pure (by simp)

theorem mute_pop : Mute Scratch.memory pop := by
  intro s a t h
  unfold pop at h
  split at h <;> cases h
  rfl

theorem mute_push (value : Word) : Mute Scratch.memory (push value) := by
  intro s a t h
  unfold push at h
  split at h <;> cases h
  rfl

theorem pop_bind_eq_ok {f : Word → Prog Scratch VmFault α} {s t : Scratch} {a : α} :
    (pop >>= f) s = (.ok a, t) ↔ ∃ value stack, s.stack = value :: stack ∧
      f value ⟨stack, s.memory⟩ = (.ok a, t) := by
  rw [bind_eq_ok]
  unfold pop Stack1024.pop
  rcases s with ⟨_ | ⟨value, stack⟩, m⟩ <;> simp

theorem readMemory_bind_eq_ok {offset size : Nat} {f : Bytes → Prog Scratch VmFault α}
    {s t : Scratch} {a : α} :
    (readMemory offset size >>= f) s = (.ok a, t) ↔ ∃ bytes m,
      s.memory.read offset size = .ok (bytes, m) ∧ f bytes ⟨s.stack, m⟩ = (.ok a, t) := by
  rw [bind_eq_ok]
  unfold readMemory
  rcases s.memory.read offset size with e | ⟨bytes, m⟩ <;> simp

theorem onMemory_bind_eq_ok {g : Memory → Faulting Memory} {f : Unit → Prog Scratch VmFault α}
    {s t : Scratch} {a : α} :
    (onMemory g >>= f) s = (.ok a, t) ↔ ∃ m,
      g s.memory = .ok m ∧ f () ⟨s.stack, m⟩ = (.ok a, t) := by
  rw [bind_eq_ok]
  unfold onMemory
  rcases g s.memory with e | m
  · simp
  constructor
  · rintro ⟨⟨⟩, u, ⟨⟩, hr⟩
    exact ⟨m, rfl, hr⟩
  · rintro ⟨m', ⟨⟩, hr⟩
    exact ⟨(), _, rfl, hr⟩

theorem silent_pushed (value : Word) : Silent Scratch.memory (pushed value) :=
  .bind (mute_push value) fun _ => .continue

/-- A program on the stack and the memory, in its context. -/
theorem scratch_eq_ok {x : Prog Scratch VmFault α} {c c' : OperationContext} {a : α} :
    scratch x c = (.ok a, c') ↔ ∃ s, x ⟨c.stack, c.memory⟩ = (.ok a, s) ∧
      c' = { c with stack := s.stack, memory := s.memory } :=
  Prog.zoom_eq_ok

theorem Mute.scratch {x : Prog Scratch VmFault α} (h : Mute Scratch.memory x) :
    Mute OperationContext.memory (scratch x) := by
  intro c a c' hr
  obtain ⟨s, hx, rfl⟩ := scratch_eq_ok.mp hr
  exact h _ _ _ hx

theorem Silent.scratch {x : Prog Scratch VmFault OperationControl}
    (h : Silent Scratch.memory x) : Silent OperationContext.memory (scratch x) := by
  intro c a c' hr
  obtain ⟨s, hx, rfl⟩ := scratch_eq_ok.mp hr
  exact h _ _ _ hx

/-- An instruction that leaves the memory, in every frame. -/
def Untouched (execute : ExecuteFn) : Prop :=
  ∀ host, Silent OperationContext.memory (execute host)

theorem Untouched.onScratch
    {x : Host → OperationContext → Prog Scratch VmFault OperationControl}
    (h : ∀ host c, Silent Scratch.memory (x host c)) : Untouched (onScratch x) :=
  fun host c => Silent.scratch (h host c) c

theorem Untouched.reaches {execute : ExecuteFn} (h : Untouched execute) :
    Reaches execute fun _ => 0 := by
  intro host c control c' hr
  obtain ⟨hm, hc⟩ := h host c control c' hr
  refine ⟨Nat.zero_le _, ?_, fun request hca => absurd hca (hc request)⟩
  rw [hm, roundUp_zero, Nat.max_zero]

end Silent

/-! ### The first family -/

section FamilyA

open OpcodesA

theorem untouched_constant (f : OperationContext → Word) : Untouched (constant f) :=
  .onScratch fun _ _ => silent_pushed _

theorem untouched_unary (f : Word → Word) : Untouched (unary f) :=
  .onScratch fun _ _ => .bind mute_pop fun _ => silent_pushed _

theorem untouched_binary (f : Word → Word → Word) : Untouched (binary f) :=
  .onScratch fun _ _ => .bind mute_pop fun _ => .bind mute_pop fun _ => silent_pushed _

theorem untouched_ternary (f : Word → Word → Word → Word) : Untouched (ternary f) :=
  .onScratch fun _ _ => .bind mute_pop fun _ => .bind mute_pop fun _ => .bind mute_pop fun _ =>
    silent_pushed _

/-- An instruction that reads a value of its context by the word it takes. -/
theorem untouched_reads (f : Host → OperationContext → Word → Word) :
    Untouched (onScratch fun host c => do
      let a ← pop
      pushed (f host c a)) :=
  .onScratch fun _ _ => .bind mute_pop fun _ => silent_pushed _

/-- An instruction whose memory is that after its ranges, and which asks for no call. -/
theorem reaches_of_soft {c c' : OperationContext} {control : OperationControl} {opcode : UInt8}
    {last : Nat} (hr : reach opcode c.stack = last)
    (hs : last ≤ memoryLimit ∧ c'.memory.softLen = max c.memory.softLen (roundUp last))
    (hc : ∀ request, control ≠ .call request) :
    reach opcode c.stack ≤ memoryLimit ∧
      c'.memory.softLen = max c.memory.softLen (roundUp (reach opcode c.stack)) ∧
        ∀ request, control = .call request →
          rangeOf request.outputOffset request.outputSize ≤ reach opcode c.stack := by
  rw [hr]
  exact ⟨hs.1, hs.2, fun request hca => absurd hca (hc request)⟩

theorem reaches_sha3 : Reaches sha3 (reach 0x20) := by
  intro host c control c' hru
  obtain ⟨s, h, rfl⟩ := scratch_eq_ok.mp hru
  simp only [pop_bind_eq_ok, readMemory_bind_eq_ok] at h
  obtain ⟨o, stack, hst, n, rest, rfl, data, m, hr, hp⟩ := h
  obtain ⟨hm, hc⟩ := silent_pushed _ _ _ _ hp
  have hs := read_eq_ok hr
  rw [rangeOf_toI32Safe (.inl hs.1)] at hs
  refine reaches_of_soft ?_ ⟨hs.1, ?_⟩ hc
  · rw [hst]
    exact reach_one rfl
  · dsimp only
    rw [hm]
    exact hs.2

/-- A copy with its destination and its size on the stack. -/
theorem copied {destination sourceOffset size : Word} {source : Bytes} {s t : Scratch}
    {control : OperationControl}
    (h : (do
      copyToMemory destination sourceOffset size source
      pure .continue : Prog Scratch VmFault OperationControl) s = (.ok control, t)) :
    (wordRange destination size ≤ memoryLimit ∧
      t.memory.softLen = max s.memory.softLen (roundUp (wordRange destination size))) ∧
        ∀ request, control ≠ .call request := by
  unfold copyToMemory at h
  rw [onMemory_bind_eq_ok] at h
  obtain ⟨m, hw, hr⟩ := h
  cases hr
  have hs := writePadded_eq_ok hw
  rw [rangeOf_toI32Safe (.inl hs.1)] at hs
  exact ⟨hs, by simp⟩

theorem reaches_copy {opcode : UInt8} (ho : opcode ∈ [0x37, 0x39])
    (source : OperationContext → Bytes) : Reaches (copy source) (reach opcode) := by
  intro host c control c' hr
  obtain ⟨s, h, rfl⟩ := scratch_eq_ok.mp hr
  simp only [pop_bind_eq_ok] at h
  obtain ⟨m, stack, hs, o, rest, rfl, n, rest', rfl, hco⟩ := h
  obtain ⟨hso, hc⟩ := copied hco
  refine reaches_of_soft ?_ hso hc
  rw [hs]
  fin_cases ho <;> exact reach_one rfl

theorem reaches_extcodecopy : Reaches extcodecopy (reach 0x3c) := by
  intro host c control c' hr
  obtain ⟨s, h, rfl⟩ := scratch_eq_ok.mp hr
  simp only [pop_bind_eq_ok] at h
  obtain ⟨a, stack, hs, m, rest, rfl, o, rest', rfl, n, rest'', rfl, hco⟩ := h
  obtain ⟨hso, hc⟩ := copied hco
  refine reaches_of_soft ?_ hso hc
  rw [hs]
  exact reach_one rfl

theorem reaches_returndatacopy : Reaches returndatacopy (reach 0x3e) := by
  intro host c control c' hru
  obtain ⟨s, h, rfl⟩ := scratch_eq_ok.mp hru
  simp only [pop_bind_eq_ok] at h
  obtain ⟨m, stack, hst, o, rest, rfl, n, rest', rfl, h⟩ := h
  split at h
  · cases h
  next hb =>
  rw [onMemory_bind_eq_ok] at h
  obtain ⟨memory, hw, hr⟩ := h
  cases hr
  have hl : ((c.effects.returnData.drop o.toI32Safe).take n.toI32Safe).length =
      n.toI32Safe := by
    rw [List.length_take, List.length_drop]
    omega
  have hs := write_eq_ok hw
  rw [hl] at hs
  rw [rangeOf_toI32Safe (.inl hs.1)] at hs
  refine reaches_of_soft ?_ hs (by simp)
  rw [hst]
  exact reach_one rfl

end FamilyA

/-! ### The second family -/

section FamilyB

open OpcodesB

theorem mute_jumpTo (target : Nat) : Mute OperationContext.memory (jumpTo target) := by
  intro c a c' h
  unfold jumpTo at h
  split at h <;> cases h
  rfl

theorem mute_staticGuard : Mute OperationContext.memory staticGuard :=
  .bind .get fun _ => .ite .throw (.pure _)

theorem mute_scratch_pop : Mute OperationContext.memory (scratch pop) := .scratch mute_pop

theorem untouched_constantB (f : OperationContext → Word) : Untouched (constant f) :=
  .onScratch fun _ _ => silent_pushed _

theorem untouched_dup (n : Nat) : Untouched (dup n) :=
  .onScratch fun _ _ => .bind (.lift _) fun _ => silent_pushed _

theorem untouched_swap (n : Nat) : Untouched (swap n) := by
  intro host c control c' hr
  obtain ⟨s, h, rfl⟩ := scratch_eq_ok.mp hr
  rw [Prog.bind_of_ok (Prog.get_run _)] at h
  simp only [bind_eq_ok] at h
  obtain ⟨stack, u, -, _, v, hs, hp⟩ := h
  cases hs
  cases hp
  exact ⟨rfl, by simp⟩

theorem untouched_pushConstant (count : Nat) : Untouched (pushConstant count) := by
  intro host c control c' hr
  unfold pushConstant at hr
  rw [Prog.bind_of_ok (Prog.get_run _)] at hr
  dsimp only at hr
  rw [bind_eq_ok] at hr
  obtain ⟨_, u, hse, hp⟩ := hr
  cases hse
  have hs := Silent.scratch (silent_pushed (c.program.readPush count).1) _ _ _ hp
  exact hs

theorem untouched_jump : Untouched jump :=
  fun _ => .bind mute_scratch_pop fun _ => .bind (mute_jumpTo _) fun _ => .continue

theorem untouched_jumpi : Untouched jumpi :=
  fun _ => .bind mute_scratch_pop fun _ => .bind mute_scratch_pop fun _ =>
    .ite (.bind (mute_jumpTo _) fun _ => .continue) .continue

/-- A store of a word under a word, in the storage of the contract or the transient one. -/
theorem untouched_store {f : Word → Word → OperationContext → OperationContext}
    (hf : ∀ k v c, (f k v c).memory = c.memory) : Silent OperationContext.memory (do
      staticGuard
      let k ← scratch pop
      let v ← scratch pop
      modify (f k v)
      pure .continue) :=
  .bind mute_staticGuard fun _ => .bind mute_scratch_pop fun _ => .bind mute_scratch_pop fun _ =>
    .bind (.modify (hf _ _)) fun _ => .continue

/-- The loads and stores of the memory, by the offset on the stack and the size. -/
theorem reaches_mload : Reaches mload (reach 0x51) := by
  intro host c control c' hru
  obtain ⟨s, h, rfl⟩ := scratch_eq_ok.mp hru
  simp only [pop_bind_eq_ok, readMemory_bind_eq_ok] at h
  obtain ⟨o, stack, hst, data, m, hr, hp⟩ := h
  obtain ⟨hm, hc⟩ := silent_pushed _ _ _ _ hp
  have hs := read_eq_ok hr
  rw [show (32 : Nat) = (32 : Word).toI32Safe from rfl, rangeOf_toI32Safe (.inl hs.1)] at hs
  refine reaches_of_soft ?_ ⟨hs.1, ?_⟩ hc
  · rw [hst]
    exact reach_one rfl
  · dsimp only
    rw [hm]
    exact hs.2

/-- A word, or its last byte, written to the memory. -/
theorem written {o : Word} {data : Bytes} {s t : Scratch} {control : OperationControl}
    (h : (do
      onMemory fun m => m.write o.toI32Safe data
      pure .continue : Prog Scratch VmFault OperationControl) s = (.ok control, t)) :
    (rangeOf o.toI32Safe data.length ≤ memoryLimit ∧
      t.memory.softLen = max s.memory.softLen (roundUp (rangeOf o.toI32Safe data.length))) ∧
        ∀ request, control ≠ .call request := by
  rw [onMemory_bind_eq_ok] at h
  obtain ⟨m, hw, hr⟩ := h
  cases hr
  exact ⟨write_eq_ok hw, by simp⟩

theorem length_toBeBytes (word : Word) : word.toBeBytes.length = 32 := by
  rw [Word.toBeBytes, List.length_map, List.length_range]

theorem reaches_mstore : Reaches mstore (reach 0x52) := by
  intro host c control c' hr
  obtain ⟨s, h, rfl⟩ := scratch_eq_ok.mp hr
  simp only [pop_bind_eq_ok] at h
  obtain ⟨o, stack, hst, v, rest, rfl, hw⟩ := h
  obtain ⟨hs, hc⟩ := written hw
  rw [length_toBeBytes, show (32 : Nat) = (32 : Word).toI32Safe from rfl] at hs
  rw [rangeOf_toI32Safe (.inl hs.1)] at hs
  refine reaches_of_soft ?_ hs hc
  rw [hst]
  exact reach_one rfl

theorem reaches_mstore8 : Reaches mstore8 (reach 0x53) := by
  intro host c control c' hr
  obtain ⟨s, h, rfl⟩ := scratch_eq_ok.mp hr
  simp only [pop_bind_eq_ok] at h
  obtain ⟨o, stack, hst, v, rest, rfl, hw⟩ := h
  obtain ⟨hs, hc⟩ := written hw
  rw [List.length_drop, length_toBeBytes, show 32 - 31 = (1 : Word).toI32Safe from rfl] at hs
  rw [rangeOf_toI32Safe (.inl hs.1)] at hs
  refine reaches_of_soft ?_ hs hc
  rw [hst]
  exact reach_one rfl

theorem reaches_mcopy : Reaches mcopy (reach 0x5e) := by
  intro host c control c' hru
  obtain ⟨s, h, rfl⟩ := scratch_eq_ok.mp hru
  simp only [pop_bind_eq_ok, onMemory_bind_eq_ok] at h
  obtain ⟨d, stack, hst, o, rest, rfl, n, rest', rfl, m, hc, hr⟩ := h
  cases hr
  have hs := copyWithin_eq_ok hc
  rw [rangeOf_toI32Safe (.inl ((le_max_left _ _).trans hs.1)),
    rangeOf_toI32Safe (.inl ((le_max_right _ _).trans hs.1)), max_comm] at hs
  refine reaches_of_soft ?_ hs (by simp)
  rw [hst]
  exact reach_two rfl

/-- An instruction that ends the frame with data from the memory. -/
theorem reaches_halt {opcode : UInt8} (ho : opcode ∈ [0xf3, 0xfd])
    {ends : Bytes → OperationControl} (he : ∀ data request, ends data ≠ .call request) :
    Reaches (onScratch fun _ _ => do
      let o ← pop
      let n ← pop
      let data ← readMemory o.toI32Safe n.toI32Safe
      pure (ends data)) (reach opcode) := by
  intro host c control c' hru
  obtain ⟨s, h, rfl⟩ := scratch_eq_ok.mp hru
  simp only [pop_bind_eq_ok, readMemory_bind_eq_ok] at h
  obtain ⟨o, stack, hst, n, rest, rfl, data, m, hr, hre⟩ := h
  cases hre
  have hs := read_eq_ok hr
  rw [rangeOf_toI32Safe (.inl hs.1)] at hs
  refine reaches_of_soft ?_ hs (he data)
  rw [hst]
  fin_cases ho <;> exact reach_one rfl

theorem staticGuard_eq_ok {c c' : OperationContext} {u : Unit}
    (h : staticGuard c = (.ok u, c')) : c' = c := by
  unfold staticGuard at h
  rw [Prog.bind_of_ok (Prog.get_run _)] at h
  split at h <;> cases h
  rfl

theorem scratch_pop_eq_ok {c c' : OperationContext} {value : Word}
    (h : scratch pop c = (.ok value, c')) : ∃ stack, c.stack = value :: stack ∧
      c' = { c with stack } := by
  obtain ⟨s, hp, rfl⟩ := scratch_eq_ok.mp h
  unfold pop Stack1024.pop at hp
  cases hs : c.stack with
  | nil =>
    rw [hs] at hp
    cases hp
  | cons top stack =>
    rw [hs] at hp
    cases hp
    exact ⟨_, rfl, rfl⟩

theorem mute_popTopics (n : Nat) : Mute Scratch.memory (popTopics n) := by
  induction n with
  | zero => exact .pure _
  | succ n ih => exact .bind mute_pop fun _ => .bind ih fun _ => .pure _

theorem reaches_log {topics : Nat} (h : topics < 5) :
    Reaches (log topics) (reach (UInt8.ofNat (0xa0 + topics))) := by
  intro host c control c' hr
  unfold log at hr
  simp only [bind_eq_ok] at hr
  obtain ⟨_, c₁, hg, o, c₂, ho, n, c₃, hsi, _, c₄, ht, data, c₅, hre, _, c₆,
    hmo, hres⟩ := hr
  obtain rfl := staticGuard_eq_ok hg
  obtain ⟨stack, hst, rfl⟩ := scratch_pop_eq_ok ho
  obtain ⟨rest, rfl, rfl⟩ := scratch_pop_eq_ok hsi
  have hm := (mute_popTopics topics).scratch _ _ _ ht
  obtain ⟨s, hb, rfl⟩ := scratch_eq_ok.mp hre
  cases hmo
  cases hres
  unfold readMemory at hb
  split at hb
  · next bytes memory hok =>
    cases hb
    have hs := read_eq_ok hok
    rw [rangeOf_toI32Safe (.inl hs.1), hm] at hs
    refine reaches_of_soft ?_ hs (by simp)
    rw [hst]
    interval_cases topics <;> exact reach_one rfl
  · cases hb

end FamilyB

/-! ### The third family -/

namespace OpcodesC

theorem silent_transactional (f : World → Attempt (Word × World)) :
    Silent OperationContext.memory (transactional f) := by
  refine .bind ?_ fun value => .scratch (silent_pushed value)
  rintro c value c' h
  obtain ⟨-, rfl⟩ := Prod.mk.inj h
  rfl

theorem mute_owner : Mute OperationContext.memory owner := .bind .get fun _ => .pure _

theorem mute_voteGuard : Mute OperationContext.memory voteGuard :=
  .bind .get fun _ => .ite mute_staticGuard (.pure _)

theorem untouched_onAmount (f : World → Bytes → Word → Word → Attempt (Bool × World)) :
    Untouched (onAmount f) :=
  fun _ => .bind mute_staticGuard fun _ => .bind mute_scratch_pop fun _ =>
    .bind mute_scratch_pop fun _ => .bind mute_owner fun _ => silent_transactional _

theorem untouched_onReceiver (f : World → Bytes → Bytes → Word → Word → Attempt (Bool × World)) :
    Untouched (onReceiver f) :=
  fun _ => .bind mute_staticGuard fun _ => .bind mute_scratch_pop fun _ =>
    .bind mute_scratch_pop fun _ => .bind mute_scratch_pop fun _ => .bind mute_owner fun _ =>
      silent_transactional _

/-- An instruction on the stakes of the frame alone. -/
theorem untouched_ofOwner (f : World → Bytes → Attempt (Word × World)) :
    Untouched (fun _ => do
      staticGuard
      let owner ← owner
      transactional fun w => f w owner) :=
  fun _ => .bind mute_staticGuard fun _ => .bind mute_owner fun _ => silent_transactional _

theorem untouched_freezeLegacy : Untouched freezeLegacy :=
  fun _ => .bind mute_voteGuard fun _ => .bind mute_scratch_pop fun _ =>
    .bind mute_scratch_pop fun _ => .bind mute_scratch_pop fun _ => .bind .get fun _ =>
      .ite (.scratch (silent_pushed _)) (.bind mute_owner fun _ => silent_transactional _)

theorem untouched_unfreezeLegacy : Untouched unfreezeLegacy :=
  fun _ => .bind mute_voteGuard fun _ => .bind mute_scratch_pop fun _ =>
    .bind mute_scratch_pop fun _ => .bind mute_owner fun _ => silent_transactional _

theorem untouched_tokenBalance : Untouched tokenBalance :=
  .onScratch fun _ _ => .bind mute_pop fun _ => .bind mute_pop fun _ => by
    split
    · exact .throw
    · exact silent_pushed _

theorem untouched_expire : Untouched expire :=
  .onScratch fun _ _ => .bind mute_pop fun _ => .bind mute_pop fun _ => silent_pushed _

theorem untouched_suicide : Untouched suicide :=
  fun _ => .bind mute_staticGuard fun _ => .bind .get fun _ => by
    split
    · exact .throw
    · exact .pure (by simp)
    · exact .bind mute_scratch_pop fun _ => .pure (by simp)

theorem wordUsize_eq_ok {word : Word} {n : Nat} (h : wordUsize word = .ok n) :
    n = word.toNat := by
  unfold wordUsize at h
  split at h <;> cases h
  rfl

theorem rangeOf_rangeStart {offset size : Word} :
    rangeOf (rangeStart (wordRange offset size) size.toNat) size.toNat =
      wordRange offset size := by
  unfold rangeStart wordRange rangeOf
  split <;> omega

theorem lift_bind_eq_ok {σ α β : Type} {x : Faulting α} {f : α → Prog σ VmFault β} {s t : σ}
    {b : β} : (lift x >>= f) s = (.ok b, t) ↔ ∃ a, x = .ok a ∧ f a s = (.ok b, t) := by
  rw [bind_eq_ok]
  cases x with
  | error e =>
    constructor
    · rintro ⟨a, u, h, -⟩
      cases h
    · rintro ⟨a, h, -⟩
      cases h
  | ok a =>
    constructor
    · rintro ⟨a', u, h, hr⟩
      cases h
      exact ⟨a, rfl, hr⟩
    · rintro ⟨a', h, hr⟩
      cases h
      exact ⟨a, s, rfl, hr⟩

/-- The ranges of a call: its input and its output, which the memory is extended to. -/
structure CallRanges (inOff inSize outOff outSize : Word) (m m' : Memory)
    (operands : CallOperands) : Prop where
  le : max (wordRange inOff inSize) (wordRange outOff outSize) ≤ memoryLimit
  soft : m'.softLen = max m.softLen
    (roundUp (max (wordRange inOff inSize) (wordRange outOff outSize)))
  output : rangeOf operands.outputOffset operands.outputSize = wordRange outOff outSize

/-- The last four operands of a call. -/
theorem callRanges {requested : Word} {destination : Bytes} {supplied tokenId : Word}
    {s t : Scratch} {operands : CallOperands}
    (h : (do
      let inputOffset ← pop
      let inputSize ← pop
      let outputOffset ← pop
      let outputSize ← pop
      let inputEnd ← lift (rangeEnd inputOffset inputSize)
      let outputEnd ← lift (rangeEnd outputOffset outputSize)
      let inputSize ← lift (wordUsize inputSize)
      let outputSize ← lift (wordUsize outputSize)
      let data ← readMemory (rangeStart inputEnd inputSize) inputSize
      onMemory fun m => m.expand (rangeStart outputEnd outputSize) outputSize
      pure
        { requested, destination, supplied, tokenId, data
          outputOffset := rangeStart outputEnd outputSize, outputSize }
      : Prog Scratch VmFault CallOperands) s = (.ok operands, t)) :
    ∃ inOff inSize outOff outSize rest,
      s.stack = inOff :: inSize :: outOff :: outSize :: rest ∧
        CallRanges inOff inSize outOff outSize s.memory t.memory operands := by
  simp only [pop_bind_eq_ok, lift_bind_eq_ok, readMemory_bind_eq_ok, onMemory_bind_eq_ok] at h
  obtain ⟨inOff, stack₁, hst, inSize, stack₂, rfl, outOff, stack₃, rfl, outSize, stack₄, rfl,
    inEnd, hie, outEnd, hoe, n, hn, n', hn', data, m, hr, m', he, hre⟩ := h
  cases hre
  obtain ⟨hle, rfl⟩ := rangeEnd_eq_ok.mp hie
  obtain ⟨hl', rfl⟩ := rangeEnd_eq_ok.mp hoe
  obtain rfl := wordUsize_eq_ok hn
  obtain rfl := wordUsize_eq_ok hn'
  have hs := (read_eq_ok hr).2
  have hs' := (expand_eq_ok he).2
  rw [rangeOf_rangeStart] at hs hs'
  refine ⟨inOff, inSize, outOff, outSize, stack₄, hst, max_le hle hl', ?_,
    rangeOf_rangeStart⟩
  rw [roundUp_max, ← max_assoc, ← hs]
  exact hs'

/-- The operands of a call begin with the energy and the destination, and what is transferred. -/
theorem callOperands_eq_ok {isStatic withValue token : Bool} {s t : Scratch}
    {operands : CallOperands} (hk : token = true → withValue = true)
    (h : callOperands isStatic withValue token s = (.ok operands, t)) :
    ∃ pre inOff inSize outOff outSize rest,
      pre.length = (if token then 4 else if withValue then 3 else 2) ∧
        s.stack = pre ++ inOff :: inSize :: outOff :: outSize :: rest ∧
          CallRanges inOff inSize outOff outSize s.memory t.memory operands := by
  unfold callOperands at h
  cases withValue with
  | false =>
    obtain rfl : token = false := by
      cases token
      · rfl
      · exact absurd (hk rfl) Bool.false_ne_true
    simp only [Bool.false_eq_true, if_false, pop_bind_eq_ok] at h
    obtain ⟨requested, stack, hs, destination, stack₁, rfl, h⟩ := h
    rw [Prog.bind_of_ok (Prog.pure_run _ _)] at h
    split at h
    · cases h
    rw [Prog.bind_of_ok (Prog.pure_run _ _)] at h
    obtain ⟨inOff, inSize, outOff, outSize, rest, rfl, hr⟩ := callRanges h
    exact ⟨[requested, destination], inOff, inSize, outOff, outSize, rest, rfl, hs, hr⟩
  | true =>
    cases token with
    | false =>
      simp only [Bool.false_eq_true, if_false, if_true, pop_bind_eq_ok] at h
      obtain ⟨requested, stack, hs, destination, stack₁, rfl, supplied, stack₂, rfl, h⟩ := h
      split at h
      · cases h
      rw [Prog.bind_of_ok (Prog.pure_run _ _)] at h
      obtain ⟨inOff, inSize, outOff, outSize, rest, rfl, hr⟩ := callRanges h
      exact ⟨[requested, destination, supplied], inOff, inSize, outOff, outSize, rest, rfl,
        hs, hr⟩
    | true =>
      simp only [if_true, pop_bind_eq_ok] at h
      obtain ⟨requested, stack, hs, destination, stack₁, rfl, supplied, stack₂, rfl, h⟩ := h
      split at h
      · cases h
      rw [pop_bind_eq_ok] at h
      obtain ⟨tokenId, stack₃, rfl, h⟩ := h
      obtain ⟨inOff, inSize, outOff, outSize, rest, rfl, hr⟩ := callRanges h
      exact ⟨[requested, destination, supplied, tokenId], inOff, inSize, outOff, outSize, rest,
        rfl, hs, hr⟩

theorem mute_clearReturnData : Mute OperationContext.memory clearReturnData :=
  .modify fun _ => rfl

theorem mute_spendEnergy (amount : Int) : Mute OperationContext.memory (spendEnergy amount) := by
  intro c a c' h
  unfold spendEnergy Prog.zoom at h
  dsimp only at h
  rcases hs : EnergyMeter.spend amount c.energy with ⟨_ | _, energy⟩ <;>
    rw [hs] at h <;> cases h
  rfl

theorem getD_append_add {α : Type} (pre l : List α) (k : Nat) (d : α) :
    (pre ++ l).getD (pre.length + k) d = l.getD k d := by
  rw [List.getD_eq_getElem?_getD, List.getElem?_append_right (Nat.le_add_right _ _),
    Nat.add_sub_cancel_left, List.getD_eq_getElem?_getD]

/-- **A call**: the memory is extended to its input and its output. -/
theorem reaches_callExec {opcode : UInt8} {kind : CallKind} {withValue token : Bool} {i : Nat}
    (hi : (if token then 4 else if withValue then 3 else 2) = i)
    (hk : token = true → withValue = true)
    (hre : ∀ stack : Stack1024, reach opcode stack =
      max (wordRange (stack.getD i 0) (stack.getD (i + 1) 0))
        (wordRange (stack.getD (i + 2) 0) (stack.getD (i + 3) 0))) :
    Reaches (callExec kind withValue token) (reach opcode) := by
  intro host c control c' hr
  unfold callExec at hr
  rw [Prog.bind_of_ok (Prog.get_run _), bind_eq_ok] at hr
  obtain ⟨operands, c₁, ho, hr⟩ := hr
  rw [bind_eq_ok] at hr
  obtain ⟨_, c₂, hc, hr⟩ := hr
  rw [Prog.bind_of_ok (Prog.get_run _), bind_eq_ok] at hr
  obtain ⟨_, c₃, hsp, hr⟩ := hr
  rw [lift_bind_eq_ok] at hr
  obtain ⟨limit, -, hres⟩ := hr
  cases hres
  obtain ⟨s, hr, rfl⟩ := scratch_eq_ok.mp ho
  obtain ⟨pre, inOff, inSize, outOff, outSize, rest, hl, hs, hra⟩ :=
    callOperands_eq_ok hk hr
  have hm : c'.memory = s.memory :=
    (mute_spendEnergy _ _ _ _ hsp).trans (mute_clearReturnData _ _ _ hc)
  have hla : reach opcode c.stack = max (wordRange inOff inSize) (wordRange outOff outSize) := by
    have hg : ∀ k, c.stack.getD (i + k) 0 =
        (inOff :: inSize :: outOff :: outSize :: rest).getD k 0 := by
      intro k
      change (c.stack : List Word) = _ at hs
      rw [hs, ← hi, ← hl, getD_append_add]
    have hf := hg 0
    rw [Nat.add_zero] at hf
    rw [hre, hf, hg, hg, hg]
    rfl
  rw [hla, hm]
  refine ⟨hra.le, hra.soft, ?_⟩
  rintro request ⟨⟩
  exact hra.output.trans_le (le_max_right _ _)

/-- The operands of a creation: what is left of the memory. -/
theorem createOperands_eq_ok {withSalt : Bool} {s t : Scratch}
    {operands : Word × Bytes × Option Word} (h : createOperands withSalt s = (.ok operands, t)) :
    wordRange (s.stack.getD 1 0) (s.stack.getD 2 0) ≤ memoryLimit ∧
      t.memory.softLen = max s.memory.softLen
        (roundUp (wordRange (s.stack.getD 1 0) (s.stack.getD 2 0))) := by
  unfold createOperands at h
  rw [pop_bind_eq_ok] at h
  obtain ⟨value, stack, hst, h⟩ := h
  rw [pop_bind_eq_ok] at h
  obtain ⟨offset, stack₁, rfl, h⟩ := h
  rw [pop_bind_eq_ok] at h
  obtain ⟨size, stack₂, rfl, h⟩ := h
  rw [bind_eq_ok] at h
  obtain ⟨salt, u, hsa, h⟩ := h
  have hm : u.memory = s.memory := by
    have hmu : Mute Scratch.memory (if withSalt = true then some <$> pop else pure none) :=
      .ite (.bind mute_pop fun _ => .pure _) (.pure _)
    have hk := hmu _ _ _ hsa
    exact hk
  simp only [lift_bind_eq_ok, readMemory_bind_eq_ok] at h
  obtain ⟨last, hl, n, hn, data, m, hr, hre⟩ := h
  cases hre
  obtain ⟨hle, rfl⟩ := rangeEnd_eq_ok.mp hl
  obtain rfl := wordUsize_eq_ok hn
  have hs := (read_eq_ok hr).2
  rw [rangeOf_rangeStart, hm] at hs
  rw [hst]
  exact ⟨hle, hs⟩

theorem reaches_create : Reaches create (reach 0xf0) := by
  intro host c control c' hr
  unfold create at hr
  simp only [bind_eq_ok] at hr
  obtain ⟨_, c₁, hg, operands, c₂, ho, _, c₃, hc, c₄, c₅, hge, hre⟩ := hr
  obtain rfl := staticGuard_eq_ok hg
  cases hge
  cases hre
  obtain ⟨s, hr, rfl⟩ := scratch_eq_ok.mp ho
  obtain ⟨hle, hs⟩ := createOperands_eq_ok hr
  have hm : c'.memory = s.memory := mute_clearReturnData _ _ _ hc
  refine reaches_of_soft (reach_one rfl) ⟨hle, ?_⟩ (by simp)
  rw [hm]
  exact hs

theorem reaches_create2 : Reaches create2 (reach 0xf5) := by
  intro host c control c' hr
  unfold create2 at hr
  rw [bind_eq_ok] at hr
  obtain ⟨_, c₁, hg, hr⟩ := hr
  rw [bind_eq_ok] at hr
  obtain ⟨⟨value, initCode, salt⟩, c₂, hs, hr⟩ := hr
  obtain rfl := staticGuard_eq_ok hg
  obtain ⟨s, ho, rfl⟩ := scratch_eq_ok.mp hs
  obtain ⟨hle, hso⟩ := createOperands_eq_ok ho
  dsimp only at hr
  rw [Prog.bind_of_ok (Prog.get_run _)] at hr
  -- the returned data is cleared or not; the memory is that after the operands
  obtain ⟨hm, hc⟩ : c'.memory = s.memory ∧ ∀ request, control ≠ .call request := by
    split at hr
    · rw [bind_eq_ok] at hr
      obtain ⟨_, c₃, hcl, hre⟩ := hr
      cases hre
      exact ⟨mute_clearReturnData _ _ _ hcl, by simp⟩
    · cases hr
      exact ⟨rfl, by simp⟩
  refine reaches_of_soft (reach_one rfl) ⟨hle, ?_⟩ hc
  rw [hm]
  exact hso

end OpcodesC

/-! ## The table -/

/-- A row of the table: the instruction reaches into the memory, or leaves it. -/
def Row (row : UInt8 × Operation) : Prop :=
  Touches row.1 row.2 ∨ (row.1 ∉ memoryOpcodes ∧ Untouched row.2.execute)

theorem Row.untouched {opcode : UInt8} {operation : Operation}
    (h : Untouched operation.execute) (ho : opcode ∉ memoryOpcodes := by decide) :
    Row (opcode, operation) :=
  .inr ⟨ho, h⟩

theorem Row.raw {opcode : UInt8} {operation : Operation} (ho : opcode ∈ copyOpcodes)
    (hc : Charges operation.requiredBefore operation.energy (reach opcode)
      (flatEnergy opcode) rawDelta) (hr : Reaches operation.execute (reach opcode)) :
    Row (opcode, operation) := by
  refine .inl ⟨?_, hr⟩
  rw [if_pos ho]
  exact hc

theorem Row.clamped {opcode : UInt8} {operation : Operation} (ho : opcode ∉ copyOpcodes)
    (hc : Charges operation.requiredBefore operation.energy (reach opcode)
      (flatEnergy opcode) clampedDelta) (hr : Reaches operation.execute (reach opcode)) :
    Row (opcode, operation) := by
  refine .inl ⟨?_, hr⟩
  rw [if_neg ho]
  exact hc

theorem rows_specsA : ∀ row ∈ OpcodesA.specs, Row row := by
  simp only [OpcodesA.specs, List.forall_mem_cons]
  exact
    ⟨.untouched (untouched_binary _), .untouched (untouched_binary _),
      .untouched (untouched_binary _), .untouched (untouched_binary _),
      .untouched (untouched_binary _), .untouched (untouched_binary _),
      .untouched (untouched_binary _), .untouched (untouched_ternary _),
      .untouched (untouched_ternary _), .untouched (untouched_binary _),
      .untouched (untouched_binary _), .untouched (untouched_binary _),
      .untouched (untouched_binary _), .untouched (untouched_binary _),
      .untouched (untouched_binary _), .untouched (untouched_binary _),
      .untouched (untouched_unary _), .untouched (untouched_binary _),
      .untouched (untouched_binary _), .untouched (untouched_binary _),
      .untouched (untouched_unary _), .untouched (untouched_binary _),
      .untouched (untouched_binary _), .untouched (untouched_binary _),
      .untouched (untouched_binary _), .untouched (untouched_unary _),
      .raw (by decide) charges_sha3 reaches_sha3, .untouched (untouched_constant _),
      .untouched (untouched_reads _), .untouched (untouched_constant _),
      .untouched (untouched_constant _), .untouched (untouched_constant _),
      .untouched (untouched_reads _), .untouched (untouched_constant _),
      .raw (by decide) (charges_copy (by decide)) (reaches_copy (by decide) _),
      .untouched (untouched_constant _),
      .raw (by decide) (charges_copy (by decide)) (reaches_copy (by decide) _),
      .untouched (untouched_constant _), .untouched (untouched_reads _),
      .raw (by decide) charges_extcopy reaches_extcodecopy, .untouched (untouched_constant _),
      .raw (by decide) (charges_copy (by decide)) reaches_returndatacopy,
      .untouched (untouched_reads _), .untouched (untouched_reads _),
      .untouched (untouched_constant _), .untouched (untouched_constant _),
      .untouched (untouched_constant _), .untouched (untouched_constant _),
      .untouched (untouched_constant _), .untouched (untouched_constant _),
      .untouched (untouched_constant _), .untouched (untouched_constant _),
      .untouched (untouched_unary _), .untouched (untouched_constant _), fun _ h => (nomatch h)⟩

theorem rows_singleSpecs : ∀ row ∈ OpcodesB.singleSpecs, Row row := by
  simp only [OpcodesB.singleSpecs, List.forall_mem_cons]
  exact
    ⟨.untouched (.onScratch fun _ _ => .pure (by simp)),
      .untouched (.onScratch fun _ _ => .bind mute_pop fun _ => .continue),
      .clamped (by decide) (charges_memory (by decide) (.inl ⟨by decide, rfl⟩)) reaches_mload,
      .clamped (by decide) (charges_memory (by decide) (.inl ⟨by decide, rfl⟩)) reaches_mstore,
      .clamped (by decide) (charges_memory (by decide) (.inr ⟨rfl, rfl⟩)) reaches_mstore8,
      .untouched (untouched_reads _), .untouched (fun _ => untouched_store fun _ _ _ => rfl),
      .untouched untouched_jump, .untouched untouched_jumpi, .untouched (untouched_constantB _),
      .untouched (untouched_constantB _), .untouched (untouched_constantB _),
      .untouched (.onScratch fun _ _ => .continue), .untouched (untouched_reads _),
      .untouched (fun _ => untouched_store fun _ _ _ => rfl),
      .clamped (by decide) charges_mcopy reaches_mcopy, .untouched (untouched_constantB _),
      .clamped (by decide) (charges_return (by decide)) (reaches_halt (by decide) (by simp)),
      .clamped (by decide) (charges_return (by decide)) (reaches_halt (by decide) (by simp)),
      fun _ h => (nomatch h)⟩

theorem rows_specsB : ∀ row ∈ OpcodesB.specs, Row row := by
  intro row hr
  simp only [OpcodesB.specs, List.mem_append, List.mem_map, List.mem_range] at hr
  rcases hr with (((hr | ⟨i, hi, rfl⟩) | ⟨i, hi, rfl⟩) | ⟨i, hi, rfl⟩) | ⟨i, hi, rfl⟩
  · exact rows_singleSpecs row hr
  · refine .untouched (untouched_pushConstant _) ?_
    interval_cases i <;> decide
  · refine .untouched (untouched_dup _) ?_
    interval_cases i <;> decide
  · refine .untouched (untouched_swap _) ?_
    interval_cases i <;> decide
  · refine .clamped ?_ (charges_log hi) (reaches_log hi)
    interval_cases i <;> decide

theorem rows_specsC : ∀ row ∈ OpcodesC.specs, row.1 ≠ 0xd8 → Row row := by
  have hcal : Reaches OpcodesC.call (reach 0xf1) :=
    OpcodesC.reaches_callExec rfl (by decide) fun _ => reach_two rfl
  have hca : Reaches OpcodesC.callcode (reach 0xf2) :=
    OpcodesC.reaches_callExec rfl (by decide) fun _ => reach_two rfl
  have hd : Reaches OpcodesC.delegate (reach 0xf4) :=
    OpcodesC.reaches_callExec rfl (by decide) fun _ => reach_two rfl
  have hs : Reaches OpcodesC.staticcall (reach 0xfa) :=
    OpcodesC.reaches_callExec rfl (by decide) fun _ => reach_two rfl
  have hc : Reaches OpcodesC.calltoken (reach 0xd0) :=
    OpcodesC.reaches_callExec rfl (by decide) fun _ => reach_two rfl
  simp only [OpcodesC.specs, List.forall_mem_cons]
  exact
    ⟨fun _ => .clamped (by decide) charges_calltoken hc,
      fun _ => .untouched OpcodesC.untouched_tokenBalance,
      fun _ => .untouched (.onScratch fun _ _ => silent_pushed _),
      fun _ => .untouched (.onScratch fun _ _ => silent_pushed _),
      fun _ => .untouched (untouched_reads _), fun _ => .untouched OpcodesC.untouched_freezeLegacy,
      fun _ => .untouched OpcodesC.untouched_unfreezeLegacy,
      fun _ => .untouched OpcodesC.untouched_expire, fun h => absurd rfl h,
      fun _ => .untouched (OpcodesC.untouched_ofOwner _),
      fun _ => .untouched (OpcodesC.untouched_onAmount _),
      fun _ => .untouched (OpcodesC.untouched_onAmount _),
      fun _ => .untouched (OpcodesC.untouched_ofOwner _),
      fun _ => .untouched (OpcodesC.untouched_ofOwner _),
      fun _ => .untouched (OpcodesC.untouched_onReceiver _),
      fun _ => .untouched (OpcodesC.untouched_onReceiver _),
      fun _ => .clamped (by decide) charges_create OpcodesC.reaches_create,
      fun _ => .clamped (by decide) charges_call hcal,
      fun _ => .clamped (by decide) charges_callcode hca,
      fun _ => .clamped (by decide) (charges_delegate (by decide)) hd,
      fun _ => .clamped (by decide) charges_create2 OpcodesC.reaches_create2,
      fun _ => .clamped (by decide) (charges_delegate (by decide)) hs,
      fun _ => .untouched OpcodesC.untouched_suicide, fun _ h => (nomatch h)⟩

/-- **The table of instructions**: all but `VOTEWITNESS` reach into the memory as they are charged
for, or leave it. -/
theorem rows_integration {opcode : UInt8} {operation : Operation}
    (h : (opcode, operation) ∈ integration) (hv : opcode ≠ 0xd8) : Row (opcode, operation) := by
  rw [integration, List.mem_append, List.mem_append] at h
  rcases h with (h | h) | h
  · exact rows_specsA _ h
  · exact rows_specsB _ h
  · exact rows_specsC _ h hv

theorem reach_of_notMem {opcode : UInt8} (h : opcode ∉ memoryOpcodes) :
    reach opcode = fun _ => 0 := by
  funext stack
  simp only [memoryOpcodes, copyOpcodes, List.mem_append, List.mem_cons, List.not_mem_nil,
    or_false, not_or] at h
  simp only [reach, ranges, List.mem_cons, List.not_mem_nil, or_false, h, if_false,
    List.foldr_nil]

/-- What every instruction but `VOTEWITNESS` leaves of the memory. -/
theorem Row.reaches {opcode : UInt8} {operation : Operation} (h : Row (opcode, operation)) :
    Reaches operation.execute (reach opcode) := by
  rcases h with h | ⟨ho, h⟩
  · exact h.reaches
  · rw [reach_of_notMem ho]
    exact h.reaches

/-! ## Runs of frames -/

/-- A memory of whole words, within the limit. -/
structure Memory.Whole (m : Memory) : Prop where
  words : roundUp m.softLen = m.softLen
  le : m.softLen ≤ memoryLimit

section Deltas

variable {softLen last : Nat}

theorem roundUp_roundUp (bytes : Nat) : roundUp (roundUp bytes) = roundUp bytes := by
  unfold roundUp
  omega

theorem roundUp_mono {a b : Nat} (h : a ≤ b) : roundUp a ≤ roundUp b := by
  unfold roundUp
  omega

theorem le_roundUp (bytes : Nat) : bytes ≤ roundUp bytes := by
  unfold roundUp
  omega

theorem Memory.Whole.extend {m m' : Memory} (h : m.Whole) (hl : last ≤ memoryLimit)
    (hs : m'.softLen = max m.softLen (roundUp last)) : m'.Whole := by
  refine ⟨?_, ?_⟩
  · rw [hs, roundUp_max, h.words, roundUp_roundUp]
  · rw [hs]
    exact max_le h.le (roundUp_le_memoryLimit hl)

/-- The charge that is clamped is the difference between the two memories. -/
theorem clampedDelta_exact (h : roundUp softLen = softLen) :
    clampedDelta softLen last = wordsCost (max softLen (roundUp last)) - wordsCost softLen := by
  unfold clampedDelta
  split
  · next hle =>
    have hr := roundUp_mono hle
    rw [h] at hr
    rw [max_eq_left hr, Int.sub_self]
  · next hlt =>
    have hr := le_roundUp last
    rw [max_eq_right (by omega), wordsCost_roundUp]

/-- **The charge of the first family** is that difference just in case the range is empty, or ends
in no earlier word than the memory; else it is negative. -/
theorem rawDelta_exact_iff (h : roundUp softLen = softLen) :
    rawDelta softLen last = wordsCost (max softLen (roundUp last)) - wordsCost softLen ↔
      (last ≠ 0 → softLen ≤ roundUp last) := by
  unfold rawDelta
  split
  · next hz =>
    rw [hz, roundUp_zero, Nat.max_zero, Int.sub_self]
    simp
  · next hp =>
    rw [← wordsCost_roundUp last]
    constructor
    · intro heq _
      by_contra hlt
      have hl : wordsCost last < wordsCost softLen := wordsCost_lt (by omega)
      rw [max_eq_left (by omega), wordsCost_roundUp] at heq
      omega
    · intro hle
      rw [max_eq_right (hle hp)]

end Deltas

section Runs

variable {host : Host} {c c' c'' : OperationContext} {opcode : UInt8} {check : Nat} {amount : Int}
  {control : OperationControl}

/-- What is known of an instruction that was executed: the memory it leaves, and the component it
was charged for it. -/
theorem step_memory (hw : c.memory.Whole) (hv : opcode ≠ 0xd8)
    (h : step host check opcode c = (.ok (amount, control), c')) :
    (reach opcode c.stack ≤ memoryLimit ∧
      c'.memory.softLen = max c.memory.softLen (roundUp (reach opcode c.stack)) ∧
        ∀ request, control = .call request →
          rangeOf request.outputOffset request.outputSize ≤ reach opcode c.stack) ∧
      Charge.memoryComponent ⟨opcode, c, amount⟩ = if opcode ∈ copyOpcodes then
        rawDelta c.memory.softLen (reach opcode c.stack)
      else clampedDelta c.memory.softLen (reach opcode c.stack) := by
  obtain ⟨operation, hre, hs, hen, energy, he⟩ := step_eq_ok h
  have hro := rows_integration (mem_integration hre) hv
  have hr := hro.reaches _ _ _ _ he
  refine ⟨hr, ?_⟩
  unfold Charge.memoryComponent
  dsimp only
  split
  · next ho =>
    rcases hro with hro | ⟨hot, -⟩
    · have hc := hro.charges host c hs hr.1 hw.le
      rw [hen] at hc
      cases hc
      dsimp only
      split <;> omega
    · exact absurd ho hot
  · next ho =>
    have hco : opcode ∉ copyOpcodes := fun hm =>
      ho (List.mem_append_left _ hm)
    rw [if_neg hco, reach_of_notMem ho]
    rfl

/-- The component is the difference between the two memories just in case the instruction is in
place. -/
theorem memoryComponent_exact_iff (hw : c.memory.Whole) (hv : opcode ≠ 0xd8)
    (h : step host check opcode c = (.ok (amount, control), c')) :
    Charge.memoryComponent ⟨opcode, c, amount⟩ =
      wordsCost (max c.memory.softLen (roundUp (reach opcode c.stack))) -
        wordsCost c.memory.softLen ↔ InPlace opcode c := by
  rw [(step_memory hw hv h).2]
  split
  · next hc =>
    rw [rawDelta_exact_iff hw.words]
    exact ⟨fun hp => ⟨hv, fun _ => hp⟩, fun hp => hp.2 hc⟩
  · next hc =>
    exact iff_of_true (clampedDelta_exact hw.words)
      ⟨hv, fun hm => absurd hm hc⟩

/-- What a child leaves of the memory: its output is part of it already. -/
theorem Resumed.softLen {last : Nat} (h : Resumed control c' c'')
    (hl : roundUp last ≤ c'.memory.softLen)
    (ho : ∀ request, control = .call request →
      rangeOf request.outputOffset request.outputSize ≤ last) :
    c''.memory.softLen = c'.memory.softLen := by
  cases h with
  | «continue» => rfl
  | rejected => rfl
  | @returned request _ _ _ _ _ data =>
    dsimp only
    split
    · next m hw =>
      rw [(write_eq_ok hw).2]
      refine max_eq_left (le_trans (roundUp_mono ?_) hl)
      refine le_trans ?_ (ho request rfl)
      have hle : (data.take request.outputSize).length ≤ request.outputSize := by
        rw [List.length_take]
        exact Nat.min_le_left _ _
      unfold rangeOf
      split <;> split <;> omega
    · rfl
  | created => rfl
  | ended => rfl

/-- **The memory components telescope**: up to here they add up to the cost of the memory, each is
the difference that its instruction made, and the next one is so just in case its instruction is in
place. What reaches no further than the memory is charged nothing for it, and does not fail. -/
structure Telescopes (host : Host) (charges : List Charge) (c : OperationContext) : Prop where
  sum : memoryCost c.memory.softLen = .ok (charges.map Charge.memoryComponent).sum
  each : ∀ charge ∈ charges, 0 ≤ charge.memoryComponent ∧
    (charge.opcode ∈ memoryOpcodes → EnergyMeter.memoryDelta charge.context.memory.softLen
      (max charge.context.memory.softLen (roundUp (reach charge.opcode charge.context.stack))) =
        .ok charge.memoryComponent)
  next_iff : ∀ {opcode program check amount control c'},
    c.program.nextOpcode = some (opcode, program) → opcode ≠ 0xd8 →
      step host check opcode { c with program } = (.ok (amount, control), c') →
        (EnergyMeter.memoryDelta c.memory.softLen
          (max c.memory.softLen (roundUp (reach opcode c.stack))) =
            .ok (Charge.memoryComponent ⟨opcode, { c with program }, amount⟩) ↔
          InPlace opcode { c with program })
  free : ∀ {opcode program operation}, c.program.nextOpcode = some (opcode, program) →
    resolve c.rules opcode = some operation → opcode ∈ memoryOpcodes →
      operation.requiredBefore ≤ c.stack.length → InPlace opcode { c with program } →
        reach opcode c.stack ≤ c.memory.softLen →
          operation.energy host { c with program } = .ok (flatEnergy opcode { c with program }) ∧
            ∀ range ∈ ranges opcode c.stack, ∃ m,
              c.memory.expand range.1 range.2 = .ok m ∧ m.softLen = c.memory.softLen

theorem rangeOf_le_reach {stack : Stack1024} {range : Nat × Nat}
    (h : range ∈ ranges opcode stack) : rangeOf range.1 range.2 ≤ reach opcode stack := by
  unfold reach
  generalize ranges opcode stack = all at h
  induction all with
  | nil => cases h
  | cons head rest ih =>
    rw [List.foldr_cons]
    rcases List.mem_cons.mp h with rfl | h
    · exact le_max_left _ _
    · exact (ih h).trans (le_max_right _ _)

theorem expand_of_le {m : Memory} {offset size : Nat} (hw : m.Whole)
    (h : rangeOf offset size ≤ m.softLen) :
    ∃ m', m.expand offset size = .ok m' ∧ m'.softLen = m.softLen := by
  cases he : m.expand offset size with
  | ok m' =>
    refine ⟨m', rfl, ?_⟩
    have hr := roundUp_mono h
    rw [hw.words] at hr
    rw [(expand_eq_ok he).2, max_eq_left hr]
  | error e =>
    have hle := h.trans hw.le
    unfold rangeOf at hle
    unfold Memory.expand at he
    split at he
    · cases he
    · next hs =>
      rw [if_neg hs] at hle
      dsimp only at he
      rw [if_neg (Nat.not_lt.mpr hle)] at he
      cases he

/-- What holds of a memory of whole words, whatever has been charged for it. -/
theorem Telescopes.of_whole {charges : List Charge} (hw : c.memory.Whole)
    (hsu : wordsCost c.memory.softLen = (charges.map Charge.memoryComponent).sum)
    (he : ∀ charge ∈ charges, 0 ≤ charge.memoryComponent ∧
      (charge.opcode ∈ memoryOpcodes → EnergyMeter.memoryDelta charge.context.memory.softLen
        (max charge.context.memory.softLen
          (roundUp (reach charge.opcode charge.context.stack))) = .ok charge.memoryComponent)) :
    Telescopes host charges c where
  sum := by rw [memoryCost_eq hw.le, hsu]
  each := he
  next_iff := by
    intro opcode program check amount control c' _ hv hs
    have hle := (step_memory (c := { c with program }) hw hv hs).1.1
    rw [memoryDelta_eq hw.le (max_le hw.le (roundUp_le_memoryLimit hle)),
      ← memoryComponent_exact_iff (c := { c with program }) hw hv hs, Except.ok.injEq]
    exact eq_comm
  free := by
    intro opcode program operation _ hre ho hst hp hr
    refine ⟨?_, fun range hra => expand_of_le hw ((rangeOf_le_reach hra).trans hr)⟩
    rcases rows_integration (mem_integration hre) hp.1 with hro | ⟨hot, -⟩
    · rw [hro.charges host { c with program } hst (hr.trans hw.le) hw.le]
      refine congrArg Except.ok ?_
      have hz : clampedDelta c.memory.softLen (reach opcode c.stack) = 0 := if_pos hr
      dsimp only
      split
      · next hc =>
        rw [(rawDelta_exact_iff hw.words).mpr (hp.2 hc),
          ← clampedDelta_exact hw.words, hz, Int.add_zero]
      · rw [hz, Int.add_zero]
    · exact absurd ho hot

/-- **Memory energy telescopes** in every run of a frame whose instructions are in place. -/
theorem FrameRun.memory_telescopes {start : OperationContext} {charges : List Charge}
    {running : Bool} (h : FrameRun host InPlace start charges c running)
    (hfresh : start.memory = {}) : Telescopes host charges c := by
  suffices hrun : c.memory.Whole ∧
      wordsCost c.memory.softLen = (charges.map Charge.memoryComponent).sum ∧
        ∀ charge ∈ charges, 0 ≤ charge.memoryComponent ∧
          (charge.opcode ∈ memoryOpcodes → EnergyMeter.memoryDelta charge.context.memory.softLen
            (max charge.context.memory.softLen
              (roundUp (reach charge.opcode charge.context.stack))) =
                .ok charge.memoryComponent) from
    .of_whole hrun.1 hrun.2.1 hrun.2.2
  induction h with
  | start =>
    rw [hfresh]
    exact ⟨⟨rfl, Nat.zero_le _⟩, rfl, fun _ h => (nomatch h)⟩
  | @step charges c c' c'' opcode program check amount control _ _ hplace hstep hresumed ih =>
    obtain ⟨hwhole, hsum, heach⟩ := ih
    obtain ⟨⟨hle, hsoft, houtput⟩, -⟩ :=
      step_memory (c := { c with program }) hwhole hplace.1 hstep
    have hcomponent :=
      (memoryComponent_exact_iff (c := { c with program }) hwhole hplace.1 hstep).mpr hplace
    dsimp only at hle hsoft houtput hcomponent
    have hafter : c''.memory.softLen = c'.memory.softLen :=
      hresumed.softLen (hsoft ▸ le_max_right _ _) houtput
    have hwhole'' : c''.memory.Whole := hwhole.extend hle (hafter.trans hsoft)
    refine ⟨hwhole'', ?_, ?_⟩
    · rw [List.map_append, List.sum_append, ← hsum, List.map_singleton, List.sum_singleton,
        hcomponent, hafter, hsoft]
      omega
    · intro charge hcharge
      rcases List.mem_append.mp hcharge with hcharge | hcharge
      · exact heach charge hcharge
      · rw [List.mem_singleton] at hcharge
        subst hcharge
        rw [hcomponent]
        refine ⟨?_, fun _ => ?_⟩
        · have hmono := wordsCost_mono (le_max_left c.memory.softLen
            (roundUp (reach opcode c.stack)))
          omega
        · exact memoryDelta_eq hwhole.le (max_le hwhole.le (roundUp_le_memoryLimit hle))

end Runs

/-! ## A smaller range after a larger one -/

namespace MemorySample

/-- A host without cryptography and without a clock. -/
def host : Host where
  keccak256 _ := .zero
  sha256 _ := .zero
  recover _ _ := none
  standard _ _ := none
  modexpForkTimeout _ _ _ := false
  shielded _ _ := (false, [])
  cleanAmount _ _ _ := 0
  limiter _ := none

/-- A frame of an account, at the start of some code. -/
def frame (code : Bytes) : OperationContext where
  rules := {}
  frame := ⟨[], [], [], [], [], 0, 0, 0, [], 0, 0, false⟩
  program := .new code
  stack := []
  memory := {}
  effects := {}
  energy := .new 100000
  repository := .fromSession {} []

/-- The instructions of some code that only continue, executed one after the other as long as they
are allowed. -/
def execute (allowed : UInt8 → OperationContext → Prop)
    [∀ opcode c, Decidable (allowed opcode c)] :
    Nat → OperationContext → Option (List Charge × OperationContext)
  | 0, c => some ([], c)
  | n + 1, c =>
    match execute allowed n c with
    | none => none
    | some (charges, c) =>
      match c.program.nextOpcode with
      | none => none
      | some (opcode, program) =>
        if allowed opcode { c with program } then
          match step host 0 opcode { c with program } with
          | (.ok (amount, .continue), c') =>
            some (charges ++ [⟨opcode, { c with program }, amount⟩], c')
          | _ => none
        else none

theorem frameRun_execute {allowed : UInt8 → OperationContext → Prop}
    [∀ opcode c, Decidable (allowed opcode c)] {start c : OperationContext}
    {charges : List Charge} {n : Nat}
    (h : execute allowed n start = some (charges, c)) :
    FrameRun host allowed start charges c true := by
  induction n generalizing charges c with
  | zero =>
    cases h
    exact .start
  | succ n ih =>
    rw [execute] at h
    split at h
    · cases h
    next charges' c₁ hb =>
    split at h
    · cases h
    next opcode program hn =>
    split at h
    swap
    · cases h
    next ha =>
    split at h
    · next amount c' hs =>
      cases h
      exact .step (ih hb) hn ha hs .continue
    · cases h

/-- A word is stored at an offset, and the hash is taken of the first bytes of the memory. -/
def code (offset : Bytes) (size : UInt8) : Bytes :=
  [0x60, 0, 0x61] ++ offset ++ [0x52, 0x60, size, 0x60, 0, 0x20]

/-- The components of the charges, and the memory. -/
def outcome (allowed : UInt8 → OperationContext → Prop)
    [∀ opcode c, Decidable (allowed opcode c)] (n : Nat) (code : Bytes) : Option (List Int × Nat) :=
  (execute allowed n (frame code)).map fun run =>
    (run.1.map Charge.memoryComponent, run.2.memory.softLen)

theorem run_of_outcome {allowed : UInt8 → OperationContext → Prop}
    [∀ opcode c, Decidable (allowed opcode c)] {n : Nat} {code : Bytes} {components : List Int}
    {softLen : Nat} (h : outcome allowed n code = some (components, softLen)) :
    ∃ charges c, FrameRun host allowed (frame code) charges c true ∧
      charges.map Charge.memoryComponent = components ∧ c.memory.softLen = softLen := by
  obtain ⟨⟨charges, c⟩, hr, heq⟩ := Option.map_eq_some_iff.mp h
  cases heq
  exact ⟨charges, c, frameRun_execute hr, rfl, rfl⟩

end MemorySample

open MemorySample

theorem FrameRun.memory_telescopes_sample : ∃ charges c,
    FrameRun host InPlace (frame (code [0, 32] 64)) charges c true ∧
      charges.map Charge.memoryComponent = [0, 0, 6, 0, 0, 0] ∧
        memoryCost c.memory.softLen = .ok 6 ∧ Telescopes host charges c := by
  have hrun : outcome InPlace 6 (code [0, 32] 64) = some ([0, 0, 6, 0, 0, 0], 64) := by
    decide
  obtain ⟨charges, c, hframe, hcomponents, -⟩ := run_of_outcome hrun
  have htelescopes := hframe.memory_telescopes rfl
  have hsum := htelescopes.sum
  rw [hcomponents] at hsum
  exact ⟨charges, c, hframe, hcomponents, hsum, htelescopes⟩

/-- The hash of one byte takes back what the second word was charged; and after 32 words it faults,
since more is taken back than it is charged. -/
theorem FrameRun.memory_taken_back :
    (∃ charges c, FrameRun host (fun opcode _ => opcode ≠ 0xd8) (frame (code [0, 32] 1)) charges c
        true ∧ charges.map Charge.memoryComponent = [0, 0, 6, 0, 0, -3] ∧
          memoryCost c.memory.softLen = .ok 6) ∧
    ∃ charges c program, FrameRun host (fun opcode _ => opcode ≠ 0xd8) (frame (code [3, 224] 1))
        charges c true ∧ c.program.nextOpcode = some (0x20, program) ∧
          reach 0x20 c.stack ≤ c.memory.softLen ∧
            (Tvm.step host 0 0x20 { c with program }).1 = .error .arithmetic := by
  constructor
  · have hrun : outcome (fun opcode _ => opcode ≠ 0xd8) 6 (code [0, 32] 1) =
        some ([0, 0, 6, 0, 0, -3], 64) := by
      decide
    obtain ⟨charges, c, hframe, hcomponents, hsoft⟩ := run_of_outcome hrun
    refine ⟨charges, c, hframe, hcomponents, ?_⟩
    rw [hsoft]
    decide
  · have hrun : ((execute (fun opcode _ => opcode ≠ 0xd8) 5 (frame (code [3, 224] 1))).bind
        fun run => run.2.program.nextOpcode.map fun next =>
          (next.1, decide (reach 0x20 run.2.stack ≤ run.2.memory.softLen),
            (Tvm.step host 0 0x20 { run.2 with program := next.2 }).1)) =
          some (0x20, true, .error .arithmetic) := by
      decide
    obtain ⟨⟨charges, c⟩, hexecute, hnext⟩ := Option.bind_eq_some_iff.mp hrun
    obtain ⟨⟨opcode, program⟩, hopcode, heq⟩ := Option.map_eq_some_iff.mp hnext
    simp only [Prod.mk.injEq, decide_eq_true_eq] at heq
    obtain ⟨rfl, hreach, hfault⟩ := heq
    exact ⟨charges, c, program, frameRun_execute hexecute, hopcode, hreach, hfault⟩

end RustTron.Tvm
