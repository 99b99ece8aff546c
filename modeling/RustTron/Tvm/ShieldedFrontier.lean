import RustTron.Shielded.Voucher
import Mathlib

/-!
# Insertions into the tree of note commitments

The contract that keeps the tree of note commitments does not keep its leaves.  It has a frontier
of 33 slots and the number of leaves.  The precompiled contracts compute the nodes that new leaves
add: for each leaf a slot and the nodes up to the level of the slot, the last of which the contract
stores in the slot, and the root after all of them.

The nodes of the tree are numbered from the root down, so the leaf at index `i` has the number
`i + 2 ^ 32 - 1`, a right child has an even number, and the parent of a node is half of it.

## Main definitions

* `frontierFits`, `frontierSlot`, `insertLeaves`: the insertion
* `readInsertions`, `store`: what the contract reads of the result and keeps
* `Produced`: the frontier was produced from the leaves by insertions

## Main results

* `climbLevel_foldlM`: the way up computes the nodes over the last leaf
* `insertLeaves_eq`: the result of an insertion, leaf by leaf
* `insertLeaves_append`: an insertion appends to the tree
-/

namespace RustTron.Tvm

open Shielded

def treeWidth : Nat := 2 ^ 32

structure ShieldedOutput where
  success : Bool
  output : Bytes
  deriving DecidableEq

def frontierFits (frontierBytes : Bytes) (leafCount leafLen : Nat) : Bool :=
  frontierBytes.length == 33 * 32 && leafLen != 0 && decide (leafCount + leafLen ≤ treeWidth)

def trailingZeros (x : Nat) : Nat := ((List.range 64).find? fun k => x.testBit k).getD 64

def frontierSlot (index : Nat) : Option Nat :=
  if index ≥ treeWidth then none
  else if index &&& 1 = 0 then some 0
  else some (trailingZeros (index + 1))

/-- A word of 32 bytes with a small number: `slot_word`. -/
def slotWord (slot : UInt8) : Bytes := List.replicate 31 0 ++ [slot]

/-- The first word of a byte string, and the rest. -/
def takeWord (bytes : Bytes) : Option (Hash32 × Bytes) :=
  if h : 32 ≤ bytes.length then
    some (⟨bytes.take 32, by rw [List.length_take, Nat.min_eq_left h]⟩, bytes.drop 32)
  else none

/-- Words from a byte string, and the rest. -/
def takeWords : Nat → Bytes → Option (List Hash32 × Bytes)
  | 0, bytes => some ([], bytes)
  | count + 1, bytes => do
    let (word, bytes) ← takeWord bytes
    let (words, bytes) ← takeWords count bytes
    return (word :: words, bytes)

/-- Words one after another. -/
def wordBytes (words : List Hash32) : Bytes := words.flatMap Hash32.bytes

variable (S : Sapling)

/-- The roots of empty trees: `uncommitted`. -/
def uncommittedNodes : Option (List Hash32) :=
  (List.range 31).foldlM (fun uncommitted level => do
    let node ← uncommitted[level]?
    let parent ← (merkleHash S level node node).toOption
    return uncommitted ++ [parent]) [S.uncommitted]

/-- One turn of the loops over the levels: the parent of a node, by its number. -/
def climbLevel (uncommitted frontier : List Hash32) (state : Nat × Hash32) (level : Nat) :
    Option (Nat × Hash32) := do
  let (nodeIndex, node) := state
  if nodeIndex &&& 1 = 0 then
    let left ← frontier[level - 1]?
    let parent ← (merkleHash S (level - 1) left node).toOption
    return ((nodeIndex - 1) / 2, parent)
  else
    let right ← uncommitted[level - 1]?
    let parent ← (merkleHash S (level - 1) node right).toOption
    return (nodeIndex / 2, parent)

/-- The same where the parent also goes into the payload. -/
def climbSlot (uncommitted frontier : List Hash32) (state : (Nat × Hash32) × Bytes) (level : Nat) :
    Option ((Nat × Hash32) × Bytes) := do
  let climbed ← climbLevel S uncommitted frontier state.1 level
  return (climbed, state.2 ++ climbed.2.bytes)

/-- What the loop over the leaves carries. -/
structure InsertState where
  frontier : List Hash32
  nodeIndex : Nat
  node : Hash32
  payload : Bytes

/-- One turn of the loop over the leaves, at a leaf and its index. -/
def insertLeaf (uncommitted : List Hash32) (slots : List Nat) (leafCount : Nat)
    (state : InsertState) (step : Hash32 × Nat) : Option InsertState := do
  let (leaf, i) := step
  let slot ← slots[i]?
  if slot ≥ 256 then none
  let payload := state.payload ++ slotWord (UInt8.ofNat slot)
  let nodeIndex := leafCount + i + (treeWidth - 1)
  if slot = 0 then
    return { frontier := state.frontier.set 0 leaf, nodeIndex, node := leaf, payload }
  else
    let ((nodeIndex, node), payload) ← (List.range' 1 slot).foldlM
      (climbSlot S uncommitted state.frontier) ((nodeIndex, leaf), payload)
    return { frontier := state.frontier.set slot node, nodeIndex, node, payload }

/-- `insert_leaves`.  The sums of 64 bits do not overflow for leaves that fit. -/
def insertLeaves (frontierBytes : Bytes) (leafCount : Nat) (leaves : List Hash32) :
    Option ShieldedOutput := do
  if !frontierFits frontierBytes leafCount leaves.length then none
  -- `chunks_exact(32).map(array32)`
  let (frontier, _) ← takeWords 33 frontierBytes
  let uncommitted ← uncommittedNodes S
  let slots ← (List.range leaves.length).mapM fun i => frontierSlot (leafCount + i)
  let cap := 32 + (slots.map fun slot => (slot + 1) * 32).sum
  if cap ≥ 2 ^ 64 then none
  let state ← leaves.zipIdx.foldlM (insertLeaf S uncommitted slots leafCount)
    { frontier, nodeIndex := 0, node := Hash32.zero, payload := [] }
  let last ← slots.getLast?
  let (_, root) ← (List.range' (last + 1) (32 - last)).foldlM
    (climbLevel S uncommitted state.frontier) (state.nodeIndex, state.node)
  return { success := true, output := slotWord 1 ++ (state.payload ++ root.bytes) }

/-! ### What the contract keeps -/

/-- The slot and the nodes of each leaf, as the contract reads them. -/
def readInsertions : Nat → Bytes → Option (List (Nat × List Hash32) × Bytes)
  | 0, bytes => some ([], bytes)
  | count + 1, bytes => do
    let (word, bytes) ← takeWord bytes
    let slot := word.bytes.foldl (fun n b => n * 256 + b.toNat) 0
    let (nodes, bytes) ← takeWords slot bytes
    let (insertions, bytes) ← readInsertions count bytes
    return ((slot, nodes) :: insertions, bytes)

/-- The insertions and the root in an output. -/
def readOutput (count : Nat) (out : ShieldedOutput) :
    Option (List (Nat × List Hash32) × Hash32) := do
  let (_, bytes) ← takeWord out.output
  let (insertions, bytes) ← readInsertions count bytes
  let (root, bytes) ← takeWord bytes
  if bytes = [] then some (insertions, root) else none

/-- The last node of a leaf, or the leaf itself, goes into its slot. -/
def store (frontier : List Hash32) (step : Hash32 × Nat × List Hash32) : List Hash32 :=
  frontier.set step.2.1 (step.2.2.getLastD step.1)

/-- The frontier after an output. -/
def storeAll (frontier leaves : List Hash32) (insertions : List (Nat × List Hash32)) :
    List Hash32 := (leaves.zip insertions).foldl store frontier

/-- The frontier was produced from the leaves by insertions. -/
inductive Produced : List Hash32 → List Hash32 → Prop
  | start (frontier) : frontier.length = 33 → Produced [] frontier
  | insert {l frontier leaves out insertions root} : Produced l frontier → leaves ≠ [] →
    l.length + leaves.length ≤ treeWidth →
    insertLeaves S (wordBytes frontier) l.length leaves = some out →
    readOutput leaves.length out = some (insertions, root) →
    Produced (l ++ leaves) (storeAll frontier leaves insertions)

/-- One insertion of several: the frontier, the number of leaves and the root. -/
def insertBatch (state : List Hash32 × Nat × Option Hash32) (leaves : List Hash32) :
    Option (List Hash32 × Nat × Option Hash32) := do
  let (frontier, count, _) := state
  let out ← insertLeaves S (wordBytes frontier) count leaves
  let (insertions, root) ← readOutput leaves.length out
  return (storeAll frontier leaves insertions, count + leaves.length, some root)

/-! ### Words and slots -/

variable {S}

@[simp] theorem takeWord_append (word : Hash32) (bytes : Bytes) :
    takeWord (word.bytes ++ bytes) = some (word, bytes) := by
  have hl := word.length_eq
  have ht : (word.bytes ++ bytes).take 32 = word.bytes := List.take_left' hl
  have hd : (word.bytes ++ bytes).drop 32 = bytes := List.drop_left' hl
  rw [takeWord, dif_pos (by rw [List.length_append]; omega)]
  simp only [ht, hd]

theorem takeWords_append (words : List Hash32) (bytes : Bytes) :
    takeWords words.length (wordBytes words ++ bytes) = some (words, bytes) := by
  induction words with
  | nil => rfl
  | cons word words ih =>
    rw [List.length_cons, takeWords, wordBytes, List.flatMap_cons, List.append_assoc,
      takeWord_append]
    simp only [Option.bind_eq_bind, Option.bind_some]
    rw [← wordBytes, ih]
    rfl

theorem length_wordBytes (words : List Hash32) : (wordBytes words).length = words.length * 32 := by
  induction words with
  | nil => rfl
  | cons word words ih =>
    rw [wordBytes, List.flatMap_cons, List.length_append, word.length_eq, ← wordBytes, ih,
      List.length_cons]
    omega

/-- The slot of a leaf: the level of the left sibling that it completes. -/
def slotOf (index : Nat) : Nat := trailingZeros (index + 1)

theorem trailingZeros_eq {d : Nat} (hd : d < 64) (i : Nat) :
    trailingZeros ((2 * i + 1) * 2 ^ d) = d := by
  have hf : (List.range 64).find? (fun k => ((2 * i + 1) * 2 ^ d).testBit k) = some d := by
    rw [List.find?_range_eq_some]
    refine ⟨?_, List.mem_range.mpr hd, fun k hk => ?_⟩
    · rw [Nat.mul_comm, Nat.testBit_two_pow_mul, Nat.sub_self, Nat.testBit_zero]
      simp
    · rw [Nat.mul_comm, Nat.testBit_two_pow_mul, decide_eq_false (Nat.not_le.mpr hk)]
      rfl
  rw [trailingZeros, hf]
  rfl

/-- A leaf completes a left sibling at the level of its slot. -/
theorem slotOf_spec {index : Nat} (h : index < treeWidth) :
    slotOf index ≤ 32 ∧ ∃ i, index + 1 = (2 * i + 1) * 2 ^ slotOf index := by
  obtain ⟨d, m, ⟨i, rfl⟩, hm⟩ := Nat.exists_eq_two_pow_mul_odd (Nat.succ_ne_zero index)
  rw [Nat.succ_eq_add_one, Nat.mul_comm] at hm
  have hd : d ≤ 32 := by
    refine (Nat.pow_le_pow_iff_right (by decide : 1 < 2)).mp ?_
    have hp : 2 ^ d ≤ (2 * i + 1) * 2 ^ d := Nat.le_mul_of_pos_left _ (Nat.succ_pos _)
    rw [treeWidth] at h
    omega
  rw [slotOf, hm, trailingZeros_eq (by omega)]
  exact ⟨hd, i, rfl⟩

/-- The slot of a leaf that fits. -/
theorem frontierSlot_eq {index : Nat} (h : index < treeWidth) :
    frontierSlot index = some (slotOf index) := by
  rw [frontierSlot, if_neg (Nat.not_le.mpr h), Nat.and_one_is_mod]
  split
  next he =>
    -- the first leaf of a pair is complete by itself
    have hs : index + 1 = (2 * (index / 2) + 1) * 2 ^ 0 := by omega
    rw [slotOf, hs, trailingZeros_eq (by decide)]
  · rfl

theorem uncommittedNodes_eq : uncommittedNodes S = some ((List.range 32).map S.empty) := by
  have hlo : ∀ count ≤ 31, (List.range count).foldlM (fun uncommitted level => do
      let node ← uncommitted[level]?
      let parent ← (merkleHash S level node node).toOption
      return uncommitted ++ [parent]) [S.uncommitted] =
        some ((List.range (count + 1)).map S.empty) := by
    intro count
    induction count with
    | zero => exact fun _ => rfl
    | succ count ih =>
      intro hc
      have hl : ((List.range (count + 1)).map S.empty)[count]? = some (S.empty count) := by
        rw [List.getElem?_map, List.getElem?_range (Nat.lt_succ_self _)]
        rfl
      rw [List.range_succ, List.foldlM_append, ih (by omega)]
      simp only [Option.bind_eq_bind, Option.bind_some, List.foldlM_cons, List.foldlM_nil, hl,
        merkleHash_eq (S := S) (show count < 63 by omega), Except.toOption]
      rw [List.range_succ (n := count + 1), List.map_append]
      rfl
  exact hlo 31 (le_refl _)

/-! ### The way up from a leaf -/

section Climb

variable {l frontier : List Hash32} {leaf : Hash32} {d : Nat}

/-- The number of the node over the last leaf at a level. -/
def numberOver (index d : Nat) : Nat := index / 2 ^ d + (2 ^ (32 - d) - 1)

/-- One turn computes the next node over the last leaf. -/
theorem climbLevel_eq (h : Merkle.IsFrontier S.hash S.empty 32 l frontier ∨
    Merkle.IsFrontier S.hash S.empty 32 (l ++ [leaf]) frontier) (hd : d < 32) :
    climbLevel S ((List.range 32).map S.empty) frontier
      (numberOver l.length d, S.node (l ++ [leaf]) d (l.length / 2 ^ d)) (d + 1) =
      some (numberOver l.length (d + 1),
        S.node (l ++ [leaf]) (d + 1) (l.length / 2 ^ (d + 1))) := by
  obtain ⟨he, ho⟩ := Merkle.node_over_last h hd
  have hp : l.length / 2 ^ (d + 1) = l.length / 2 ^ d / 2 := by
    rw [pow_succ, Nat.div_div_eq_div_mul]
  have hw : 2 ^ (32 - d) = 2 * 2 ^ (32 - (d + 1)) := by
    rw [← pow_succ']
    congr 1
    omega
  have hpo := Nat.two_pow_pos (32 - (d + 1))
  have hem : ((List.range 32).map S.empty)[d]? = some (S.empty d) := by
    rw [List.getElem?_map, List.getElem?_range hd]
    rfl
  have hh : ∀ a b, (merkleHash S d a b).toOption = some (S.hash d a b) := fun a b => by
    rw [merkleHash_eq (by omega)]
    rfl
  simp only [climbLevel, numberOver, hw, hp, Nat.add_sub_cancel, Nat.and_one_is_mod]
  rw [hp] at he ho
  generalize l.length / 2 ^ d = q at *
  rcases Nat.mod_two_eq_zero_or_one q with hq | hq
  · rw [if_neg (by omega), hem]
    simp only [Option.bind_eq_bind, Option.bind_some, hh]
    simp only [Sapling.node, he hq]
    rw [show (q + (2 * 2 ^ (32 - (d + 1)) - 1)) / 2 =
      q / 2 + (2 ^ (32 - (d + 1)) - 1) by omega]
    rfl
  · obtain ⟨left, hl, hn⟩ := ho hq
    rw [if_pos (by omega), hl]
    simp only [Option.bind_eq_bind, Option.bind_some, hh]
    simp only [Sapling.node, hn]
    rw [show (q + (2 * 2 ^ (32 - (d + 1)) - 1) - 1) / 2 =
      q / 2 + (2 ^ (32 - (d + 1)) - 1) by omega]
    rfl

/-- The way up computes the nodes over the last leaf. -/
theorem climbLevel_foldlM (h : Merkle.IsFrontier S.hash S.empty 32 l frontier ∨
    Merkle.IsFrontier S.hash S.empty 32 (l ++ [leaf]) frontier) (count : Nat)
    (hc : d + count ≤ 32) :
    (List.range' (d + 1) count).foldlM
      (climbLevel S ((List.range 32).map S.empty) frontier)
      (numberOver l.length d, S.node (l ++ [leaf]) d (l.length / 2 ^ d)) =
      some (numberOver l.length (d + count),
        S.node (l ++ [leaf]) (d + count) (l.length / 2 ^ (d + count))) := by
  induction count generalizing d with
  | zero => rfl
  | succ count ih =>
    rw [List.range'_succ, List.foldlM_cons, climbLevel_eq h (by omega)]
    simp only [Option.bind_eq_bind, Option.bind_some]
    rw [ih (by omega), Nat.add_assoc, Nat.add_comm 1 count]

/-- The nodes over the last leaf from a level on. -/
def nodesOver (S : Sapling) (l : List Hash32) (leaf : Hash32) (d count : Nat) : List Hash32 :=
  (List.range' (d + 1) count).map fun level =>
    S.node (l ++ [leaf]) level (l.length / 2 ^ level)

/-- The way up to the slot puts them into the payload. -/
theorem climbSlot_foldlM (h : Merkle.IsFrontier S.hash S.empty 32 l frontier) (leaf : Hash32)
    (d count : Nat) (hc : d + count ≤ 32) (payload : Bytes) :
    (List.range' (d + 1) count).foldlM
      (climbSlot S ((List.range 32).map S.empty) frontier)
      ((numberOver l.length d, S.node (l ++ [leaf]) d (l.length / 2 ^ d)), payload) =
      some ((numberOver l.length (d + count),
        S.node (l ++ [leaf]) (d + count) (l.length / 2 ^ (d + count))),
        payload ++ wordBytes (nodesOver S l leaf d count)) := by
  induction count generalizing d payload with
  | zero =>
    rw [nodesOver, List.range'_zero, List.map_nil, wordBytes, List.flatMap_nil, List.append_nil]
    rfl
  | succ count ih =>
    rw [List.range'_succ, List.foldlM_cons, climbSlot, climbLevel_eq (.inl h) (by omega)]
    simp only [Option.bind_eq_bind, Option.bind_some, Option.pure_def]
    rw [ih _ (by omega), nodesOver, nodesOver, List.range'_succ, List.map_cons, wordBytes,
      wordBytes, List.flatMap_cons, List.append_assoc, Nat.add_assoc d 1 count,
      Nat.add_comm 1 count]

end Climb

/-! ### The insertion of each leaf -/

/-- The slot of the next leaf and the nodes up to it. -/
def insertionOf (S : Sapling) (l : List Hash32) (leaf : Hash32) : Nat × List Hash32 :=
  (slotOf l.length, nodesOver S l leaf 0 (slotOf l.length))

/-- The insertions of leaves, one after another. -/
def insertionsOf (S : Sapling) (l : List Hash32) : List Hash32 → List (Nat × List Hash32)
  | [] => []
  | leaf :: leaves => insertionOf S l leaf :: insertionsOf S (l ++ [leaf]) leaves

/-- The bytes of an insertion. -/
def insertionBytes (insertion : Nat × List Hash32) : Bytes :=
  slotWord (UInt8.ofNat insertion.1) ++ wordBytes insertion.2

section Insertion

variable {l leaves frontier : List Hash32} {leaf : Hash32}

/-- What goes into the slot of a leaf is the node it completes. -/
theorem getLastD_nodesOver (l : List Hash32) (leaf : Hash32) (count : Nat) :
    (nodesOver S l leaf 0 count).getLastD leaf =
      S.node (l ++ [leaf]) count (l.length / 2 ^ count) := by
  cases count with
  | zero =>
    rw [Nat.pow_zero, Nat.div_one, Sapling.node, Merkle.node_zero (by simp)]
    simp [nodesOver]
  | succ count =>
    rw [nodesOver, List.range'_concat, List.map_append, List.map_singleton, List.getLastD_concat]
    simp [Nat.add_comm]

/-- The frontier with the next leaf. -/
theorem store_isFrontier (h : Merkle.IsFrontier S.hash S.empty 32 l frontier)
    (hl : frontier.length = 33) (hf : l.length < treeWidth) :
    Merkle.IsFrontier S.hash S.empty 32 (l ++ [leaf])
      (store frontier (leaf, insertionOf S l leaf)) := by
  obtain ⟨hs, i, hi⟩ := slotOf_spec hf
  have hin : l.length / 2 ^ slotOf l.length = 2 * i := by
    refine Nat.div_eq_of_lt_le ?_ ?_
    · have := Nat.two_pow_pos (slotOf l.length)
      rw [Nat.add_mul, Nat.one_mul] at hi
      omega
    · omega
  have hd : slotOf l.length < frontier.length := by omega
  rw [store, insertionOf, getLastD_nodesOver, hin]
  exact h.concat hd hi

/-- One turn of the loop over the leaves. -/
theorem insertLeaf_eq {slots : List Nat} {leafCount i : Nat} {state : InsertState}
    (h : Merkle.IsFrontier S.hash S.empty 32 l state.frontier)
    (hf : l.length < treeWidth) (hco : l.length = leafCount + i)
    (hs : slots[i]? = some (slotOf l.length)) :
    insertLeaf S ((List.range 32).map S.empty) slots leafCount state (leaf, i) = some
      { frontier := store state.frontier (leaf, insertionOf S l leaf)
        nodeIndex := numberOver l.length (slotOf l.length)
        node := S.node (l ++ [leaf]) (slotOf l.length) (l.length / 2 ^ slotOf l.length)
        payload := state.payload ++ insertionBytes (insertionOf S l leaf) } := by
  obtain ⟨hle, -⟩ := slotOf_spec hf
  have hl : S.node (l ++ [leaf]) 0 (l.length / 2 ^ 0) = leaf := by
    rw [Nat.pow_zero, Nat.div_one, Sapling.node, Merkle.node_zero (by simp)]
    simp
  have hn : leafCount + i + (treeWidth - 1) = numberOver l.length 0 := by
    rw [numberOver, Nat.pow_zero, Nat.div_one, hco]
    rfl
  simp only [insertLeaf, hs, Option.bind_eq_bind, Option.bind_some, hn]
  rw [if_neg (by omega), store, insertionOf, getLastD_nodesOver, insertionBytes]
  by_cases hz : slotOf l.length = 0
  · rw [if_pos hz, hz, hl]
    simp only [nodesOver, List.range'_zero, List.map_nil, wordBytes, List.flatMap_nil,
      List.append_nil]
    rfl
  · have hc := climbSlot_foldlM h leaf 0 (slotOf l.length) (by omega)
      (state.payload ++ slotWord (UInt8.ofNat (slotOf l.length)))
    rw [Nat.zero_add, hl] at hc
    rw [if_neg hz, hc, List.append_assoc, Nat.zero_add]
    rfl

/-- The loop over the leaves. -/
theorem insertLeaf_foldlM {slots : List Nat} {leafCount k : Nat} (state : InsertState)
    (h : Merkle.IsFrontier S.hash S.empty 32 l state.frontier)
    (hl : state.frontier.length = 33) (hfi : l.length + leaves.length ≤ treeWidth)
    (hc : l.length = leafCount + k)
    (hs : ∀ i < leaves.length, slots[k + i]? = some (slotOf (l.length + i))) :
    ∃ state', (leaves.zipIdx k).foldlM
        (insertLeaf S ((List.range 32).map S.empty) slots leafCount) state = some state' ∧
      state'.frontier = storeAll state.frontier leaves (insertionsOf S l leaves) ∧
      state'.payload = state.payload ++ (insertionsOf S l leaves).flatMap insertionBytes ∧
      Merkle.IsFrontier S.hash S.empty 32 (l ++ leaves) state'.frontier ∧
      ∀ rest leaf, leaves = rest ++ [leaf] →
        state'.nodeIndex = numberOver (l ++ rest).length (slotOf (l ++ rest).length) ∧
        state'.node = S.node (l ++ rest ++ [leaf]) (slotOf (l ++ rest).length)
          ((l ++ rest).length / 2 ^ slotOf (l ++ rest).length) := by
  induction leaves generalizing l k state with
  | nil =>
    refine ⟨state, rfl, rfl, (List.append_nil _).symm, by rwa [List.append_nil], ?_⟩
    intro rest leaf hni
    simp at hni
  | cons leaf leaves ih =>
    rw [List.length_cons] at hfi
    have hsl : slots[k]? = some (slotOf l.length) := hs 0 (Nat.succ_pos _)
    have hn : (l ++ [leaf]).length = l.length + 1 := List.length_append
    let next : InsertState :=
      { frontier := store state.frontier (leaf, insertionOf S l leaf)
        nodeIndex := numberOver l.length (slotOf l.length)
        node := S.node (l ++ [leaf]) (slotOf l.length) (l.length / 2 ^ slotOf l.length)
        payload := state.payload ++ insertionBytes (insertionOf S l leaf) }
    have hf' : Merkle.IsFrontier S.hash S.empty 32 (l ++ [leaf]) next.frontier :=
      store_isFrontier h hl (by omega)
    obtain ⟨state', hlo, hf, hp, ha, hla⟩ := ih next hf'
      (by simpa [next, store] using hl) (by omega)
      (show (l ++ [leaf]).length = leafCount + (k + 1) by omega) (fun i hi => by
        have hat := hs (i + 1) (by rw [List.length_cons]; omega)
        rwa [hn, Nat.add_assoc, Nat.add_comm 1 i, Nat.add_assoc, Nat.add_comm 1 i])
    refine ⟨state', ?_, hf, ?_, by rwa [List.append_assoc] at ha, ?_⟩
    · rw [List.zipIdx_cons, List.foldlM_cons, insertLeaf_eq h (by omega) hc hsl]
      exact hlo
    · rw [hp, insertionsOf, List.flatMap_cons, List.append_assoc]
    · intro rest leaf' hsp
      cases rest with
      | nil =>
        obtain ⟨rfl, rfl⟩ := List.cons_eq_cons.mp hsp
        cases hlo
        rw [List.append_nil]
        exact ⟨rfl, rfl⟩
      | cons first rest =>
        obtain ⟨rfl, hr⟩ := List.cons_eq_cons.mp hsp
        have := hla rest leaf' hr
        rwa [List.append_assoc l, List.singleton_append] at this

theorem slots_eq {leafCount count : Nat} (h : leafCount + count ≤ treeWidth) :
    ((List.range count).mapM fun i => frontierSlot (leafCount + i)) =
      some ((List.range count).map fun i => slotOf (leafCount + i)) := by
  induction count with
  | zero => rfl
  | succ count ih =>
    rw [List.range_succ, List.mapM_append, ih (by omega), List.map_append]
    simp only [List.mapM_cons, List.mapM_nil, frontierSlot_eq (show leafCount + count < treeWidth by
      omega)]
    rfl

/-- The capacity of the payload is a number of 64 bits. -/
theorem cap_lt {leafCount count : Nat} (h : leafCount + count ≤ treeWidth) :
    32 + (((List.range count).map fun i => slotOf (leafCount + i)).map
      fun slot => (slot + 1) * 32).sum < 2 ^ 64 := by
  have hsu := List.sum_le_card_nsmul (((List.range count).map fun i => slotOf (leafCount + i)).map
    fun slot => (slot + 1) * 32) (33 * 32) (by
      intro x hx
      obtain ⟨slot, hs, rfl⟩ := List.mem_map.mp hx
      obtain ⟨i, hi, rfl⟩ := List.mem_map.mp hs
      have hi := List.mem_range.mp hi
      obtain ⟨hle, -⟩ := slotOf_spec (show leafCount + i < treeWidth by omega)
      omega)
  rw [List.length_map, List.length_map, List.length_range, smul_eq_mul] at hsu
  rw [treeWidth] at h
  omega

/-- The result of an insertion. -/
theorem insertLeaves_eq (h : Merkle.IsFrontier S.hash S.empty 32 l frontier)
    (hl : frontier.length = 33) (hne : leaves ≠ [])
    (hf : l.length + leaves.length ≤ treeWidth) :
    insertLeaves S (wordBytes frontier) l.length leaves = some
      { success := true
        output := slotWord 1 ++ ((insertionsOf S l leaves).flatMap insertionBytes ++
          (S.node (l ++ leaves) 32 0).bytes) } ∧
    Merkle.IsFrontier S.hash S.empty 32 (l ++ leaves)
      (storeAll frontier leaves (insertionsOf S l leaves)) := by
  obtain ⟨rest, leaf, rfl⟩ : ∃ rest leaf, leaves = rest ++ [leaf] :=
    ⟨_, _, (List.dropLast_concat_getLast hne).symm⟩
  have hco : (rest ++ [leaf]).length = rest.length + 1 := List.length_append
  have hb : frontierFits (wordBytes frontier) l.length (rest ++ [leaf]).length = true := by
    rw [frontierFits, length_wordBytes, hl, decide_eq_true hf, hco]
    rfl
  have hw : takeWords 33 (wordBytes frontier) = some (frontier, []) := by
    have := takeWords_append frontier []
    rwa [List.append_nil, hl] at this
  obtain ⟨state', hlo, hfr, hp, ha, hla⟩ :=
    insertLeaf_foldlM (k := 0) ⟨frontier, 0, Hash32.zero, []⟩ h hl hf rfl (fun i hi => by
      rw [Nat.zero_add, List.getElem?_map, List.getElem?_range hi]
      rfl)
  obtain ⟨hin, hn⟩ := hla rest leaf rfl
  have hs := slots_eq hf
  have hls : ((List.range (rest ++ [leaf]).length).map
      fun i => slotOf (l.length + i)).getLast? = some (slotOf (l ++ rest).length) := by
    rw [hco, List.range_succ, List.map_append, List.map_singleton, List.getLast?_concat,
      List.length_append]
  obtain ⟨hle, -⟩ := slotOf_spec (show (l ++ rest).length < treeWidth by
    rw [List.length_append]
    omega)
  rw [← List.append_assoc] at ha
  have hc := climbLevel_foldlM (d := slotOf (l ++ rest).length) (.inr ha)
    (32 - slotOf (l ++ rest).length) (by omega)
  have hr : (l ++ rest).length / 2 ^ 32 = 0 := Nat.div_eq_of_lt (by
    rw [treeWidth] at hf
    rw [List.length_append]
    omega)
  rw [Nat.add_sub_cancel' hle, hr] at hc
  refine ⟨?_, by rwa [← hfr, ← List.append_assoc]⟩
  rw [insertLeaves]
  simp only [hb, Bool.not_true, Bool.false_eq_true, if_false, hw, Option.bind_eq_bind,
    Option.bind_some, uncommittedNodes_eq, hs, if_neg (Nat.not_le.mpr (cap_lt hf)), hlo,
    hls, hin, hn, hc, hp, List.nil_append, ← List.append_assoc]
  rfl

end Insertion

/-! ### An insertion appends to the tree -/

section Append

variable {l leaves frontier : List Hash32}

/-- What is written for leaves is read back. -/
theorem readInsertions_eq (hf : l.length + leaves.length ≤ treeWidth) (bytes : Bytes) :
    readInsertions leaves.length ((insertionsOf S l leaves).flatMap insertionBytes ++ bytes) =
      some (insertionsOf S l leaves, bytes) := by
  induction leaves generalizing l with
  | nil => rfl
  | cons leaf leaves ih =>
    rw [List.length_cons] at hf
    obtain ⟨hle, -⟩ := slotOf_spec (show l.length < treeWidth by omega)
    set slot := slotOf l.length with hs
    let word : Hash32 := ⟨slotWord (UInt8.ofNat slot), rfl⟩
    have hn : word.bytes.foldl (fun n b => n * 256 + b.toNat) 0 = slot := by
      show 0 * 256 + (UInt8.ofNat slot).toNat = slot
      rw [UInt8.toNat_ofNat']
      omega
    have hno : (nodesOver S l leaf 0 slot).length = slot := by
      rw [nodesOver, List.length_map, List.length_range']
    have hw : ∀ rest, takeWord (slotWord (UInt8.ofNat slot) ++ rest) = some (word, rest) :=
      takeWord_append word
    have ht : ∀ rest, takeWords slot (wordBytes (nodesOver S l leaf 0 slot) ++ rest) =
        some (nodesOver S l leaf 0 slot, rest) := fun rest => by
      have := takeWords_append (nodesOver S l leaf 0 slot) rest
      rwa [hno] at this
    have hr := ih (l := l ++ [leaf]) (by
      rw [List.length_append, List.length_singleton]
      omega)
    rw [List.length_cons, readInsertions, insertionsOf, List.flatMap_cons, insertionBytes,
      insertionOf, ← hs, List.append_assoc, List.append_assoc]
    simp only [hw, hn, ht, hr, Option.bind_eq_bind, Option.bind_some]
    rfl

theorem readOutput_eq (hf : l.length + leaves.length ≤ treeWidth) (root : Hash32) :
    readOutput leaves.length
      { success := true
        output := slotWord 1 ++ ((insertionsOf S l leaves).flatMap insertionBytes ++ root.bytes) } =
      some (insertionsOf S l leaves, root) := by
  have hw : ∀ rest, takeWord (slotWord 1 ++ rest) = some (⟨slotWord 1, rfl⟩, rest) :=
    takeWord_append ⟨slotWord 1, rfl⟩
  have hr : takeWord root.bytes = some (root, []) := by
    have := takeWord_append root []
    rwa [List.append_nil] at this
  simp only [readOutput, hw, readInsertions_eq hf, hr, Option.bind_eq_bind,
    Option.bind_some, if_true]

theorem insertionsOf_append (l leaves later : List Hash32) :
    insertionsOf S l (leaves ++ later) =
      insertionsOf S l leaves ++ insertionsOf S (l ++ leaves) later := by
  induction leaves generalizing l with
  | nil => rw [List.append_nil]; rfl
  | cons leaf leaves ih =>
    rw [List.cons_append, insertionsOf, ih, insertionsOf, List.append_assoc]
    rfl

theorem length_insertionsOf (l leaves : List Hash32) :
    (insertionsOf S l leaves).length = leaves.length := by
  induction leaves generalizing l with
  | nil => rfl
  | cons leaf leaves ih => rw [insertionsOf, List.length_cons, ih, List.length_cons]

theorem length_storeAll (frontier leaves : List Hash32) (insertions : List (Nat × List Hash32)) :
    (storeAll frontier leaves insertions).length = frontier.length := by
  rw [storeAll]
  generalize leaves.zip insertions = steps
  induction steps generalizing frontier with
  | nil => rfl
  | cons step steps ih => rw [List.foldl_cons, ih, store, List.length_set]

/-- The frontier after leaves and the leaves after them. -/
theorem storeAll_append (l leaves later frontier : List Hash32) :
    storeAll frontier (leaves ++ later) (insertionsOf S l (leaves ++ later)) =
      storeAll (storeAll frontier leaves (insertionsOf S l leaves)) later
        (insertionsOf S (l ++ leaves) later) := by
  rw [storeAll, insertionsOf_append, List.zip_append (length_insertionsOf _ _).symm,
    List.foldl_append]
  rfl

/-- A frontier that was produced from leaves is the frontier of the tree over them. -/
theorem Produced.isFrontier (h : Produced S l frontier) :
    frontier.length = 33 ∧ Merkle.IsFrontier S.hash S.empty 32 l frontier := by
  induction h with
  | start frontier hl => exact ⟨hl, Merkle.isFrontier_nil⟩
  | insert _ hne hfi ho hr ih =>
    obtain ⟨hi, hf⟩ := insertLeaves_eq ih.2 ih.1 hne hfi
    rw [hi, Option.some_inj] at ho
    rw [← ho, readOutput_eq hfi, Option.some_inj, Prod.mk.injEq] at hr
    rw [← hr.1, length_storeAll]
    exact ⟨ih.1, hf⟩

/-- One insertion of several. -/
theorem insertBatch_eq (h : Merkle.IsFrontier S.hash S.empty 32 l frontier)
    (hl : frontier.length = 33) (hne : leaves ≠ [])
    (hf : l.length + leaves.length ≤ treeWidth) (root : Option Hash32) :
    insertBatch S (frontier, l.length, root) leaves =
      some (storeAll frontier leaves (insertionsOf S l leaves), (l ++ leaves).length,
        some (S.node (l ++ leaves) 32 0)) := by
  obtain ⟨hi, -⟩ := insertLeaves_eq h hl hne hf
  simp only [insertBatch, hi, readOutput_eq hf, Option.bind_eq_bind, Option.bind_some]
  rw [List.length_append]
  rfl

/-- Leaves inserted in several calls. -/
theorem insertBatch_foldlM {batches : List (List Hash32)} (hb : ∀ batch ∈ batches, batch ≠ [])
    (hs : batches ≠ []) (h : Merkle.IsFrontier S.hash S.empty 32 l frontier)
    (hl : frontier.length = 33)
    (hfi : l.length + batches.flatten.length ≤ treeWidth) (root : Option Hash32) :
    batches.foldlM (insertBatch S) (frontier, l.length, root) =
      some (storeAll frontier batches.flatten (insertionsOf S l batches.flatten),
        (l ++ batches.flatten).length, some (S.node (l ++ batches.flatten) 32 0)) := by
  induction batches generalizing l frontier root with
  | nil => exact absurd rfl hs
  | cons batch batches ih =>
    rw [List.forall_mem_cons] at hb
    rw [List.flatten_cons, List.length_append] at hfi
    rw [List.foldlM_cons, insertBatch_eq h hl hb.1 (by omega)]
    simp only [Option.bind_eq_bind, Option.bind_some]
    rcases eq_or_ne batches [] with rfl | hne
    · rw [List.flatten_cons, List.flatten_nil, List.append_nil]
      rfl
    · obtain ⟨-, hf⟩ := insertLeaves_eq h hl hb.1 (by omega)
      rw [ih hb.2 hne hf (by rw [length_storeAll, hl])
        (by rw [List.length_append]; omega), List.flatten_cons, storeAll_append,
        List.append_assoc]

/-- Leaves that are not there count as uncommitted leaves. -/
theorem node_padded (l : List Hash32) (count d i : Nat) :
    S.node (l ++ List.replicate count S.uncommitted) d i = S.node l d i := by
  induction d generalizing i with
  | zero =>
    simp only [Sapling.node, Merkle.node, List.getD_eq_getElem?_getD]
    rcases Nat.lt_or_ge i l.length with hlt | hge
    · rw [List.getElem?_append_left hlt]
    · rw [List.getElem?_append_right hge, List.getElem?_replicate, List.getElem?_eq_none hge]
      split <;> rfl
  | succ d ih =>
    have hp : S.hash d (S.node (l ++ List.replicate count S.uncommitted) d (2 * i))
        (S.node (l ++ List.replicate count S.uncommitted) d (2 * i + 1)) =
        S.hash d (S.node l d (2 * i)) (S.node l d (2 * i + 1)) := by rw [ih, ih]
    rcases Nat.lt_or_ge (i * 2 ^ (d + 1)) l.length with hlt | hge
    · rw [Sapling.node, Sapling.node, Merkle.node_succ hlt, Merkle.node_succ (by
        rw [List.length_append]
        omega)]
      exact hp
    · -- both children have no leaf of `l`
      have hl : S.node l d (2 * i) = S.empty d :=
        Merkle.node_of_le (by rwa [← Merkle.mul_two_pow_succ])
      have hr : S.node l d (2 * i + 1) = S.empty d :=
        Merkle.node_of_le (by
          rw [Merkle.succ_mul_two_pow]
          exact Nat.le_trans hge (Nat.le_add_right _ _))
      rw [hl, hr] at hp
      rw [Sapling.node, Sapling.node, Merkle.node_of_le hge, Merkle.node]
      split
      · rfl
      · exact hp

/-- An insertion appends to the tree: it succeeds, its root is that of the tree of depth 32 over
all leaves and uncommitted leaves after them, its slots and nodes make the frontier that of all
leaves, and more calls for the same leaves end in the same root and frontier. -/
theorem insertLeaves_append (h : Produced S l frontier) (hne : leaves ≠ [])
    (hfits : l.length + leaves.length ≤ treeWidth) :
    ∃ out insertions root,
      insertLeaves S (wordBytes frontier) l.length leaves = some out ∧ out.success = true ∧
      readOutput leaves.length out = some (insertions, root) ∧
      root = S.node (l ++ leaves ++ List.replicate (treeWidth - (l ++ leaves).length)
        S.uncommitted) 32 0 ∧
      Merkle.IsFrontier S.hash S.empty 32 (l ++ leaves) (storeAll frontier leaves insertions) ∧
      Produced S (l ++ leaves) (storeAll frontier leaves insertions) ∧
      ∀ batches : List (List Hash32), batches.flatten = leaves →
        (∀ batch ∈ batches, batch ≠ []) →
        batches.foldlM (insertBatch S) (frontier, l.length, none) =
          some (storeAll frontier leaves insertions, (l ++ leaves).length, some root) := by
  obtain ⟨hlength, hfrontier⟩ := h.isFrontier
  obtain ⟨hinsert, hfrontier'⟩ := insertLeaves_eq hfrontier hlength hne hfits
  have hread := readOutput_eq (S := S) hfits (S.node (l ++ leaves) 32 0)
  refine ⟨_, _, _, hinsert, rfl, hread, (node_padded _ _ _ _).symm, hfrontier',
    h.insert hne hfits hinsert hread, ?_⟩
  rintro batches rfl hbatches
  have hsome : batches ≠ [] := by
    rintro rfl
    exact hne rfl
  exact insertBatch_foldlM hbatches hsome hfrontier hlength hfits none

/-- The frontier of three absent leaves. -/
def sampleFrontier : List Hash32 :=
  let leaves := List.replicate 3 sampleSapling.uncommitted
  storeAll (List.replicate 33 Hash32.zero) leaves (insertionsOf sampleSapling [] leaves)

/-- The next two leaves: the first is hashed with the third leaf, and their node with the one over
the first two. -/
theorem sampleInsertion_append :
    Produced sampleSapling (List.replicate 3 sampleSapling.uncommitted) sampleFrontier ∧
    sampleFrontier.take 2 = [emptyRootAt 0, emptyRootAt 1] ∧
    ∃ out insertions root,
      insertLeaves sampleSapling (wordBytes sampleFrontier) 3 [emptyRootAt 0, emptyRootAt 0] =
        some out ∧
      readOutput 2 out = some (insertions, root) ∧
      [[emptyRootAt 0], [emptyRootAt 0]].foldlM (insertBatch sampleSapling)
        (sampleFrontier, 3, none) =
        some (storeAll sampleFrontier [emptyRootAt 0, emptyRootAt 0] insertions, 5, some root) := by
  have hproduced : Produced sampleSapling (List.replicate 3 sampleSapling.uncommitted)
      sampleFrontier :=
    .insert (.start _ List.length_replicate) (by decide) (by decide)
      (insertLeaves_eq Merkle.isFrontier_nil List.length_replicate (by decide) (by decide)).1
      (readOutput_eq (by decide) _)
  obtain ⟨out, insertions, root, hout, -, hread, -, -, -, hsplit⟩ :=
    insertLeaves_append hproduced (List.cons_ne_nil (emptyRootAt 0) [emptyRootAt 0]) (by decide)
  exact ⟨hproduced, by decide +kernel, out, insertions, root, hout, hread,
    hsplit [[emptyRootAt 0], [emptyRootAt 0]] rfl (by decide)⟩

end Append

end RustTron.Tvm
