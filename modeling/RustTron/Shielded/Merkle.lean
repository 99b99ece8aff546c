import RustTron.Library.Merkle
import RustTron.Library.Results
import RustTron.Primitives.Bytes

/-!
# The trees of note commitments

The commitments of the shielded notes are the leaves of a tree.  A tree keeps all its leaves, and
so does a witness, which is taken for the last leaf of a tree and then follows the tree.  Both
compute roots and paths level by level.

The hash of the tree, its value for a leaf that is not there and the check of an encoded node are
those of the Sapling library.

## Main definitions

* `Sapling`: what the library computes
* `emptyRoot`, `rootFor`, `pathFor`: the root of an empty tree, the root and the paths of leaves
* `JavaMerklePath`, `IncrementalMerkleTree`, `IncrementalWitness`: paths, trees and witnesses

## Main results

* `emptyRoot_eq`, `rootFor_eq`, `pathFor_eq`: they are nodes of the tree over the leaves
* `JavaMerklePath.root_eq`: the root of a path climbs along its siblings
-/

namespace RustTron.Shielded

/-- `ShieldedError`: the variants the trees use. -/
inductive ShieldedError
  | invalidParameter (message : String)
  | invalidEncoding (name : String)
  | treeFull
  | emptyTree
  deriving DecidableEq

/-- The functions of the Sapling library under the trees: `merkle_hash`, the empty leaf, and
whether 32 bytes encode a node. -/
structure Sapling where
  hash : Nat → Hash32 → Hash32 → Hash32
  uncommitted : Hash32
  valid : Hash32 → Bool

variable (S : Sapling)

/-- `parse_node`, of 32 bytes. -/
def parseNode (bytes : Hash32) : Except ShieldedError Unit :=
  if S.valid bytes then .ok () else .error (.invalidEncoding "Merkle node")

def merkleHash (depth : Nat) (a b : Hash32) : Except ShieldedError Hash32 :=
  if depth ≥ 63 then .error (.invalidParameter "Merkle tree depth must be smaller than 63")
  else .ok (S.hash depth a b)

def emptyRoot (depth : Nat) : Except ShieldedError Hash32 :=
  if depth > 62 then .error (.invalidParameter "Merkle tree depth must be smaller than 63")
  else (List.range depth).foldlM (fun root level => merkleHash S level root root) S.uncommitted

/-- The hashes of the pairs of a level: `chunks_exact(2)`. -/
def hashPairs (d : Nat) : List Hash32 → Except ShieldedError (List Hash32)
  | a :: b :: rest => do
    let parent ← merkleHash S d a b
    let parents ← hashPairs d rest
    return parent :: parents
  | _ => .ok []

/-- One turn of the loops over the levels. -/
def levelUp (level : List Hash32) (d : Nat) : Except ShieldedError (List Hash32) := do
  if level.length % 2 = 1 then
    let filler ← emptyRoot S d
    hashPairs S d (level ++ [filler])
  else hashPairs S d level

/-- `root_for`.  The levels over leaves have nodes, so the last one has its first. -/
def rootFor (leaves : List Hash32) (depth : Nat) : Except ShieldedError Hash32 :=
  if leaves.isEmpty then emptyRoot S depth
  else do
    let level ← (List.range depth).foldlM (levelUp S) leaves
    return level.headD S.uncommitted

/-- `JavaMerklePath`: the siblings from the leaf up. -/
@[ext]
structure JavaMerklePath where
  siblings : List Hash32
  position : UInt64
  deriving DecidableEq

/-- One turn of the loop of `JavaMerklePath::root`, at a sibling and its depth. -/
def climbUp (position : UInt64) (root : Hash32) (step : Hash32 × Nat) :
    Except ShieldedError Hash32 :=
  if (position.toNat >>> step.2) &&& 1 = 0 then merkleHash S step.2 root step.1
  else merkleHash S step.2 step.1 root

def JavaMerklePath.root (path : JavaMerklePath) (leaf : Hash32) : Except ShieldedError Hash32 :=
  path.siblings.zipIdx.foldlM (climbUp S path.position) leaf

/-- The node of a level at an index, which is empty past its end. -/
def nodeAt (level : List Hash32) (d idx : Nat) : Except ShieldedError Hash32 :=
  match level[idx]? with
  | some node => .ok node
  | none => emptyRoot S d

/-- One turn of the loop of `path_for`: the siblings so far, the level, and the index in it. -/
def pathUp (state : List Hash32 × List Hash32 × Nat) (d : Nat) :
    Except ShieldedError (List Hash32 × List Hash32 × Nat) := do
  let (siblings, level, idx) := state
  let sibling ← nodeAt S level d (idx ^^^ 1)
  let level ← levelUp S level d
  return (siblings ++ [sibling], level, idx >>> 1)

def pathFor (leaves : List Hash32) (depth position : Nat) :
    Except ShieldedError JavaMerklePath := do
  if position ≥ leaves.length then throw .emptyTree
  let (siblings, _) ← (List.range depth).foldlM (pathUp S) ([], leaves, position)
  return { siblings, position := UInt64.ofNat position }

/-- `IncrementalMerkleTree`, as its functions leave it. -/
@[ext]
structure IncrementalMerkleTree where
  depth : Nat
  leaves : List Hash32
  depth_pos : 0 < depth
  depth_le : depth ≤ 32
  leaves_valid : ∀ leaf ∈ leaves, S.valid leaf = true
  length_le : leaves.length ≤ 2 ^ depth

namespace IncrementalMerkleTree

variable {S}

def new (depth : Nat) : Except ShieldedError (IncrementalMerkleTree S) :=
  if h : depth = 0 ∨ depth > 32 then
    .error (.invalidParameter "tree depth must be between 1 and 32")
  else .ok
    { depth
      leaves := []
      depth_pos := by omega
      depth_le := by omega
      leaves_valid := by simp
      length_le := Nat.zero_le _ }

def append (tree : IncrementalMerkleTree S) (node : Hash32) :
    Except ShieldedError (IncrementalMerkleTree S) :=
  if hvalid : S.valid node = true then
    if hfull : tree.leaves.length = 2 ^ tree.depth then .error .treeFull
    else .ok
      { tree with
        leaves := tree.leaves ++ [node]
        leaves_valid := by
          simp only [List.mem_append, List.mem_singleton]
          rintro leaf (hleaf | rfl)
          exacts [tree.leaves_valid leaf hleaf, hvalid]
        length_le := by
          have := tree.length_le
          rw [List.length_append, List.length_singleton]
          omega }
  else .error (.invalidEncoding "Merkle node")

def root (tree : IncrementalMerkleTree S) : Except ShieldedError Hash32 :=
  rootFor S tree.leaves tree.depth

end IncrementalMerkleTree

/-- `IncrementalWitness`, as its functions leave it. -/
structure IncrementalWitness where
  depth : Nat
  position : Nat
  leaves : List Hash32
  depth_le : depth ≤ 32
  position_lt : position < leaves.length
  leaves_valid : ∀ leaf ∈ leaves, S.valid leaf = true
  length_le : leaves.length ≤ 2 ^ depth

variable {S}

def IncrementalMerkleTree.witness (tree : IncrementalMerkleTree S) :
    Except ShieldedError (IncrementalWitness S) :=
  if h : tree.leaves = [] then
    .error (.invalidParameter
      "can't create an authentication path for the beginning of the tree")
  else .ok
    { depth := tree.depth
      position := tree.leaves.length - 1
      leaves := tree.leaves
      depth_le := tree.depth_le
      position_lt := Nat.sub_lt (List.length_pos_iff.mpr h) Nat.one_pos
      leaves_valid := tree.leaves_valid
      length_le := tree.length_le }

namespace IncrementalWitness

def append (witness : IncrementalWitness S) (node : Hash32) :
    Except ShieldedError (IncrementalWitness S) :=
  if hfull : witness.leaves.length = 2 ^ witness.depth then .error .treeFull
  else if hvalid : S.valid node = true then .ok
    { witness with
      leaves := witness.leaves ++ [node]
      position_lt := by
        have := witness.position_lt
        rw [List.length_append, List.length_singleton]
        omega
      leaves_valid := by
        simp only [List.mem_append, List.mem_singleton]
        rintro leaf (hleaf | rfl)
        exacts [witness.leaves_valid leaf hleaf, hvalid]
      length_le := by
        have := witness.length_le
        rw [List.length_append, List.length_singleton]
        omega }
  else .error (.invalidEncoding "Merkle node")

def element (witness : IncrementalWitness S) : Hash32 :=
  witness.leaves.get ⟨witness.position, witness.position_lt⟩

def root (witness : IncrementalWitness S) : Except ShieldedError Hash32 :=
  rootFor S witness.leaves witness.depth

def path (witness : IncrementalWitness S) : Except ShieldedError JavaMerklePath :=
  pathFor S witness.leaves witness.depth witness.position

end IncrementalWitness

/-! ### The nodes they compute -/

/-- The root of an empty tree, level by level. -/
def Sapling.empty (S : Sapling) : Nat → Hash32
  | 0 => S.uncommitted
  | d + 1 => S.hash d (S.empty d) (S.empty d)

/-- The node of the tree over `l` at a level and an index. -/
def Sapling.node (S : Sapling) (l : List Hash32) (d i : Nat) : Hash32 :=
  Merkle.node S.hash S.empty l d i

/-- The siblings of the leaf at a position of the tree over `l`. -/
def Sapling.siblings (S : Sapling) (l : List Hash32) (position depth : Nat) : List Hash32 :=
  Merkle.siblings S.hash S.empty l position depth

theorem merkleHash_eq {d : Nat} (h : d < 63) (a b : Hash32) :
    merkleHash S d a b = .ok (S.hash d a b) := if_neg (not_le.mpr h)

theorem emptyRoot_eq {d : Nat} (h : d ≤ 62) : emptyRoot S d = .ok (S.empty d) := by
  rw [emptyRoot, if_neg (not_lt.mpr h)]
  induction d with
  | zero => rfl
  | succ d ih =>
    rw [List.range_succ, List.foldlM_append, ih (by omega), ok_bind, List.foldlM_cons,
      merkleHash_eq (by omega)]
    rfl

theorem hashPairs_eq {d : Nat} (h : d < 63) (level : List Hash32) :
    hashPairs S d level = .ok (Merkle.pairUp S.hash d level) := by
  fun_induction Merkle.pairUp S.hash d level with
  | case1 a b rest ih =>
    rw [hashPairs, merkleHash_eq h, ok_bind, ih]
    rfl
  | case2 level hl =>
    rw [hashPairs]
    exact hl

theorem levelUp_eq {d : Nat} (h : d ≤ 62) (level : List Hash32) :
    levelUp S level d = .ok (Merkle.up S.hash S.empty d level) := by
  rw [levelUp, Merkle.up, Merkle.pad, emptyRoot_eq h, ok_bind]
  split <;> exact hashPairs_eq (by omega) _

/-- The loop over the levels reaches the nodes of each level. -/
theorem foldlM_levelUp {depth : Nat} (h : depth ≤ 63) (l : List Hash32) :
    (List.range depth).foldlM (levelUp S) l = .ok (Merkle.level S.hash S.empty l depth) := by
  induction depth with
  | zero =>
    rw [Merkle.level_zero]
    rfl
  | succ d ih =>
    rw [List.range_succ, List.foldlM_append, ih (by omega), ok_bind, List.foldlM_cons,
      levelUp_eq (by omega), Merkle.up_level]
    rfl

/-- `root_for` is the node at the top. -/
theorem rootFor_eq {depth : Nat} (h : depth ≤ 62) (l : List Hash32) :
    rootFor S l depth = .ok (S.node l depth 0) := by
  rw [rootFor]
  split
  next hn =>
    rw [List.isEmpty_iff] at hn
    rw [emptyRoot_eq h, Sapling.node, Merkle.node_of_le (by simp [hn])]
  next hne =>
    rw [List.isEmpty_iff] at hne
    have hp : 0 < l.length := List.length_pos_iff.mpr hne
    have hw : 0 < Merkle.width l.length depth := Merkle.lt_width.mpr (by omega)
    rw [foldlM_levelUp (by omega), ok_bind, Merkle.level,
      ← Nat.succ_pred_eq_of_pos hw, List.range_succ_eq_map]
    rfl

/-- The sibling of an index is the index with its lowest bit flipped. -/
theorem xor_one (i : Nat) : i ^^^ 1 = Merkle.sibling i := by
  rw [Merkle.sibling]
  split
  next h => rw [Nat.xor_one_of_even (Nat.even_iff.mpr h)]
  next h => rw [Nat.xor_one_of_odd (Nat.odd_iff.mpr (by omega))]

/-- A node of a level is a node of the tree, also past the end of the level. -/
theorem nodeAt_level {d : Nat} (h : d ≤ 62) (l : List Hash32) (i : Nat) :
    nodeAt S (Merkle.level S.hash S.empty l d) d i = .ok (S.node l d i) := by
  by_cases hlt : i < Merkle.width l.length d
  · rw [nodeAt, Merkle.level, List.getElem?_map, List.getElem?_range hlt]
    rfl
  · rw [nodeAt, Merkle.level, List.getElem?_map, List.getElem?_eq_none (by simpa using hlt),
      Sapling.node, Merkle.node_of_le (not_lt.mp (mt Merkle.lt_width.mpr hlt))]
    exact emptyRoot_eq h

theorem foldlM_pathUp {depth position : Nat} (h : depth ≤ 63) (l : List Hash32) :
    (List.range depth).foldlM (pathUp S) ([], l, position) =
      .ok (S.siblings l position depth, Merkle.level S.hash S.empty l depth,
        position / 2 ^ depth) := by
  induction depth with
  | zero =>
    rw [Merkle.level_zero, Nat.pow_zero, Nat.div_one]
    rfl
  | succ d ih =>
    rw [List.range_succ, List.foldlM_append, ih (by omega), ok_bind, List.foldlM_cons, pathUp,
      nodeAt_level (by omega), ok_bind, levelUp_eq (by omega), Merkle.up_level, ok_bind, xor_one,
      pow_succ, ← Nat.div_div_eq_div_mul, Sapling.siblings, Sapling.siblings, Merkle.siblings,
      Merkle.siblings, List.range_succ, List.map_append]
    rfl

/-- `path_for` is the siblings of the leaf. -/
theorem pathFor_eq {depth position : Nat} {l : List Hash32} (h : depth ≤ 63)
    (hp : position < l.length) : pathFor S l depth position =
      .ok { siblings := S.siblings l position depth, position := UInt64.ofNat position } := by
  rw [pathFor, if_neg (not_le.mpr hp), foldlM_pathUp h]
  rfl

/-- The root of a path climbs along its siblings. -/
theorem JavaMerklePath.root_eq {path : JavaMerklePath} (h : path.siblings.length ≤ 63)
    (leaf : Hash32) : path.root S leaf =
      .ok (Merkle.climb S.hash path.position.toNat 0 leaf path.siblings) := by
  have hl : ∀ (siblings : List Hash32) (d : Nat) (root : Hash32), d + siblings.length ≤ 63 →
      (siblings.zipIdx d).foldlM (climbUp S path.position) root =
        .ok (Merkle.climb S.hash path.position.toNat d root siblings) := by
    intro siblings
    induction siblings with
    | nil => exact fun _ _ _ => rfl
    | cons sibling siblings ih =>
      intro d root hd
      rw [List.length_cons] at hd
      rw [List.zipIdx_cons, List.foldlM_cons, Merkle.climb, ← ih _ _ (by omega), climbUp,
        Nat.and_one_is_mod, Nat.shiftRight_eq_div_pow, merkleHash_eq (by omega),
        merkleHash_eq (by omega)]
      split <;> rfl
  exact hl path.siblings 0 leaf (by omega)

end RustTron.Shielded
