import RustTron.Library.Reader
import RustTron.Shielded.Merkle

/-!
# Vouchers

A voucher follows a tree as a witness does, but it does not keep the leaves.  It has the path of
its own leaf, and of the leaves after it only those of the sibling that is being filled; where the
next leaf goes follows from its position and that of the voucher.

## Main definitions

* `IncrementalMerkleVoucher`, `IncrementalWitness.toVoucher`: vouchers, and that of a witness
* `IncrementalMerkleVoucher.Follows`: the voucher is that of a position of a tree
* `Followed`, `Joined`: a tree, a witness taken from it and a voucher of the witness, and the same
  leaves after that

## Main results

* `IncrementalMerkleVoucher.Follows.advanced`: a voucher that gets the leaves of a tree follows it
* `Joined.agree`: trees, witnesses and vouchers agree
-/

namespace RustTron.Shielded

structure IncrementalMerkleVoucher where
  element : Hash32
  path : JavaMerklePath
  nextPosition : Nat
  cursorDepth : Option Nat
  cursor : List Hash32
  deriving DecidableEq

variable {S : Sapling}

/-- `IncrementalWitness::to_voucher`, which panics without a path.  The highest bit of a number of
64 bits that is not zero is `63 - leading_zeros`. -/
def IncrementalWitness.toVoucher (witness : IncrementalWitness S) :
    Option IncrementalMerkleVoucher :=
  match witness.path with
  | .error _ => none
  | .ok path =>
    let nextPosition := witness.leaves.length
    let level := (witness.position ^^^ (nextPosition - 1)).log2
    let start := ((witness.position >>> (level + 1)) <<< (level + 1)) + 1 <<< level
    let behind : Bool := nextPosition > witness.position + 1
    some
      { element := witness.element
        path
        nextPosition
        cursorDepth := if behind then some level else none
        cursor := if behind then witness.leaves.drop start else [] }

namespace IncrementalMerkleVoucher

/-- The leaves the cursor has of the sibling at a level. -/
def cursorAt (voucher : IncrementalMerkleVoucher) (level : Nat) : List Hash32 :=
  if voucher.cursorDepth = some level then voucher.cursor else []

/-- `IncrementalMerkleVoucher::append`.  After the checks only the root of the cursor can fail,
and it does not at a level below 63, so an error leaves the voucher as it is. -/
def append (S : Sapling) (voucher : IncrementalMerkleVoucher) (node : Hash32) :
    Except ShieldedError IncrementalMerkleVoucher := do
  parseNode S node
  let depth := voucher.path.siblings.length
  if depth ≥ 64 ∨ voucher.nextPosition ≥ 1 <<< depth then throw .treeFull
  let differing := voucher.path.position.toNat ^^^ voucher.nextPosition
  let cursorDepth := differing.log2
  if cursorDepth ≥ depth ∨ (voucher.path.position.toNat >>> cursorDepth) &&& 1 ≠ 0 then
    throw .treeFull
  let cursor := voucher.cursorAt cursorDepth ++ [node]
  let sibling ← rootFor S cursor cursorDepth
  return { voucher with
    path := { voucher.path with siblings := voucher.path.siblings.set cursorDepth sibling }
    nextPosition := voucher.nextPosition + 1
    cursorDepth := some cursorDepth
    cursor }

/-- The voucher with the next leaf. -/
def advanced (S : Sapling) (voucher : IncrementalMerkleVoucher) (node : Hash32) :
    IncrementalMerkleVoucher :=
  let level := (voucher.path.position.toNat ^^^ voucher.nextPosition).log2
  let cursor := voucher.cursorAt level ++ [node]
  { voucher with
    path := { voucher.path with
      siblings := voucher.path.siblings.set level (S.node cursor level 0) }
    nextPosition := voucher.nextPosition + 1
    cursorDepth := some level
    cursor }

def root (S : Sapling) (voucher : IncrementalMerkleVoucher) : Except ShieldedError Hash32 :=
  voucher.path.root S voucher.element

end IncrementalMerkleVoucher

/-! ### A voucher follows a tree -/

namespace IncrementalMerkleVoucher

section Append

variable {voucher : IncrementalMerkleVoucher} {node : Hash32}

/-- A full voucher takes no leaf. -/
theorem append_full (hf : 2 ^ voucher.path.siblings.length ≤ voucher.nextPosition)
    (hv : S.valid node = true) : voucher.append S node = .error .treeFull := by
  have hn : voucher.path.siblings.length ≥ 64 ∨
      voucher.nextPosition ≥ 1 <<< voucher.path.siblings.length := by
    rw [Nat.one_shiftLeft]
    exact .inr hf
  rw [append, parseNode, if_pos hv, ok_bind, if_pos hn]
  rfl

/-- A voucher with space takes the next leaf. -/
theorem append_space (hd : voucher.path.siblings.length ≤ 63)
    (hp : voucher.path.position.toNat < voucher.nextPosition)
    (hs : voucher.nextPosition < 2 ^ voucher.path.siblings.length)
    (hv : S.valid node = true) :
    voucher.append S node = .ok (voucher.advanced S node) := by
  have ht := Merkle.turn_log2 hp
  have hlt := ht.lt_depth hs
  have hn : ¬ (voucher.path.siblings.length ≥ 64 ∨
      voucher.nextPosition ≥ 1 <<< voucher.path.siblings.length) := by
    rw [Nat.one_shiftLeft]
    omega
  have hb := ht.1
  rw [← Nat.shiftRight_eq_div_pow, ← Nat.and_one_is_mod] at hb
  rw [append, parseNode, if_pos hv, ok_bind, if_neg hn]
  simp only [hb, ne_eq, not_true_eq_false, or_false, if_neg (not_le.mpr hlt),
    rootFor_eq (S := S) (show (voucher.path.position.toNat ^^^ voucher.nextPosition).log2 ≤ 62 by
      omega)]
  rfl

end Append

/-- The voucher is that of the leaf at a position of the tree over `l`.  Of its cursor only the
leaves count that the next leaf is added to. -/
structure Follows (S : Sapling) (depth position : Nat) (l : List Hash32)
    (voucher : IncrementalMerkleVoucher) : Prop where
  element : l[position]? = some voucher.element
  siblings : voucher.path.siblings = S.siblings l position depth
  position_eq : voucher.path.position.toNat = position
  next : voucher.nextPosition = l.length
  cursor : ∀ d, Merkle.Turn position l.length d →
    voucher.cursorAt d = l.drop (l.length / 2 ^ d * 2 ^ d)

namespace Follows

variable {depth position : Nat} {l : List Hash32} {voucher : IncrementalMerkleVoucher}
  {node : Hash32}

theorem position_lt (h : Follows S depth position l voucher) : position < l.length :=
  (List.getElem?_eq_some_iff.mp h.element).1

theorem length_siblings (h : Follows S depth position l voucher) :
    voucher.path.siblings.length = depth := by
  rw [h.siblings, Sapling.siblings, Merkle.siblings, List.length_map, List.length_range]

/-- A voucher that gets the next leaf of the tree follows the tree. -/
theorem advanced (h : Follows S depth position l voucher) :
    Follows S depth position (l ++ [node]) (voucher.advanced S node) := by
  have hp := h.position_lt
  have hl : (voucher.path.position.toNat ^^^ voucher.nextPosition).log2 =
      (position ^^^ l.length).log2 := by rw [h.position_eq, h.next]
  have ht := Merkle.turn_log2 hp
  rw [IncrementalMerkleVoucher.advanced, hl]
  generalize (position ^^^ l.length).log2 = d at ht
  have hs : l.length / 2 ^ d * 2 ^ d ≤ l.length := Nat.div_mul_le_self _ _
  -- the cursor with the new leaf is all there is under the sibling
  have hc : voucher.cursorAt d ++ [node] =
      (l ++ [node]).drop ((position / 2 ^ d + 1) * 2 ^ d) := by
    rw [h.cursor d ht, ← ht.2, List.drop_append_of_le_length hs]
  have hnew : ∀ e, Merkle.Turn position (l.length + 1) e → e ≠ d → 2 ^ e ∣ l.length + 1 :=
    fun e he hne => he.of_succ.resolve_left fun ht' => hne (ht'.unique ht)
  refine ⟨?_, ?_, h.position_eq, ?_, ?_⟩
  · rw [List.getElem?_append_left hp]
    exact h.element
  · have hn : S.node (voucher.cursorAt d ++ [node]) d 0 =
        S.node (l ++ [node]) d (position / 2 ^ d + 1) := by
      rw [hc, Sapling.node, Merkle.node_drop]
      rfl
    show voucher.path.siblings.set d (S.node (voucher.cursorAt d ++ [node]) d 0) = _
    rw [h.siblings, hn]
    exact (Merkle.siblings_concat hp ht).symm
  · rw [List.length_append, List.length_singleton, h.next]
  · intro e he
    rw [List.length_append, List.length_singleton] at he ⊢
    by_cases heq : d = e
    · rw [cursorAt, if_pos (congrArg some heq), hc, he.2, heq]
    · rw [cursorAt, if_neg (fun hso => heq (Option.some_inj.mp hso)),
        Nat.div_mul_cancel (hnew e he (Ne.symm heq)),
        List.drop_eq_nil_of_le (by rw [List.length_append, List.length_singleton])]

/-- A voucher takes the next leaf of the tree unless the tree is full. -/
theorem append (h : Follows S depth position l voucher) (hd : depth ≤ 32)
    (hs : l.length < 2 ^ depth) (hv : S.valid node = true) :
    voucher.append S node = .ok (voucher.advanced S node) := by
  refine append_space ?_ ?_ ?_ hv
  · rw [h.length_siblings]
    omega
  · rw [h.position_eq, h.next]
    exact h.position_lt
  · rwa [h.next, h.length_siblings]

theorem append_full (h : Follows S depth position l voucher) (hf : l.length = 2 ^ depth)
    (hv : S.valid node = true) : voucher.append S node = .error .treeFull :=
  IncrementalMerkleVoucher.append_full (by rw [h.next, h.length_siblings, hf]) hv

/-- The root of the voucher is that of the tree. -/
theorem root (h : Follows S depth position l voucher) (hd : depth ≤ 32)
    (hl : l.length ≤ 2 ^ depth) : voucher.root S = .ok (S.node l depth 0) := by
  obtain ⟨hp, he⟩ := List.getElem?_eq_some_iff.mp h.element
  rw [IncrementalMerkleVoucher.root,
    JavaMerklePath.root_eq (by rw [h.length_siblings]; omega), h.position_eq, h.siblings,
    ← he]
  exact congrArg Except.ok (Merkle.climb_siblings hp (by omega))

end Follows

end IncrementalMerkleVoucher

/-- The voucher of a witness. -/
theorem IncrementalWitness.toVoucher_follows (witness : IncrementalWitness S) :
    ∃ voucher, witness.toVoucher = some voucher ∧
      voucher.Follows S witness.depth witness.position witness.leaves := by
  have hp := witness.position_lt
  have hd := witness.depth_le
  have hle := witness.length_le
  have hbi : 2 ^ witness.depth ≤ 2 ^ 32 := Nat.pow_le_pow_right (by decide) hd
  have hpa : witness.path = .ok
      { siblings := S.siblings witness.leaves witness.position witness.depth
        position := UInt64.ofNat witness.position } := pathFor_eq (by omega) hp
  refine ⟨_, by rw [toVoucher, hpa], ?_⟩
  refine ⟨List.getElem?_eq_getElem hp, rfl, ?_, rfl, ?_⟩
  · exact UInt64.toNat_ofNat_of_lt (by rw [UInt64.size]; omega)
  · intro d ht
    have hpr : witness.leaves.length - 1 + 1 = witness.leaves.length := by omega
    have hn : 2 ^ d ∣ witness.leaves.length →
        witness.leaves.drop (witness.leaves.length / 2 ^ d * 2 ^ d) = [] := fun hdv => by
      rw [Nat.div_mul_cancel hdv, List.drop_length]
    have hb := (hpr ▸ ht).of_succ
    rw [hpr] at hb
    by_cases hbe : witness.leaves.length > witness.position + 1
    · have hl : Merkle.Turn witness.position (witness.leaves.length - 1)
          (witness.position ^^^ (witness.leaves.length - 1)).log2 :=
        Merkle.turn_log2 (by omega)
      set level := (witness.position ^^^ (witness.leaves.length - 1)).log2
      simp only [IncrementalMerkleVoucher.cursorAt, hbe, decide_true, if_true]
      by_cases heq : level = d
      · rw [if_pos (congrArg some heq), ht.2, heq, Nat.shiftLeft_eq, Nat.one_shiftLeft,
          Nat.shiftRight_eq_div_pow, Merkle.half_up ht.1]
      · rw [if_neg (fun hs => heq (Option.some_inj.mp hs)),
          hn (hb.resolve_left fun ht' => heq (hl.unique ht'))]
    · have hne : witness.leaves.length - 1 = witness.position := by omega
      rw [hn (hb.resolve_left fun ht' => by
        have := ht'.2
        rw [hne] at this
        omega)]
      simp [IncrementalMerkleVoucher.cursorAt, hbe]

/-! ### Trees, witnesses and vouchers together -/

/-- A witness taken from a tree that has got the leaves of the tree since. -/
inductive Followed : IncrementalMerkleTree S → IncrementalWitness S → Prop
  | take {tree witness} : tree.witness = .ok witness → Followed tree witness
  | append {tree witness node tree' witness'} : Followed tree witness →
    tree.append node = .ok tree' → witness.append node = .ok witness' → Followed tree' witness'

/-- A voucher taken from such a witness, and all three have got the same leaves since. -/
inductive Joined :
    IncrementalMerkleTree S → IncrementalWitness S → IncrementalMerkleVoucher → Prop
  | take {tree witness voucher} : Followed tree witness → witness.toVoucher = some voucher →
    Joined tree witness voucher
  | append {tree witness voucher node tree' witness' voucher'} : Joined tree witness voucher →
    tree.append node = .ok tree' → witness.append node = .ok witness' →
    voucher.append S node = .ok voucher' → Joined tree' witness' voucher'

/-- The three take the next leaf or are full together, have the same root, and the witness and the
voucher have the same path, which leads from their leaf to the root. -/
structure Agree (tree : IncrementalMerkleTree S) (witness : IncrementalWitness S)
    (voucher : IncrementalMerkleVoucher) : Prop where
  append : ∀ node, S.valid node = true →
    (tree.append node = .error .treeFull ∧ witness.append node = .error .treeFull ∧
      voucher.append S node = .error .treeFull) ∨
    ∃ tree' witness' voucher', tree.append node = .ok tree' ∧
      witness.append node = .ok witness' ∧ voucher.append S node = .ok voucher'
  root : ∃ root, tree.root = .ok root ∧ witness.root = .ok root ∧ voucher.root S = .ok root ∧
    voucher.path.root S witness.element = .ok root
  path : witness.path = .ok voucher.path

namespace IncrementalMerkleTree

variable {tree tree' : IncrementalMerkleTree S} {node : Hash32}

theorem append_full (hv : S.valid node = true) (hf : tree.leaves.length = 2 ^ tree.depth) :
    tree.append node = .error .treeFull := by
  rw [append, dif_pos hv, dif_pos hf]

theorem append_space (hv : S.valid node = true)
    (hs : tree.leaves.length ≠ 2 ^ tree.depth) :
    ∃ tree', tree.append node = .ok tree' := by
  rw [append, dif_pos hv, dif_neg hs]
  exact ⟨_, rfl⟩

theorem append_cases (h : tree.append node = .ok tree') : S.valid node = true ∧
    tree.leaves.length ≠ 2 ^ tree.depth ∧ tree'.leaves = tree.leaves ++ [node] ∧
    tree'.depth = tree.depth := by
  rw [append] at h
  split at h
  next hv =>
    split at h
    · cases h
    next hs =>
      cases h
      exact ⟨hv, hs, rfl, rfl⟩
  · cases h

end IncrementalMerkleTree

namespace IncrementalWitness

variable {witness witness' : IncrementalWitness S} {node : Hash32}

theorem append_full (hf : witness.leaves.length = 2 ^ witness.depth) :
    witness.append node = .error .treeFull := by
  rw [append, dif_pos hf]

theorem append_space (hv : S.valid node = true)
    (hs : witness.leaves.length ≠ 2 ^ witness.depth) :
    ∃ witness', witness.append node = .ok witness' := by
  rw [append, dif_neg hs, dif_pos hv]
  exact ⟨_, rfl⟩

theorem append_cases (h : witness.append node = .ok witness') : S.valid node = true ∧
    witness.leaves.length ≠ 2 ^ witness.depth ∧ witness'.leaves = witness.leaves ++ [node] ∧
    witness'.depth = witness.depth ∧ witness'.position = witness.position := by
  rw [append] at h
  split at h
  · cases h
  next hs =>
    split at h
    next hv =>
      cases h
      exact ⟨hv, hs, rfl, rfl, rfl⟩
    · cases h

end IncrementalWitness

section Joined

variable {tree : IncrementalMerkleTree S} {witness : IncrementalWitness S}
  {voucher : IncrementalMerkleVoucher}

/-- A witness has the leaves of its tree. -/
theorem Followed.leaves_eq (h : Followed tree witness) :
    tree.leaves = witness.leaves ∧ tree.depth = witness.depth := by
  induction h with
  | take hw =>
    rw [IncrementalMerkleTree.witness] at hw
    split at hw
    · cases hw
    · cases hw
      exact ⟨rfl, rfl⟩
  | append _ ht hw ih =>
    obtain ⟨-, -, hl, hd⟩ := IncrementalMerkleTree.append_cases ht
    obtain ⟨-, -, hl', hd', -⟩ := IncrementalWitness.append_cases hw
    rw [hl, hl', hd, hd', ih.1, ih.2]
    exact ⟨rfl, rfl⟩

/-- The voucher follows the tree. -/
theorem Joined.follows (h : Joined tree witness voucher) :
    tree.leaves = witness.leaves ∧ tree.depth = witness.depth ∧
      voucher.Follows S witness.depth witness.position witness.leaves := by
  induction h with
  | take hfo hv =>
    obtain ⟨voucher', hv', hf⟩ := IncrementalWitness.toVoucher_follows _
    rw [hv', Option.some_inj] at hv
    exact ⟨hfo.leaves_eq.1, hfo.leaves_eq.2, hv ▸ hf⟩
  | @append tree witness voucher node tree' witness' voucher' _ ht hw hv ih =>
    obtain ⟨hl, hd, hf⟩ := ih
    obtain ⟨-, -, ht, htd⟩ := IncrementalMerkleTree.append_cases ht
    obtain ⟨hva, hs, hw, hwd, hp⟩ :=
      IncrementalWitness.append_cases hw
    rw [hf.append witness.depth_le (lt_of_le_of_ne witness.length_le hs) hva,
      Except.ok.injEq] at hv
    rw [ht, hw, htd, hwd, hp, ← hv, hl, hd]
    exact ⟨rfl, rfl, hf.advanced⟩

/-- A witness gives a voucher at any moment, and the three agree from then on. -/
theorem Joined.agree :
    (∀ (tree : IncrementalMerkleTree S) (witness : IncrementalWitness S),
      Followed tree witness → ∃ voucher, witness.toVoucher = some voucher) ∧
    ∀ (tree : IncrementalMerkleTree S) (witness : IncrementalWitness S)
      (voucher : IncrementalMerkleVoucher),
      Joined tree witness voucher → Agree tree witness voucher := by
  refine ⟨fun _ witness _ => ?_, fun tree witness voucher h => ?_⟩
  · obtain ⟨voucher, hvoucher, -⟩ := witness.toVoucher_follows
    exact ⟨voucher, hvoucher⟩
  obtain ⟨hleaves, hdepth, hfollows⟩ := h.follows
  have hle := witness.depth_le
  have hroot := hfollows.root hle witness.length_le
  have helement : voucher.element = witness.element :=
    (Option.some_inj.mp ((List.getElem?_eq_getElem witness.position_lt).symm.trans
      hfollows.element)).symm
  refine ⟨fun node hvalid => ?_, ⟨_, ?_, ?_, hroot, ?_⟩, ?_⟩
  · by_cases hfull : witness.leaves.length = 2 ^ witness.depth
    · exact .inl ⟨IncrementalMerkleTree.append_full hvalid (by rw [hleaves, hdepth, hfull]),
        IncrementalWitness.append_full hfull, hfollows.append_full hfull hvalid⟩
    · obtain ⟨tree', htree⟩ := IncrementalMerkleTree.append_space hvalid
        (show tree.leaves.length ≠ 2 ^ tree.depth by rwa [hleaves, hdepth])
      obtain ⟨witness', hwitness⟩ := IncrementalWitness.append_space hvalid hfull
      have hvoucher := hfollows.append hle (lt_of_le_of_ne witness.length_le hfull) hvalid
      exact .inr ⟨tree', witness', _, htree, hwitness, hvoucher⟩
  · rw [IncrementalMerkleTree.root, hleaves, hdepth, rootFor_eq (by omega)]
  · exact rootFor_eq (by omega) _
  · rw [← helement]
    exact hroot
  · rw [IncrementalWitness.path, pathFor_eq (by omega) witness.position_lt, ← hfollows.siblings,
      ← hfollows.position_eq, UInt64.ofNat_toNat]

end Joined

/-! ### Trees of absent leaves -/

/-- The modulus of the field of the nodes. -/
def scalarModulus : Nat := 0x73eda753299d7d483339d80809a1d80553bda402fffe5bfeffffffff00000001

/-- The roots of the trees without leaves, up to a depth of 32 (`merkle_roots_empty_sapling.json`).
-/
def emptyRoots : List Nat :=
  [ 0x0100000000000000000000000000000000000000000000000000000000000000,
    0x817de36ab2d57feb077634bca77819c8e0bd298c04f6fed0e6a83cc1356ca155,
    0xffe9fc03f18b176c998806439ff0bb8ad193afdb27b2ccbc88856916dd804e34,
    0xd8283386ef2ef07ebdbb4383c12a739a953a4d6e0d6fb1139a4036d693bfbb6c,
    0xe110de65c907b9dea4ae0bd83a4b0a51bea175646a64c12b4c9f931b2cb31b49,
    0x912d82b2c2bca231f71efcf61737fbf0a08befa0416215aeef53e8bb6d23390a,
    0x8ac9cf9c391e3fd42891d27238a81a8a5c1d3a72b1bcbea8cf44a58ce7389613,
    0xd6c639ac24b46bd19341c91b13fdcab31581ddaf7f1411336a271f3d0aa52813,
    0x7b99abdc3730991cc9274727d7d82d28cb794edbc7034b4f0053ff7c4b680444,
    0x43ff5457f13b926b61df552d4e402ee6dc1463f99a535f9a713439264d5b616b,
    0xba49b659fbd0b7334211ea6a9d9df185c757e70aa81da562fb912b84f49bce72,
    0x4777c8776a3b1e69b73a62fa701fa4f7a6282d9aee2c7a6b82e7937d7081c23c,
    0xec677114c27206f5debc1c1ed66f95e2b1885da5b7be3d736b1de98579473048,
    0x1b77dac4d24fb7258c3c528704c59430b630718bec486421837021cf75dab651,
    0xbd74b25aacb92378a871bf27d225cfc26baca344a1ea35fdd94510f3d157082c,
    0xd6acdedf95f608e09fa53fb43dcd0990475726c5131210c9e5caeab97f0e642f,
    0x1ea6675f9551eeb9dfaaa9247bc9858270d3d3a4c5afa7177a984d5ed1be2451,
    0x6edb16d01907b759977d7650dad7e3ec049af1a3d875380b697c862c9ec5d51c,
    0xcd1c8dbf6e3acc7a80439bc4962cf25b9dce7c896f3a5bd70803fc5a0e33cf00,
    0x6aca8448d8263e547d5ff2950e2ed3839e998d31cbc6ac9fd57bc6002b159216,
    0x8d5fa43e5a10d11605ac7430ba1f5d81fb1b68d29a640405767749e841527673,
    0x08eeab0c13abd6069e6310197bf80f9c1ea6de78fd19cbae24d4a520e6cf3023,
    0x0769557bc682b1bf308646fd0b22e648e8b9e98f57e29f5af40f6edb833e2c49,
    0x4c6937d78f42685f84b43ad3b7b00f81285662f85c6a68ef11d62ad1a3ee0850,
    0xfee0e52802cb0c46b1eb4d376c62697f4759f6c8917fa352571202fd778fd712,
    0x16d6252968971a83da8521d65382e61f0176646d771c91528e3276ee45383e4a,
    0xd2e1642c9a462229289e5b0e3b7f9008e0301cbb93385ee0e21da2545073cb58,
    0xa5122c08ff9c161d9ca6fc462073396c7d7d38e8ee48cdb3bea7e2230134ed6a,
    0x28e7b841dcbc47cceb69d7cb8d94245fb7cb2ba3a7a6bc18f13f945f7dbd6e2a,
    0xe1f34b034d4a3cd28557e2907ebf990c918f64ecb50a94f01d6fda5ca5c7ef72,
    0x12935f14b676509b81eb49ef25f39269ed72309238b4c145803544b646dca62d,
    0xb2eed031d4d6a4f02a097f80b54cc1541d4163c6b6f5971f88b6e41d35c53814,
    0xfbc2f4300c01f0b7820d00e3347c8da4ee614674376cbc45359daa54f9b5493e ]

/-- The root of a depth. -/
def emptyRootAt (depth : Nat) : Hash32 :=
  ⟨beBytes 32 (emptyRoots.getD depth 0), length_beBytes _ _⟩

/-- The Sapling library on trees of absent leaves: all nodes of a level are one. -/
def sampleSapling : Sapling where
  hash d _ _ := emptyRootAt (d + 1)
  uncommitted := emptyRootAt 0
  valid node := node.bytes.foldr (fun b n => b.toNat + n * 256) 0 < scalarModulus

/-- A tree with one leaf. -/
def sampleTree : IncrementalMerkleTree sampleSapling where
  depth := 2
  leaves := [sampleSapling.uncommitted]
  depth_pos := by decide
  depth_le := by decide
  leaves_valid := by decide
  length_le := by decide

/-- Its witness. -/
def sampleWitness : IncrementalWitness sampleSapling where
  depth := 2
  position := 0
  leaves := [sampleSapling.uncommitted]
  depth_le := by decide
  position_lt := by decide
  leaves_valid := by decide
  length_le := by decide

/-- The voucher of the witness. -/
def sampleVoucher : IncrementalMerkleVoucher where
  element := sampleSapling.uncommitted
  path := { siblings := [emptyRootAt 0, emptyRootAt 1], position := 0 }
  nextPosition := 1
  cursorDepth := none
  cursor := []

theorem sample_joined : Joined sampleTree sampleWitness sampleVoucher :=
  .take (.take rfl) (by decide)

/-- The cursor of the voucher goes from the sibling leaf to the sibling above it. -/
theorem sample_agree : ∃ (tree : IncrementalMerkleTree sampleSapling)
    (witness : IncrementalWitness sampleSapling) (voucher : IncrementalMerkleVoucher),
    Joined tree witness voucher ∧ tree.leaves.length = 4 ∧
      voucher.cursorDepth = some 1 ∧ voucher.cursor.length = 2 ∧ Agree tree witness voucher :=
  have h₁ := sample_joined.append
    (show sampleTree.append sampleSapling.uncommitted = .ok _ from rfl) rfl rfl
  have h₂ := h₁.append
    (show IncrementalMerkleTree.append _ sampleSapling.uncommitted = .ok _ from rfl) rfl rfl
  have h₃ := h₂.append
    (show IncrementalMerkleTree.append _ sampleSapling.uncommitted = .ok _ from rfl) rfl rfl
  ⟨_, _, _, h₃, rfl, rfl, rfl, Joined.agree.2 _ _ _ h₃⟩

end RustTron.Shielded
