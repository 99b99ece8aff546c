import RustTron.Shielded.Voucher

/-!
# The encodings of paths, trees and vouchers

A path and a tree are written as a count in one byte and the nodes after it, each behind a byte
that tells its length.  A voucher is written as its path.  What a voucher has besides is found
again when it is read: its next position from the siblings that are not the root of an empty tree.

## Main definitions

* `JavaMerklePath.encode`, `JavaMerklePath.decode`: paths in bytes
* `IncrementalMerkleTree.encodeJava`, `IncrementalMerkleTree.decodeJava`: trees in bytes
* `IncrementalMerkleVoucher.encodeJava`, `IncrementalMerkleVoucher.decodeJava`: vouchers in bytes
* `TreeKept`, `VoucherKept`: what is read back behaves as what was written
* `Resumable`: a sibling that has leaves is full and is not the root of an empty tree

## Main results

* `JavaMerklePath.decode_encode`, `IncrementalMerkleTree.decode_encode`: they are read back
* `endOf_eq_iff`: the next position is found again only when the last sibling is full
* `codecs_keep_iff`: what is kept of the three
-/

namespace RustTron.Shielded

/-! ### Nodes in bytes -/

/-- Nodes one after another, each behind its length. -/
def encodeNodes (nodes : List Hash32) : Bytes := nodes.flatMap fun node => 0x20 :: node.bytes

/-- The loops that read nodes: the length of each is checked, then the node is taken. -/
def readNodes {σ : Type} (take : σ → Hash32 → Except ShieldedError σ) :
    (count : Nat) → (bytes : Bytes) → count * 33 ≤ bytes.length → σ → Except ShieldedError σ
  | 0, _, _, state => .ok state
  | count + 1, bytes, h, state => do
    let marker := bytes.get ⟨0, by omega⟩
    if marker ≠ 0x20 then
      let signed := marker.toInt8
      throw (.invalidParameter s!"param {signed} not equals:32")
    let node : Hash32 := ⟨(bytes.drop 1).take 32, by simp; omega⟩
    let state ← take state node
    readNodes take count (bytes.drop 33) (by rw [List.length_drop]; omega) state

theorem length_encodeNodes (nodes : List Hash32) :
    (encodeNodes nodes).length = nodes.length * 33 := by
  induction nodes with
  | nil => rfl
  | cons node nodes ih =>
    rw [encodeNodes, List.flatMap_cons, List.length_append, List.length_cons, node.length_eq,
      ← encodeNodes, ih, List.length_cons]
    omega

theorem readNodes_encodeNodes {σ : Type} (take : σ → Hash32 → Except ShieldedError σ)
    (nodes : List Hash32) (rest : Bytes) (h) (state : σ) :
    readNodes take nodes.length (encodeNodes nodes ++ rest) h state =
      nodes.foldlM take state := by
  induction nodes generalizing state with
  | nil => rfl
  | cons node nodes ih =>
    have hn : (⟨((encodeNodes (node :: nodes) ++ rest).drop 1).take 32, by
        simp [encodeNodes, node.length_eq]⟩ : Hash32) = node := by
      refine Hash32.ext ?_
      simp [encodeNodes, ← node.length_eq]
    have hr : (encodeNodes (node :: nodes) ++ rest).drop 33 = encodeNodes nodes ++ rest := by
      have hl : 32 = node.bytes.length := node.length_eq.symm
      rw [encodeNodes, List.flatMap_cons, List.cons_append, List.cons_append,
        List.drop_succ_cons, List.append_assoc, hl, List.drop_left]
      rfl
    have hm : ∀ h0, (encodeNodes (node :: nodes) ++ rest).get ⟨0, h0⟩ = 0x20 := fun _ => rfl
    show readNodes take (nodes.length + 1) _ h state = _
    rw [List.foldlM_cons, readNodes]
    simp only [hm, ne_eq, not_true_eq_false, if_false, hn]
    congr 1
    funext state'
    simp only [hr]
    exact ih _ state'

/-! ### Paths -/

/-- `u64::to_le_bytes`. -/
def leBytes (x : UInt64) : Bytes :=
  [0, 8, 16, 24, 32, 40, 48, 56].map fun k => UInt8.ofNat (x.toNat / 2 ^ k)

def fromLeBytes (bytes : Bytes) : UInt64 :=
  UInt64.ofNat (bytes.foldr (fun b n => b.toNat + n * 256) 0)

theorem fromLeBytes_leBytes (x : UInt64) : fromLeBytes (leBytes x) = x := by
  have hlt := x.toNat_lt
  have hn : (leBytes x).foldr (fun b n => b.toNat + n * 256) 0 = x.toNat := by
    simp only [leBytes, List.map_cons, List.map_nil, List.foldr_cons, List.foldr_nil,
      UInt8.toNat_ofNat']
    omega
  rw [fromLeBytes, hn, UInt64.ofNat_toNat]

namespace JavaMerklePath

def encode (path : JavaMerklePath) : Except ShieldedError Bytes :=
  if path.siblings.length > 252 then
    .error (.invalidParameter "authentication path is too deep")
  else .ok (UInt8.ofNat path.siblings.length ::
    (encodeNodes path.siblings.reverse ++ leBytes path.position))

theorem path_fits {depth : Nat} {bytes : Bytes} (h : ¬ bytes.length + 1 ≠ 1 + depth * 33 + 8) :
    depth * 33 ≤ bytes.length := by
  omega

def decode (S : Sapling) : Bytes → Except ShieldedError JavaMerklePath
  | [] => .error (.invalidEncoding "Merkle path")
  | count :: bytes => do
    let depth := count.toNat
    let expected := 1 + depth * 33 + 8
    if h : bytes.length + 1 ≠ expected then
      throw (.invalidParameter s!"param length must be {expected}")
    else
      let topDown ← readNodes (fun topDown node => do
        parseNode S node
        return topDown ++ [node]) depth bytes (path_fits h) []
      return { siblings := topDown.reverse, position := fromLeBytes (bytes.drop (depth * 33)) }

theorem foldlM_parseNode {S : Sapling} {nodes : List Hash32}
    (h : ∀ node ∈ nodes, S.valid node = true) (taken : List Hash32) :
    nodes.foldlM (fun topDown node => do
      parseNode S node
      return topDown ++ [node]) taken = (.ok (taken ++ nodes) : Except ShieldedError _) := by
  induction nodes generalizing taken with
  | nil =>
    rw [List.append_nil]
    rfl
  | cons node nodes ih =>
    rw [List.forall_mem_cons] at h
    rw [List.foldlM_cons, parseNode, if_pos h.1, ok_bind, pure_bind, ih h.2, List.append_assoc]
    rfl

theorem decode_encode {S : Sapling} {path : JavaMerklePath} (hl : path.siblings.length ≤ 252)
    (hv : ∀ node ∈ path.siblings, S.valid node = true) :
    ∃ bytes, path.encode = .ok bytes ∧ decode S bytes = .ok path := by
  refine ⟨_, if_neg (not_lt.mpr hl), ?_⟩
  have hc : (UInt8.ofNat path.siblings.length).toNat = path.siblings.reverse.length := by
    rw [UInt8.toNat_ofNat', List.length_reverse]
    omega
  have hn : (encodeNodes path.siblings.reverse).length = path.siblings.reverse.length * 33 :=
    length_encodeNodes _
  rw [decode]
  simp only [hc]
  rw [dif_neg (by
    rw [List.length_append, hn, leBytes, List.length_map]
    simp only [List.length_cons, List.length_nil]
    omega), readNodes_encodeNodes, foldlM_parseNode (fun node hno =>
      hv node (List.mem_reverse.mp hno)), ok_bind, ← hn, List.drop_left,
    fromLeBytes_leBytes, List.nil_append, List.reverse_reverse]
  rfl

end JavaMerklePath

/-! ### Trees -/

namespace IncrementalMerkleTree

variable {S : Sapling}

def encodeJava (tree : IncrementalMerkleTree S) : Bytes :=
  UInt8.ofNat tree.depth :: UInt8.ofNat tree.leaves.length :: encodeNodes tree.leaves

theorem leaves_fit {count : UInt8} {bytes : Bytes} (h : ¬ bytes.length ≠ count.toNat * 33) :
    count.toNat * 33 ≤ bytes.length := by
  omega

def decodeJava (S : Sapling) : Bytes → Except ShieldedError (IncrementalMerkleTree S)
  | depth :: count :: bytes =>
    if h : bytes.length ≠ count.toNat * 33 then .error (.invalidEncoding "Merkle tree")
    else do
      let tree ← new depth.toNat
      readNodes append count.toNat bytes (leaves_fit h) tree
  | _ => .error (.invalidEncoding "Merkle tree")

theorem foldlM_append {nodes : List Hash32} (hv : ∀ node ∈ nodes, S.valid node = true)
    (tree : IncrementalMerkleTree S)
    (hle : tree.leaves.length + nodes.length ≤ 2 ^ tree.depth) :
    ∃ tree', nodes.foldlM append tree = .ok tree' ∧ tree'.depth = tree.depth ∧
      tree'.leaves = tree.leaves ++ nodes := by
  induction nodes generalizing tree with
  | nil => exact ⟨tree, rfl, rfl, (List.append_nil _).symm⟩
  | cons node nodes ih =>
    rw [List.forall_mem_cons] at hv
    rw [List.length_cons] at hle
    obtain ⟨next, hn⟩ := append_space hv.1
      (show tree.leaves.length ≠ 2 ^ tree.depth by omega)
    obtain ⟨-, -, hl, hd⟩ := append_cases hn
    obtain ⟨tree', ht', hd', hl'⟩ := ih hv.2 next (by
      rw [hl, hd, List.length_append, List.length_singleton]
      omega)
    refine ⟨tree', ?_, hd'.trans hd, ?_⟩
    · rw [List.foldlM_cons, hn, ok_bind, ht']
    · rw [hl', hl, List.append_assoc]
      rfl

theorem decode_encode (tree : IncrementalMerkleTree S) (h : tree.leaves.length < 256) :
    decodeJava S tree.encodeJava = .ok tree := by
  have hp := tree.depth_pos
  have hle := tree.depth_le
  have hd : (UInt8.ofNat tree.depth).toNat = tree.depth := by
    rw [UInt8.toNat_ofNat']
    omega
  have hc : (UInt8.ofNat tree.leaves.length).toNat = tree.leaves.length := by
    rw [UInt8.toNat_ofNat']
    omega
  obtain ⟨tree', ht', hd', hl'⟩ := foldlM_append tree.leaves_valid
    { depth := tree.depth
      leaves := []
      depth_pos := hp
      depth_le := hle
      leaves_valid := by simp
      length_le := Nat.zero_le _ } (by
        have := tree.length_le
        simpa using this)
  have heq : tree' = tree := IncrementalMerkleTree.ext hd' hl'
  have hr := readNodes_encodeNodes (append (S := S)) tree.leaves []
    (by rw [List.append_nil, length_encodeNodes])
  rw [encodeJava, decodeJava, dif_neg (by rw [hc, length_encodeNodes]; exact not_not_intro rfl)]
  rw [new, dif_neg (by rw [hd]; omega), ok_bind]
  simp only [hc, hd, List.append_nil] at hr ⊢
  rw [hr, ht', heq]

theorem decode_encode_of_le (tree : IncrementalMerkleTree S) (h : 256 ≤ tree.leaves.length) :
    decodeJava S tree.encodeJava = .error (.invalidEncoding "Merkle tree") := by
  rw [encodeJava, decodeJava, dif_pos]
  rw [length_encodeNodes, UInt8.toNat_ofNat']
  omega

end IncrementalMerkleTree

/-! ### Vouchers -/

/-- One turn of the loop that finds the next position: a sibling with leaves ends before it.  On
64 bits the mask clears the bits below `level + 1`. -/
def resumeAt (S : Sapling) (position : Nat) (next : Nat) (step : Hash32 × Nat) :
    Except ShieldedError Nat := do
  let (sibling, level) := step
  if (position >>> level) &&& 1 = 0 then
    let filler ← emptyRoot S level
    if sibling ≠ filler ∧ next % (1 <<< (level + 1)) ≠ 0 then
      return (next + 1 <<< (level + 1) - 1) >>> (level + 1) <<< (level + 1)
  return next

namespace IncrementalMerkleVoucher

def encodeJava (voucher : IncrementalMerkleVoucher) : Except ShieldedError Bytes :=
  voucher.path.encode

def decodeJava (S : Sapling) (element : Hash32) (bytes : Bytes) :
    Except ShieldedError IncrementalMerkleVoucher := do
  parseNode S element
  let path ← JavaMerklePath.decode S bytes
  let depth := path.siblings.length
  let position := path.position.toNat
  if depth ≥ 64 ∨ position ≥ 1 <<< depth then
    throw (.invalidParameter "Merkle path position exceeds its depth")
  let nextPosition ← path.siblings.zipIdx.foldlM (resumeAt S position) (position + 1)
  return { element, path, nextPosition, cursorDepth := none, cursor := [] }

end IncrementalMerkleVoucher

/-! ### The next position, found again -/

/-- Where the subtree over a position ends at a level. -/
def endOf (position level : Nat) : Nat := (position / 2 ^ level + 1) * 2 ^ level

section EndOf

variable {S : Sapling} {position n d e k depth : Nat} {l : List Hash32}

theorem lt_mul_of_div (n : Nat) (hk : 0 < k) : n < (n / k + 1) * k :=
  Nat.mul_comm k _ ▸ Nat.lt_mul_div_succ n hk

theorem lt_endOf (position d : Nat) : position < endOf position d :=
  lt_mul_of_div position (Nat.two_pow_pos d)

theorem endOf_mono (h : d ≤ e) : endOf position d ≤ endOf position e := by
  obtain ⟨k, rfl⟩ := Nat.exists_eq_add_of_le h
  have hlt : position / 2 ^ d + 1 ≤ (position / 2 ^ (d + k) + 1) * 2 ^ k := by
    rw [pow_add, ← Nat.div_div_eq_div_mul]
    exact lt_mul_of_div _ (Nat.two_pow_pos k)
  calc endOf position d ≤ (position / 2 ^ (d + k) + 1) * 2 ^ k * 2 ^ d :=
        Nat.mul_le_mul_right _ hlt
    _ = endOf position (d + k) := by rw [endOf, pow_add, Nat.mul_assoc, Nat.mul_comm (2 ^ k)]

/-- A position in a subtree, but not its first, is rounded up to the end of the subtree. -/
theorem roundUp_eq (hlt : position < n) (hle : n ≤ endOf position d) :
    (n + 2 ^ d - 1) / 2 ^ d * 2 ^ d = endOf position d := by
  have hp := Nat.two_pow_pos d
  have hs : position / 2 ^ d * 2 ^ d ≤ position := Nat.div_mul_le_self _ _
  rw [endOf, Nat.add_mul, Nat.one_mul] at hle
  have hd : (n + 2 ^ d - 1) / 2 ^ d = position / 2 ^ d + 1 := by
    refine Nat.div_eq_of_lt_le ?_ ?_ <;> rw [Nat.add_mul, Nat.one_mul]
    · omega
    · rw [Nat.add_mul, Nat.one_mul]
      omega
  rw [hd, endOf]

theorem eq_endOf_of_dvd (hlt : position < n) (hle : n ≤ endOf position d) (hd : 2 ^ d ∣ n) :
    n = endOf position d := by
  obtain ⟨c, rfl⟩ := hd
  have hge : position / 2 ^ d < c := Nat.div_lt_of_lt_mul hlt
  have hc : c ≤ position / 2 ^ d + 1 := by
    rw [endOf, Nat.mul_comm] at hle
    exact Nat.le_of_mul_le_mul_right hle (Nat.two_pow_pos d)
  rw [endOf, Nat.mul_comm, Nat.le_antisymm hc hge]

/-- One turn moves to the end of the sibling, unless that is the root of an empty tree. -/
theorem resumeAt_eq (hk : k ≤ d) (hd : d ≤ 62) (position : Nat) (sibling : Hash32) :
    resumeAt S position (endOf position k) (sibling, d) =
      .ok (if position / 2 ^ d % 2 = 0 ∧ sibling ≠ S.empty d then endOf position (d + 1)
        else endOf position k) := by
  rw [resumeAt, Nat.and_one_is_mod, Nat.shiftRight_eq_div_pow]
  by_cases hb : position / 2 ^ d % 2 = 0
  · simp only [hb, if_true, emptyRoot_eq hd, ok_bind, true_and, Nat.one_shiftLeft]
    by_cases hs : sibling = S.empty d
    · simp only [hs, ne_eq, not_true_eq_false, false_and, if_false]
      rfl
    · have hlt := lt_endOf position k
      have hle : endOf position k ≤ endOf position (d + 1) := endOf_mono (by omega)
      have hup := roundUp_eq hlt hle
      by_cases hm : endOf position k % 2 ^ (d + 1) = 0
      · rw [if_neg fun h => h.2 hm, if_pos hs]
        exact congrArg Except.ok (eq_endOf_of_dvd hlt hle (Nat.dvd_of_mod_eq_zero hm))
      · simp only [hm, ne_eq, hs, not_false_eq_true, and_self, if_true]
        rw [Nat.shiftLeft_eq, Nat.shiftRight_eq_div_pow, hup]
        rfl
  · simp only [hb, if_false, false_and]
    rfl

/-- The loop that finds the next position stops at the end of the highest sibling on the right
that is not the root of an empty tree. -/
theorem foldlM_resumeAt (h : depth ≤ 63) (l : List Hash32) (position : Nat) : ∃ k ≤ depth,
    (S.siblings l position depth).zipIdx.foldlM (resumeAt S position) (position + 1) =
      .ok (endOf position k) ∧
    (∀ d, k ≤ d → d < depth → position / 2 ^ d % 2 = 0 →
      S.node l d (position / 2 ^ d + 1) = S.empty d) ∧
    ∀ d, k = d + 1 → position / 2 ^ d % 2 = 0 ∧ S.node l d (position / 2 ^ d + 1) ≠ S.empty d := by
  induction depth with
  | zero =>
    refine ⟨0, le_refl _, ?_, fun _ _ hd => absurd hd (Nat.not_lt_zero _), fun _ hd => by cases hd⟩
    rw [endOf, Nat.pow_zero, Nat.div_one, Nat.mul_one]
    rfl
  | succ depth ih =>
    obtain ⟨k, hk, hlo, ha, ht⟩ := ih (by omega)
    have hs : S.siblings l position (depth + 1) = S.siblings l position depth ++
        [S.node l depth (Merkle.sibling (position / 2 ^ depth))] := by
      rw [Sapling.siblings, Sapling.siblings, Merkle.siblings, Merkle.siblings, List.range_succ,
        List.map_append]
      rfl
    have hl : (S.siblings l position depth).length = depth := by
      rw [Sapling.siblings, Merkle.siblings, List.length_map, List.length_range]
    have hla : (S.siblings l position (depth + 1)).zipIdx.foldlM (resumeAt S position)
        (position + 1) = resumeAt S position (endOf position k)
          (S.node l depth (Merkle.sibling (position / 2 ^ depth)), depth) := by
      rw [hs, List.zipIdx_append, List.foldlM_append, hlo, ok_bind, hl, Nat.zero_add,
        List.zipIdx_cons, List.zipIdx_nil, List.foldlM_cons]
      exact bind_pure _
    rw [hla, resumeAt_eq hk (by omega)]
    by_cases hb : position / 2 ^ depth % 2 = 0 ∧
        S.node l depth (Merkle.sibling (position / 2 ^ depth)) ≠ S.empty depth
    · rw [if_pos hb]
      rw [Merkle.sibling, if_pos hb.1] at hb
      refine ⟨depth + 1, le_refl _, rfl, fun d hd hd' => by omega, fun d hd => ?_⟩
      cases hd
      exact hb
    · rw [if_neg hb]
      refine ⟨k, by omega, rfl, fun d hd hd' he => ?_, ht⟩
      rcases Nat.lt_succ_iff_lt_or_eq.mp hd' with hlt | rfl
      · exact ha d hd hlt he
      · rw [Merkle.sibling, if_pos he] at hb
        exact not_not.mp fun hne => hb ⟨he, hne⟩

theorem endOf_of_turn (h : Merkle.Turn position (endOf position k) d) :
    endOf position k = endOf position d := by
  have hk : k ≤ d := by
    refine Nat.le_of_not_lt fun hlt => ?_
    have hd := h.div_eq hlt
    rw [endOf, Nat.mul_div_cancel _ (Nat.two_pow_pos k)] at hd
    exact Nat.succ_ne_self _ hd
  refine Nat.le_antisymm (endOf_mono hk) ?_
  calc endOf position d = endOf position k / 2 ^ d * 2 ^ d := by rw [h.2, endOf]
    _ ≤ endOf position k := Nat.div_mul_le_self _ _

/-- A sibling with leaves is full, and it is not the root of an empty tree. -/
def Resumable (S : Sapling) (position : Nat) (l : List Hash32) : Prop :=
  l.length = position + 1 ∨
    let level := (position ^^^ (l.length - 1)).log2
    2 ^ (level + 1) ∣ l.length ∧ S.node l level (position / 2 ^ level + 1) ≠ S.empty level

theorem turn_pred_endOf (h : position / 2 ^ d % 2 = 0) :
    Merkle.Turn position (endOf position (d + 1) - 1) d := by
  have hp := Nat.two_pow_pos d
  have he : endOf position (d + 1) = (position / 2 ^ d + 1) * 2 ^ d + 2 ^ d := by
    rw [← Merkle.half_up h, endOf, Nat.add_mul, Nat.one_mul, Nat.add_assoc, ← Nat.two_mul,
      pow_succ', Nat.mul_comm 2 (2 ^ d)]
  refine ⟨h, Nat.div_eq_of_lt_le ?_ ?_⟩ <;> rw [he]
  · omega
  · rw [Nat.add_mul (position / 2 ^ d + 1), Nat.one_mul]
    omega

theorem endOf_eq_iff (hp : position < l.length) (hlen : l.length ≤ 2 ^ depth)
    (ha : ∀ d, k ≤ d → d < depth → position / 2 ^ d % 2 = 0 →
      S.node l d (position / 2 ^ d + 1) = S.empty d)
    (hto : ∀ d, k = d + 1 →
      position / 2 ^ d % 2 = 0 ∧ S.node l d (position / 2 ^ d + 1) ≠ S.empty d) :
    endOf position k = l.length ↔ Resumable S position l := by
  constructor
  · intro he
    rcases Nat.eq_zero_or_eq_succ_pred k with rfl | hs
    · exact .inl (by rw [← he, endOf, Nat.pow_zero, Nat.div_one, Nat.mul_one])
    · obtain ⟨hb, hn⟩ := hto _ hs
      generalize k.pred = d at hs hb hn
      have ht := turn_pred_endOf hb
      rw [hs] at he
      rw [he] at ht
      have hl : (position ^^^ (l.length - 1)).log2 = d := by
        refine (Merkle.turn_log2 ?_).unique ht
        refine Nat.lt_of_not_le fun hle => ?_
        have := Nat.div_le_div_right (c := 2 ^ d) hle
        rw [ht.2] at this
        exact Nat.not_succ_le_self _ this
      refine .inr ?_
      simp only [hl]
      exact ⟨⟨_, by rw [← he, endOf, Nat.mul_comm]⟩, hn⟩
  · rintro (hne | ⟨hdv, hn⟩)
    · -- no sibling on the right has a leaf
      rcases Nat.eq_zero_or_eq_succ_pred k with rfl | hs
      · rw [hne, endOf, Nat.pow_zero, Nat.div_one, Nat.mul_one]
      · refine absurd (Merkle.node_of_le ?_) (hto _ hs).2
        rw [hne]
        exact lt_endOf position _
    · set level := (position ^^^ (l.length - 1)).log2 with hl
      have hlea : (position / 2 ^ level + 1) * 2 ^ level < l.length :=
        not_le.mp fun hle => hn (Merkle.node_of_le hle)
      have ht : Merkle.Turn position (l.length - 1) level :=
        Merkle.turn_log2 (by have := lt_endOf position level; rw [endOf] at this; omega)
      have hin : ∀ d, level < d → l.length ≤ endOf position d := fun d hd => by
        have hla := lt_endOf (l.length - 1) d
        rw [endOf, ht.div_eq hd, ← endOf] at hla
        omega
      have hde : level < depth := ht.lt_depth (by omega)
      rcases Nat.lt_or_ge level k with hk | hk
      · obtain ⟨d, rfl⟩ := Nat.exists_eq_add_of_lt hk
        obtain ⟨hb, hto⟩ := hto _ rfl
        -- a sibling further up has no leaf
        rcases Nat.eq_zero_or_pos d with rfl | hd
        · exact (eq_endOf_of_dvd hp (hin _ (by omega)) hdv).symm
        · exact absurd (Merkle.node_of_le (hin (level + d) (by omega))) hto
      · exact absurd (ha level hk hde ht.1) hn

end EndOf

/-! ### What is kept -/

/-- Two trees, or two refusals, that show no difference. -/
def TreeAlike {S : Sapling} : Except ShieldedError (IncrementalMerkleTree S) →
    Except ShieldedError (IncrementalMerkleTree S) → Prop
  | .ok tree, .ok tree' => tree.depth = tree'.depth ∧
    tree.leaves.length = tree'.leaves.length ∧ tree.root = tree'.root
  | .error e, .error e' => e = e'
  | _, _ => False

/-- The tree is read back, and behaves the same whatever nodes it gets. -/
def TreeKept {S : Sapling} (tree : IncrementalMerkleTree S) : Prop :=
  ∃ tree', IncrementalMerkleTree.decodeJava S tree.encodeJava = .ok tree' ∧
    ∀ nodes : List Hash32, TreeAlike (nodes.foldlM IncrementalMerkleTree.append tree)
      (nodes.foldlM IncrementalMerkleTree.append tree')

/-- Two vouchers, or two refusals, that show no difference. -/
def VoucherAlike (S : Sapling) : Except ShieldedError IncrementalMerkleVoucher →
    Except ShieldedError IncrementalMerkleVoucher → Prop
  | .ok voucher, .ok voucher' => voucher.root S = voucher'.root S ∧ voucher.path = voucher'.path
  | .error e, .error e' => e = e'
  | _, _ => False

/-- The voucher is read back, and behaves the same whatever valid nodes it gets. -/
def VoucherKept (S : Sapling) (voucher : IncrementalMerkleVoucher) : Prop :=
  ∃ bytes voucher', voucher.encodeJava = .ok bytes ∧
    IncrementalMerkleVoucher.decodeJava S voucher.element bytes = .ok voucher' ∧
    ∀ nodes : List Hash32, (∀ node ∈ nodes, S.valid node = true) →
      VoucherAlike S (nodes.foldlM (IncrementalMerkleVoucher.append S) voucher)
        (nodes.foldlM (IncrementalMerkleVoucher.append S) voucher')

theorem VoucherAlike.isOk_iff {S : Sapling} {x y : Except ShieldedError IncrementalMerkleVoucher}
    (h : VoucherAlike S x y) : (∃ voucher, x = .ok voucher) ↔ ∃ voucher, y = .ok voucher := by
  cases x <;> cases y
  · simp
  · exact h.elim
  · exact h.elim
  · simp

theorem treeKept_iff {S : Sapling} (tree : IncrementalMerkleTree S) :
    TreeKept tree ↔ tree.leaves.length < 256 := by
  constructor
  · rintro ⟨tree', ht', -⟩
    refine Nat.lt_of_not_le fun hle => ?_
    rw [tree.decode_encode_of_le hle] at ht'
    cases ht'
  · intro hlt
    refine ⟨tree, tree.decode_encode hlt, fun nodes => ?_⟩
    cases nodes.foldlM IncrementalMerkleTree.append tree with
    | ok tree' => exact ⟨rfl, rfl, rfl⟩
    | error e => rfl

namespace IncrementalMerkleVoucher

variable {S : Sapling} {depth position : Nat} {l : List Hash32}
  {voucher voucher' : IncrementalMerkleVoucher} {nodes : List Hash32}

theorem foldlM_append_isOk (hd : voucher.path.siblings.length ≤ 63)
    (hp : voucher.path.position.toNat < voucher.nextPosition)
    (hv : ∀ node ∈ nodes, S.valid node = true) (hne : nodes ≠ []) :
    (∃ voucher', nodes.foldlM (append S) voucher = .ok voucher') ↔
      voucher.nextPosition + nodes.length ≤ 2 ^ voucher.path.siblings.length := by
  induction nodes generalizing voucher with
  | nil => exact absurd rfl hne
  | cons node nodes ih =>
    rw [List.forall_mem_cons] at hv
    rw [List.foldlM_cons, List.length_cons]
    rcases Nat.lt_or_ge voucher.nextPosition (2 ^ voucher.path.siblings.length) with hlt | hge
    · rw [append_space hd hp hlt hv.1, ok_bind]
      have hl : (voucher.advanced S node).path.siblings.length =
          voucher.path.siblings.length := List.length_set
      have hn : (voucher.advanced S node).nextPosition = voucher.nextPosition + 1 := rfl
      rcases nodes with _ | ⟨node', nodes⟩
      · simp only [List.foldlM_nil, List.length_nil, Nat.zero_add]
        exact ⟨fun _ => hlt, fun _ => ⟨_, rfl⟩⟩
      · rw [ih (hl ▸ hd) (Nat.lt_succ_of_lt hp) hv.2 (List.cons_ne_nil _ _),
          hl, hn]
        omega
    · rw [append_full hge hv.1, error_bind]
      constructor
      · rintro ⟨_, h⟩
        cases h
      · intro h
        omega

theorem Follows.alike (h : Follows S depth position l voucher)
    (h' : Follows S depth position l voucher') (hd : depth ≤ 32)
    (hl : l.length ≤ 2 ^ depth) (hv : ∀ node ∈ nodes, S.valid node = true) :
    VoucherAlike S (nodes.foldlM (IncrementalMerkleVoucher.append S) voucher)
      (nodes.foldlM (IncrementalMerkleVoucher.append S) voucher') := by
  induction nodes generalizing l voucher voucher' with
  | nil =>
    refine ⟨by rw [h.root hd hl, h'.root hd hl], ?_⟩
    exact JavaMerklePath.ext (h.siblings.trans h'.siblings.symm)
      (UInt64.toNat_inj.mp (h.position_eq.trans h'.position_eq.symm))
  | cons node nodes ih =>
    rw [List.forall_mem_cons] at hv
    rw [List.foldlM_cons, List.foldlM_cons]
    rcases Nat.lt_or_ge l.length (2 ^ depth) with hlt | hge
    · rw [h.append hd hlt hv.1, h'.append hd hlt hv.1]
      exact ih h.advanced h'.advanced (by rwa [List.length_append, List.length_singleton])
        hv.2
    · have hf := Nat.le_antisymm hl hge
      rw [h.append_full hf hv.1, h'.append_full hf hv.1]
      rfl

end IncrementalMerkleVoucher

/-- What the Sapling library returns encodes a node. -/
structure Sapling.Canonical (S : Sapling) : Prop where
  hash : ∀ d a b, S.valid (S.hash d a b) = true
  uncommitted : S.valid S.uncommitted = true

theorem Sapling.Canonical.empty {S : Sapling} (h : S.Canonical) (d : Nat) :
    S.valid (S.empty d) = true := by
  cases d with
  | zero => exact h.uncommitted
  | succ d => exact h.hash _ _ _

theorem Sapling.Canonical.node {S : Sapling} (h : S.Canonical) {l : List Hash32}
    (hl : ∀ leaf ∈ l, S.valid leaf = true) (d i : Nat) : S.valid (S.node l d i) = true := by
  rcases Nat.lt_or_ge (i * 2 ^ d) l.length with hlt | hge
  · cases d with
    | zero =>
      rw [Nat.pow_zero, Nat.mul_one] at hlt
      rw [Sapling.node, Merkle.node_zero hlt]
      exact hl _ (List.getElem_mem hlt)
    | succ d =>
      rw [Sapling.node, Merkle.node_succ hlt]
      exact h.hash _ _ _
  · rw [Sapling.node, Merkle.node_of_le hge]
    exact h.empty d

theorem IncrementalMerkleVoucher.Follows.kept_iff {S : Sapling} (h : S.Canonical)
    {depth position : Nat} {l : List Hash32} {voucher : IncrementalMerkleVoucher}
    (hf : voucher.Follows S depth position l) (hde : depth ≤ 32)
    (hlen : l.length ≤ 2 ^ depth) (hl : ∀ leaf ∈ l, S.valid leaf = true) :
    VoucherKept S voucher ↔ Resumable S position l := by
  have hpo := hf.position_lt
  have he : S.valid voucher.element = true := by
    obtain ⟨hp, he⟩ := List.getElem?_eq_some_iff.mp hf.element
    exact he ▸ hl _ (List.getElem_mem hp)
  have hsi : ∀ node ∈ voucher.path.siblings, S.valid node = true := by
    rw [hf.siblings]
    intro node hn
    obtain ⟨d, -, rfl⟩ := List.mem_map.mp hn
    exact h.node hl _ _
  have hs : voucher.path.siblings.length ≤ 63 := by
    rw [hf.length_siblings]
    omega
  obtain ⟨bytes, henc, hd⟩ :=
    JavaMerklePath.decode_encode (Nat.le_trans hs (by decide)) hsi
  obtain ⟨k, hk, hlo, hab, hto⟩ :=
    foldlM_resumeAt (S := S) (show depth ≤ 63 by omega) l position
  let found : IncrementalMerkleVoucher :=
    { element := voucher.element
      path := voucher.path
      nextPosition := endOf position k
      cursorDepth := none
      cursor := [] }
  have hs' : found.path.siblings.length ≤ 63 := hs
  have hr : decodeJava S voucher.element bytes = .ok found := by
    rw [decodeJava, parseNode, if_pos he, ok_bind, hd, ok_bind]
    simp only [hf.length_siblings, hf.position_eq]
    rw [if_neg (by rw [Nat.one_shiftLeft]; omega), hf.siblings, hlo]
    rfl
  rw [← endOf_eq_iff hpo hlen hab hto]
  constructor
  · rintro ⟨bytes', voucher', he', hd', ha⟩
    rw [encodeJava, henc, Except.ok.injEq] at he'
    rw [← he', hr, Except.ok.injEq] at hd'
    rw [← hd'] at ha
    have hen : endOf position k ≤ 2 ^ depth := by
      have hle : endOf position k ≤ endOf position depth := endOf_mono hk
      rwa [endOf, endOf, Nat.div_eq_of_lt (show position < 2 ^ depth by omega), Nat.zero_add,
        Nat.one_mul, ← endOf] at hle
    -- both take the same number of leaves
    have hc : ∀ count, 0 < count →
        (l.length + count ≤ 2 ^ depth ↔ endOf position k + count ≤ 2 ^ depth) := by
      intro count hpos
      have hv : ∀ node ∈ List.replicate count voucher.element, S.valid node = true :=
        fun node hn => List.eq_of_mem_replicate hn ▸ he
      have hne : List.replicate count voucher.element ≠ [] := by
        rw [ne_eq, List.replicate_eq_nil_iff]
        omega
      have h₁ := foldlM_append_isOk hs
        (by rw [hf.position_eq, hf.next]; exact hpo) hv hne
      have h₂ := foldlM_append_isOk hs'
        (by rw [hf.position_eq]; exact lt_endOf position k) hv hne
      rw [hf.next, hf.length_siblings, List.length_replicate] at h₁
      rw [hf.length_siblings, List.length_replicate] at h₂
      rw [← h₁, ← h₂]
      exact (ha _ hv).isOk_iff
    rcases Nat.lt_trichotomy (endOf position k) l.length with hlt | heq | hlt
    · have := (hc (2 ^ depth - endOf position k) (by omega)).mpr (by omega)
      omega
    · exact heq
    · have := (hc (2 ^ depth - l.length) (by omega)).mp (by omega)
      omega
  · intro hen
    refine ⟨bytes, _, henc, hr, fun nodes hv => ?_⟩
    refine hf.alike ⟨hf.element, hf.siblings, hf.position_eq, hen, ?_⟩
      hde hlen hv
    intro d ht
    rw [← hen] at ht
    rw [← hen, ht.2, ← endOf, ← endOf_of_turn ht, hen, List.drop_length]
    exact ite_self _

/-- What the codecs keep: every path of valid nodes, the trees whose count fits in a byte, and the
vouchers whose last sibling is full and tells from an empty one. -/
theorem codecs_keep_iff {S : Sapling} (h : S.Canonical) :
    (∀ path : JavaMerklePath, path.siblings.length ≤ 252 →
      (∀ node ∈ path.siblings, S.valid node = true) →
      ∃ bytes, path.encode = .ok bytes ∧ JavaMerklePath.decode S bytes = .ok path) ∧
    (∀ tree : IncrementalMerkleTree S, TreeKept tree ↔ tree.leaves.length < 256) ∧
    ∀ (tree : IncrementalMerkleTree S) (witness : IncrementalWitness S)
      (voucher : IncrementalMerkleVoucher), Joined tree witness voucher →
      (VoucherKept S voucher ↔ Resumable S witness.position witness.leaves) := by
  refine ⟨fun path hlength hvalid => JavaMerklePath.decode_encode hlength hvalid, treeKept_iff,
    fun tree witness voucher hjoined => ?_⟩
  obtain ⟨-, -, hfollows⟩ := hjoined.follows
  exact hfollows.kept_iff h witness.depth_le witness.length_le witness.leaves_valid

/-- The library's nodes are canonical. -/
theorem sampleSapling_canonical : sampleSapling.Canonical := by
  have hroots : ∀ root ∈ 0 :: emptyRoots,
      sampleSapling.valid ⟨beBytes 32 root, length_beBytes _ _⟩ = true := by decide +kernel
  have hat (depth : Nat) : sampleSapling.valid (emptyRootAt depth) = true := by
    refine hroots _ ?_
    rw [List.getD_eq_getElem?_getD]
    cases hroot : emptyRoots[depth]? with
    | none => exact List.mem_cons_self
    | some root => exact List.mem_cons_of_mem _ (List.mem_of_getElem? hroot)
  exact ⟨fun d _ _ => hat (d + 1), hat 0⟩

theorem sample_codecs_keep : sampleSapling.Canonical ∧
    (VoucherKept sampleSapling sampleVoucher ↔
      Resumable sampleSapling 0 [sampleSapling.uncommitted]) :=
  ⟨sampleSapling_canonical, (codecs_keep_iff sampleSapling_canonical).2.2 sampleTree
    sampleWitness sampleVoucher sample_joined⟩

/-- A tree with as many leaves as a byte does not tell. -/
def sampleFullTree : IncrementalMerkleTree sampleSapling where
  depth := 8
  leaves := List.replicate 256 sampleSapling.uncommitted
  depth_pos := by decide
  depth_le := by decide
  leaves_valid leaf hleaf := List.eq_of_mem_replicate hleaf ▸ by decide
  length_le := by rw [List.length_replicate]; decide

theorem sampleFullTree_not_kept : ¬ TreeKept sampleFullTree := by
  rintro ⟨tree', htree', -⟩
  rw [sampleFullTree.decode_encode_of_le (by rw [sampleFullTree, List.length_replicate])] at htree'
  cases htree'

end RustTron.Shielded
