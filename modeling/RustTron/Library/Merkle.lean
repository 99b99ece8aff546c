import Mathlib

/-!
# Merkle trees over a list of leaves

A tree of a fixed depth is filled from the left.  Its nodes are described by level and index: the
node at level `d` and index `i` stands over the leaves from `i * 2 ^ d` on, `2 ^ d` of them.  A
node without leaves is the empty node of its level, whatever that is; every other is the
combination of its two children.

A node depends on its own leaves only.  From this follow the two ways to keep a tree without
keeping its leaves: the siblings of a path, which are complete or untouched except for one, and
the frontier of complete left siblings.

## Main definitions

* `Merkle.node`: the nodes of a tree
* `Merkle.level`, `Merkle.up`: the nodes of a level that have leaves, and the level above
* `Merkle.climb`: the root of a path, from a leaf and its siblings
* `Merkle.Turn`: the level at which a later leaf leaves the way of an earlier one
* `Merkle.IsFrontier`: at each level the last left sibling whose leaves are all there

## Main results

* `Merkle.node_congr`: a node depends on its leaves only
* `Merkle.up_level`: a level and the level above
* `Merkle.climb_siblings`: the siblings of a leaf lead to the root
* `Merkle.turn_log2`, `Merkle.Turn.unique`: where the ways of two leaves part
* `Merkle.IsFrontier.concat`: a leaf that is added completes one left sibling
* `Merkle.node_over_last`: the way up from the last leaf needs the frontier only
-/

namespace Merkle

variable {H : Type} (combine : Nat → H → H → H) (empty : Nat → H)

/-- The node at a level and an index. -/
def node (l : List H) : Nat → Nat → H
  | 0, i => l.getD i (empty 0)
  | d + 1, i =>
    if l.length ≤ i * 2 ^ (d + 1) then empty (d + 1)
    else combine d (node l d (2 * i)) (node l d (2 * i + 1))

section Node

variable {combine empty} {l m : List H} {d i j k : Nat}

/-- A node without leaves is empty. -/
theorem node_of_le (h : l.length ≤ i * 2 ^ d) : node combine empty l d i = empty d := by
  cases d with
  | zero =>
    rw [Nat.pow_zero, Nat.mul_one] at h
    rw [node, List.getD_eq_default _ _ h]
  | succ d => rw [node, if_pos h]

theorem node_succ (h : i * 2 ^ (d + 1) < l.length) : node combine empty l (d + 1) i =
    combine d (node combine empty l d (2 * i)) (node combine empty l d (2 * i + 1)) := by
  rw [node, if_neg (not_le.mpr h)]

theorem node_zero (h : i < l.length) : node combine empty l 0 i = l[i] := by
  rw [node, List.getD_eq_getElem _ _ h]

theorem mul_two_pow_succ (i d : Nat) : i * 2 ^ (d + 1) = 2 * i * 2 ^ d := by
  rw [pow_succ]
  ring

theorem succ_mul_two_pow (i d : Nat) : (2 * i + 1) * 2 ^ d = i * 2 ^ (d + 1) + 2 ^ d := by
  rw [pow_succ]
  ring

/-- A node depends on its leaves only, wherever they stand. -/
theorem node_congr (h : ∀ r < 2 ^ d, l[i * 2 ^ d + r]? = m[k * 2 ^ d + r]?) :
    node combine empty l d i = node combine empty m d k := by
  induction d generalizing i k with
  | zero =>
    have h0 := h 0 (by decide)
    simp only [Nat.pow_zero, Nat.mul_one, Nat.add_zero] at h0
    simp only [node, List.getD_eq_getElem?_getD, h0]
  | succ d ih =>
    have hpo : 2 ^ (d + 1) = 2 ^ d + 2 ^ d := by rw [pow_succ]; omega
    have hp : 0 < 2 ^ d := Nat.two_pow_pos d
    have he : l.length ≤ i * 2 ^ (d + 1) ↔ m.length ≤ k * 2 ^ (d + 1) := by
      have h0 := h 0 (Nat.two_pow_pos _)
      simp only [Nat.add_zero] at h0
      rw [← List.getElem?_eq_none_iff, ← List.getElem?_eq_none_iff, h0]
    have hl : node combine empty l d (2 * i) = node combine empty m d (2 * k) := by
      refine ih fun r hr => ?_
      have := h r (by omega)
      rwa [mul_two_pow_succ, mul_two_pow_succ] at this
    have hri : node combine empty l d (2 * i + 1) = node combine empty m d (2 * k + 1) := by
      refine ih fun r hr => ?_
      have := h (2 ^ d + r) (by omega)
      rwa [← Nat.add_assoc, ← Nat.add_assoc, ← succ_mul_two_pow, ← succ_mul_two_pow] at this
    rw [node, node, hl, hri]
    simp only [he]

/-- The leaf at position `j` is under the node at index `j / 2 ^ d` of level `d`, and a leaf that
is added changes no other node of the level. -/
theorem node_concat (x : H) (h : l.length / 2 ^ d ≠ i) :
    node combine empty (l ++ [x]) d i = node combine empty l d i := by
  refine node_congr fun r hr => ?_
  by_cases hl : i * 2 ^ d + r < l.length
  · rw [List.getElem?_append_left hl]
  · have hne : i * 2 ^ d + r ≠ l.length := by
      intro he
      refine h ?_
      rw [← he, Nat.mul_comm, Nat.mul_add_div (Nat.two_pow_pos d), Nat.div_eq_of_lt hr,
        Nat.add_zero]
    rw [List.getElem?_eq_none (by rw [List.length_append, List.length_singleton]; omega),
      List.getElem?_eq_none (by omega)]

/-- A node whose leaves are there already does not change. -/
theorem node_append_of_le (h : (i + 1) * 2 ^ d ≤ l.length) :
    node combine empty (l ++ m) d i = node combine empty l d i := by
  refine node_congr fun r hr => ?_
  have : i * 2 ^ d + r < l.length := by
    rw [Nat.add_mul, Nat.one_mul] at h
    omega
  rw [List.getElem?_append_left this]

/-- The leaves from a node on, as a tree of their own. -/
theorem node_drop : node combine empty (l.drop (i * 2 ^ d)) d 0 = node combine empty l d i := by
  refine node_congr fun r _ => ?_
  rw [List.getElem?_drop, Nat.zero_mul, Nat.zero_add]

end Node

/-! ### Levels -/

/-- How many nodes of a level stand over one of `n` leaves. -/
def width (n : Nat) : Nat → Nat
  | 0 => n
  | d + 1 => (width n d + 1) / 2

theorem lt_width {n d i : Nat} : i < width n d ↔ i * 2 ^ d < n := by
  induction d generalizing i with
  | zero => simp [width]
  | succ d ih =>
    have h := ih (i := 2 * i)
    rw [width, mul_two_pow_succ, ← h]
    omega

/-- The nodes of a level that have leaves. -/
def level (l : List H) (d : Nat) : List H :=
  (List.range (width l.length d)).map (node combine empty l d)

/-- A level with an even number of nodes. -/
def pad (d : Nat) (nodes : List H) : List H :=
  if nodes.length % 2 = 1 then nodes ++ [empty d] else nodes

/-- The nodes over pairs of nodes. -/
def pairUp (d : Nat) : List H → List H
  | a :: b :: rest => combine d a b :: pairUp d rest
  | _ => []

/-- The level above. -/
def up (d : Nat) (nodes : List H) : List H := pairUp combine d (pad empty d nodes)

section Level

variable {combine empty} {l : List H} {d : Nat}

theorem pairUp_map (f : Nat → H) (n : Nat) :
    pairUp combine d ((List.range (2 * n)).map f) =
      (List.range n).map fun i => combine d (f (2 * i)) (f (2 * i + 1)) := by
  induction n generalizing f with
  | zero => rfl
  | succ n ih =>
    rw [show 2 * (n + 1) = 2 * n + 1 + 1 by ring, List.range_succ_eq_map, List.range_succ_eq_map,
      List.map_cons, List.map_cons, List.map_cons, List.map_map, List.map_map, pairUp, ih,
      List.range_succ_eq_map, List.map_cons, List.map_map]
    rfl

theorem level_zero (l : List H) : level combine empty l 0 = l := by
  refine List.ext_getElem (by simp [level, width]) fun i hi hi' => ?_
  simp only [level, List.getElem_map, List.getElem_range, node_zero hi']

/-- The level above the nodes of a level is the nodes of the next. -/
theorem up_level (l : List H) (d : Nat) :
    up combine empty d (level combine empty l d) = level combine empty l (d + 1) := by
  have hp : pad empty d (level combine empty l d) =
      (List.range (2 * width l.length (d + 1))).map (node combine empty l d) := by
    have hl : (level combine empty l d).length = width l.length d := by simp [level]
    rw [pad, hl]
    split
    next ho =>
      have hn : node combine empty l d (width l.length d) = empty d :=
        node_of_le (not_lt.mp fun h => absurd (lt_width.mpr h) (lt_irrefl _))
      rw [show 2 * width l.length (d + 1) = width l.length d + 1 by rw [width]; omega,
        List.range_succ, List.map_append, List.map_singleton, hn]
      rfl
    next he =>
      rw [show 2 * width l.length (d + 1) = width l.length d by rw [width]; omega]
      rfl
  rw [up, hp, pairUp_map, level]
  refine List.map_congr_left fun i hi => (node_succ ?_).symm
  exact lt_width.mp (List.mem_range.mp hi)

end Level

/-! ### Paths -/

/-- The index of the sibling of an index. -/
def sibling (i : Nat) : Nat := if i % 2 = 0 then i + 1 else i - 1

/-- The node reached from a node at level `d` and the siblings from there on. -/
def climb (position d : Nat) (root : H) : List H → H
  | [] => root
  | s :: siblings =>
    climb position (d + 1)
      (if position / 2 ^ d % 2 = 0 then combine d root s else combine d s root) siblings

/-- The siblings on the way up from a leaf. -/
def siblings (l : List H) (position depth : Nat) : List H :=
  (List.range depth).map fun d => node combine empty l d (sibling (position / 2 ^ d))

section Path

variable {combine empty} {l : List H} {position depth : Nat}

/-- A leaf and its siblings lead to the root. -/
theorem climb_siblings (h : position < l.length) (hde : position < 2 ^ depth) :
    climb combine position 0 (l[position]) (siblings combine empty l position depth) =
      node combine empty l depth 0 := by
  have hc : ∀ n d, d + n = depth →
      climb combine position d (node combine empty l d (position / 2 ^ d))
        ((List.range' d n).map fun d => node combine empty l d (sibling (position / 2 ^ d))) =
      node combine empty l depth (position / 2 ^ depth) := by
    intro n
    induction n with
    | zero =>
      intro d hd
      rw [Nat.add_zero] at hd
      rw [hd]
      rfl
    | succ n ih =>
      intro d hd
      have hp : position / 2 ^ (d + 1) = position / 2 ^ d / 2 := by
        rw [pow_succ, Nat.div_div_eq_div_mul]
      have hlt : position / 2 ^ (d + 1) * 2 ^ (d + 1) < l.length :=
        lt_of_le_of_lt (Nat.div_mul_le_self _ _) h
      rw [List.range'_succ, List.map_cons, climb, ← ih (d + 1) (by omega), node_succ hlt, hp]
      congr 1
      rcases Nat.mod_two_eq_zero_or_one (position / 2 ^ d) with he | ho
      · have hs : 2 * (position / 2 ^ d / 2) = position / 2 ^ d := by omega
        simp only [sibling, he, if_true, hs]
      · have hl : 2 * (position / 2 ^ d / 2) = position / 2 ^ d - 1 := by omega
        have hs : position / 2 ^ d - 1 + 1 = position / 2 ^ d := by omega
        simp only [sibling, ho, one_ne_zero, if_false, hl, hs]
  have hr := hc depth 0 (Nat.zero_add depth)
  rw [Nat.pow_zero, Nat.div_one, node_zero h, Nat.div_eq_of_lt hde,
    ← List.range_eq_range'] at hr
  exact hr

end Path

/-! ### Where two ways part -/

/-- At level `d` the way of the later leaf `n` is the right sibling of the way of `p`. -/
def Turn (p n d : Nat) : Prop := p / 2 ^ d % 2 = 0 ∧ n / 2 ^ d = p / 2 ^ d + 1

section Turn

variable {p n m d e : Nat}

/-- Above a turn the ways are the same. -/
theorem Turn.div_eq (h : Turn p n d) (he : d < e) : n / 2 ^ e = p / 2 ^ e := by
  obtain ⟨k, rfl⟩ := Nat.exists_eq_add_of_lt he
  have hs : 2 ^ (d + k + 1) = 2 ^ d * (2 * 2 ^ k) := by
    rw [show d + k + 1 = d + (k + 1) by omega, pow_add, pow_succ]
    ring
  rw [hs, ← Nat.div_div_eq_div_mul, ← Nat.div_div_eq_div_mul, h.2,
    ← Nat.div_div_eq_div_mul, ← Nat.div_div_eq_div_mul]
  congr 1
  have := h.1
  omega

theorem Turn.unique (h : Turn p n d) (h' : Turn p n e) : d = e := by
  rcases lt_trichotomy d e with hlt | heq | hlt
  · have := h.div_eq hlt
    have := h'.2
    omega
  · exact heq
  · have := h'.div_eq hlt
    have := h.2
    omega

/-- The ways of two leaves part at the highest bit they differ in. -/
theorem turn_log2 (h : p < n) : Turn p n (p ^^^ n).log2 := by
  have hne : p ^^^ n ≠ 0 := fun h0 => by
    rw [Nat.xor_eq_zero_iff] at h0
    omega
  have hh : n / 2 ^ ((p ^^^ n).log2 + 1) = p / 2 ^ ((p ^^^ n).log2 + 1) := by
    refine Nat.eq_of_testBit_eq fun i => ?_
    have hb : (p ^^^ n).testBit ((p ^^^ n).log2 + 1 + i) = false :=
      Nat.testBit_lt_two_pow (lt_of_lt_of_le Nat.lt_log2_self
        (Nat.pow_le_pow_right (by decide) (by omega)))
    rw [Nat.testBit_xor] at hb
    rw [Nat.testBit_div_two_pow, Nat.testBit_div_two_pow, Nat.add_comm i]
    cases hp : p.testBit ((p ^^^ n).log2 + 1 + i) <;>
      cases hn : n.testBit ((p ^^^ n).log2 + 1 + i) <;> simp_all
  have hb : p / 2 ^ (p ^^^ n).log2 % 2 ≠ n / 2 ^ (p ^^^ n).log2 % 2 := by
    intro he
    have hs : (p ^^^ n).testBit (p ^^^ n).log2 = true := Nat.testBit_log2 hne
    rw [Nat.testBit_xor, Nat.testBit_eq_decide_div_mod_eq, Nat.testBit_eq_decide_div_mod_eq, he,
      Bool.xor_self] at hs
    cases hs
  have hle : p / 2 ^ (p ^^^ n).log2 ≤ n / 2 ^ (p ^^^ n).log2 := Nat.div_le_div_right h.le
  rw [pow_succ, ← Nat.div_div_eq_div_mul, ← Nat.div_div_eq_div_mul] at hh
  refine ⟨?_, ?_⟩ <;> omega

/-- Where a leaf parts from an earlier one, the leaf before it parted there too or its subtree is
new. -/
theorem Turn.of_succ (h : Turn p (n + 1) d) : Turn p n d ∨ 2 ^ d ∣ n + 1 := by
  by_cases hd : 2 ^ d ∣ n + 1
  · exact .inr hd
  · have hdi : (n + 1) / 2 ^ d = n / 2 ^ d := by rw [Nat.succ_div, if_neg hd, Nat.add_zero]
    exact .inl ⟨h.1, hdi.symm.trans h.2⟩

/-- The leaves on the other side of a turn start half a subtree further. -/
theorem half_up (h : p / 2 ^ d % 2 = 0) :
    p / 2 ^ (d + 1) * 2 ^ (d + 1) + 2 ^ d = (p / 2 ^ d + 1) * 2 ^ d := by
  have hs : 2 * (p / 2 ^ d / 2) = p / 2 ^ d := by omega
  rw [mul_two_pow_succ, pow_succ, ← Nat.div_div_eq_div_mul, hs, Nat.add_mul, Nat.one_mul]

/-- A later leaf under the sibling at a level turns there. -/
theorem turn_of_sibling (hp : p ≤ n) (h : n / 2 ^ d = sibling (p / 2 ^ d)) : Turn p n d := by
  have hle : p / 2 ^ d ≤ n / 2 ^ d := Nat.div_le_div_right hp
  rw [sibling] at h
  split at h
  next he => exact ⟨he, h⟩
  next ho =>
    generalize p / 2 ^ d = i at h hle ho
    omega

/-- A leaf parts from an earlier one below the depth of the tree. -/
theorem Turn.lt_depth (h : Turn p n d) (hn : n < 2 ^ e) : d < e := by
  by_contra hge
  have hle : 2 ^ e ≤ 2 ^ d := Nat.pow_le_pow_right (by decide) (not_lt.mp hge)
  have hz : n / 2 ^ d = 0 := Nat.div_eq_of_lt (lt_of_lt_of_le hn hle)
  exact Nat.succ_ne_zero _ (h.2.symm.trans hz)

/-- One more leaf changes one sibling of an earlier leaf. -/
theorem siblings_concat {combine : Nat → H → H → H} {empty : Nat → H} {l : List H} {x : H}
    {depth : Nat} (hp : p < l.length) (ht : Turn p l.length d) :
    siblings combine empty (l ++ [x]) p depth =
      (siblings combine empty l p depth).set d
        (node combine empty (l ++ [x]) d (p / 2 ^ d + 1)) := by
  refine List.ext_getElem (by simp [siblings]) fun i hi hi' => ?_
  simp only [siblings, List.getElem_set, List.getElem_map, List.getElem_range]
  split
  next heq => rw [← heq, sibling, if_pos ht.1]
  next hne =>
    refine node_concat _ fun hs => hne ?_
    exact ht.unique (turn_of_sibling hp.le hs)

end Turn

/-! ### Frontiers -/

section Frontier

variable {combine empty} {l f : List H} {x : H} {d i n depth : Nat}

/-- At each level up to a depth, `f` has the last left sibling whose leaves are all in `l`. -/
def IsFrontier (combine : Nat → H → H → H) (empty : Nat → H) (depth : Nat) (l f : List H) : Prop :=
  ∀ d ≤ depth, ∀ i, (2 * i + 1) * 2 ^ d ≤ l.length → l.length < (2 * i + 3) * 2 ^ d →
    f[d]? = some (node combine empty l d (2 * i))

/-- A tree without leaves has no left sibling to keep. -/
theorem isFrontier_nil : IsFrontier combine empty depth [] f := fun d _ _ hle =>
  absurd hle (not_le.mpr (Nat.mul_pos (Nat.succ_pos _) (Nat.two_pow_pos d)))

/-- The level and the index of the left sibling that a leaf completes are unique. -/
theorem odd_mul_two_pow_inj {e j : Nat} (h : (2 * i + 1) * 2 ^ d = (2 * j + 1) * 2 ^ e) :
    d = e ∧ i = j := by
  wlog hle : d ≤ e generalizing d e i j
  · obtain ⟨hde, hij⟩ := this h.symm (Nat.le_of_not_le hle)
    exact ⟨hde.symm, hij.symm⟩
  obtain ⟨k, rfl⟩ := Nat.exists_eq_add_of_le hle
  rw [pow_add, Nat.mul_comm (2 ^ d), ← Nat.mul_assoc] at h
  have heq := Nat.eq_of_mul_eq_mul_right (Nat.two_pow_pos d) h
  cases k with
  | zero => exact ⟨rfl, by omega⟩
  | succ k =>
    rw [pow_succ, ← Nat.mul_assoc] at heq
    omega

/-- A leaf that is added completes one left sibling. -/
theorem IsFrontier.concat (h : IsFrontier combine empty depth l f) (hd : d < f.length)
    (hc : l.length + 1 = (2 * i + 1) * 2 ^ d) :
    IsFrontier combine empty depth (l ++ [x])
      (f.set d (node combine empty (l ++ [x]) d (2 * i))) := by
  intro e he j hle hlt
  rw [List.length_append, List.length_singleton] at hle hlt
  rcases Nat.lt_or_eq_of_le hle with hb | hn
  · have hne : d ≠ e := by
      rintro rfl
      -- the next left sibling of the level is two further
      rw [hc] at hb hlt
      have h₁ := Nat.lt_of_mul_lt_mul_right hb
      have h₂ := Nat.lt_of_mul_lt_mul_right hlt
      omega
    rw [List.getElem?_set_ne hne, h e he j (by omega) (by omega),
      node_append_of_le (Nat.le_of_lt_succ hb)]
  · obtain ⟨rfl, rfl⟩ := odd_mul_two_pow_inj (hn.trans hc)
    rw [List.getElem?_set_self hd]

/-- On the way up from the last leaf, the left sibling is in the frontier and the right sibling is
empty.  The frontier may have the last leaf or not. -/
theorem node_over_last (h : IsFrontier combine empty depth l f ∨
    IsFrontier combine empty depth (l ++ [x]) f) (hd : d < depth) :
    (l.length / 2 ^ d % 2 = 0 →
      node combine empty (l ++ [x]) (d + 1) (l.length / 2 ^ (d + 1)) =
        combine d (node combine empty (l ++ [x]) d (l.length / 2 ^ d)) (empty d)) ∧
    (l.length / 2 ^ d % 2 = 1 → ∃ left, f[d]? = some left ∧
      node combine empty (l ++ [x]) (d + 1) (l.length / 2 ^ (d + 1)) =
        combine d left (node combine empty (l ++ [x]) d (l.length / 2 ^ d))) := by
  have hle : (l ++ [x]).length = l.length + 1 := List.length_append
  have hst : l.length / 2 ^ d * 2 ^ d ≤ l.length := Nat.div_mul_le_self _ _
  have hen : l.length < (l.length / 2 ^ d + 1) * 2 ^ d :=
    Nat.mul_comm (2 ^ d) _ ▸ Nat.lt_mul_div_succ l.length (Nat.two_pow_pos d)
  have hp : l.length / 2 ^ (d + 1) = l.length / 2 ^ d / 2 := by
    rw [pow_succ, Nat.div_div_eq_div_mul]
  have hn : node combine empty (l ++ [x]) (d + 1) (l.length / 2 ^ (d + 1)) =
      combine d (node combine empty (l ++ [x]) d (2 * (l.length / 2 ^ (d + 1))))
        (node combine empty (l ++ [x]) d (2 * (l.length / 2 ^ (d + 1)) + 1)) :=
    node_succ (by have := Nat.div_mul_le_self l.length (2 ^ (d + 1)); omega)
  rw [hp] at hn ⊢
  generalize l.length / 2 ^ d = q at *
  refine ⟨fun hev => ?_, fun ho => ?_⟩
  · have hs : 2 * (q / 2) = q := by omega
    have he : node combine empty (l ++ [x]) d (q + 1) = empty d := node_of_le (by omega)
    rw [hn, hs, he]
  · have hl : 2 * (q / 2) + 1 = q := by omega
    have hc : (2 * (q / 2) + 1) * 2 ^ d ≤ l.length := by rwa [hl]
    have hne : l.length + 1 < (2 * (q / 2) + 3) * 2 ^ d := by
      have hpo := Nat.two_pow_pos d
      rw [show 2 * (q / 2) + 3 = q + 1 + 1 by omega, Nat.add_mul (q + 1), Nat.one_mul]
      omega
    refine ⟨node combine empty (l ++ [x]) d (2 * (q / 2)), ?_, by rw [hn, hl]⟩
    rcases h with h | h
    · rw [h d hd.le _ hc (by omega), node_append_of_le hc]
    · exact h d hd.le _ (by omega) (by omega)

end Frontier

end Merkle
