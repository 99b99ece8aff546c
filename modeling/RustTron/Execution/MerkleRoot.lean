import RustTron.Execution.Node
import RustTron.Library.PairTree
import RustTron.Library.Results

/-!
# The root over the transactions of a block

The block manager computes the root with the digest of its engine, the primitives with any digest
that may fail.  Both go up level by level, and an unpaired hash goes up unchanged.

## Main definitions

* `merkleRoot`: the root of the primitives
* `hashedStrings`: the strings that are digested for a root

## Main results

* `merkle_commits`: the two roots are the same, and they tell lists of the same length apart
-/

namespace RustTron.Execution

open PairTree

/-! ### The root of the primitives -/

section Provider

variable {ε α : Type} (digest : Bytes → Except ε Hash32)

def digestPair (left right : Hash32) : Except ε Hash32 := digest (left.bytes ++ right.bytes)

/-- `chunks_exact(2)`: the pairs, and the item that remains. -/
def chunksExact : List α → List (α × α) × Option α
  | [] => ([], none)
  | [last] => ([], some last)
  | left :: right :: rest => ((left, right) :: (chunksExact rest).1, (chunksExact rest).2)

/-- The digests of pairs, up to an error. -/
def digestPairs : List (Hash32 × Hash32) → Except ε (List Hash32)
  | [] => .ok []
  | (left, right) :: pairs => do
    let parent ← digestPair digest left right
    let parents ← digestPairs pairs
    return parent :: parents

/-- One round of `merkle_root`. -/
def parents (level : List Hash32) : Except ε (List Hash32) := do
  let parents ← digestPairs digest (chunksExact level).1
  return parents ++ (chunksExact level).2.toList

variable {digest}

theorem length_digestPairs {pairs : List (Hash32 × Hash32)} {l : List Hash32}
    (h : digestPairs digest pairs = .ok l) : l.length = pairs.length := by
  induction pairs generalizing l with
  | nil =>
    cases h
    rfl
  | cons pair pairs ih =>
    rw [digestPairs] at h
    obtain ⟨parent, -, h⟩ := bind_eq_ok_iff.mp h
    obtain ⟨parents, hp, h⟩ := bind_eq_ok_iff.mp h
    rw [pure_eq_ok_iff] at h
    rw [← h, List.length_cons, List.length_cons, ih hp]

theorem length_chunksExact (l : List α) :
    (chunksExact l).1.length + (chunksExact l).2.toList.length = (l.length + 1) / 2 := by
  induction l using chunksExact.induct with
  | case1 => simp [chunksExact]
  | case2 last => simp [chunksExact]
  | case3 left right rest ih =>
    simp only [chunksExact, List.length_cons]
    omega

theorem length_parents_lt {level next : List Hash32} (hlev : 1 < level.length)
    (h : parents digest level = .ok next) : next.length < level.length := by
  rw [parents] at h
  obtain ⟨l, hl, h⟩ := bind_eq_ok_iff.mp h
  rw [pure_eq_ok_iff] at h
  have hle := length_digestPairs hl
  have hc := length_chunksExact level
  rw [← h, List.length_append]
  omega

variable (digest)

/-- The loop of `merkle_root`. -/
def rootLoop (level : List Hash32) : Except ε Hash32 :=
  if _hlevel : 1 < level.length then
    match _hnext : parents digest level with
    | .error error => .error error
    | .ok next => rootLoop next
  else .ok (level.headD Hash32.zero)
termination_by level.length
decreasing_by exact length_parents_lt _hlevel _hnext

def merkleRoot (leaves : List Hash32) : Except ε Hash32 :=
  if leaves.isEmpty then .ok Hash32.zero else rootLoop digest leaves

end Provider

/-! ### The two roots -/

variable {H ε : Type} (env : Environment H)

/-- The digest of two hashes. -/
def combine (left right : Hash32) : Hash32 := env.digest (left.bytes ++ right.bytes)

/-- The strings that are digested for the root of some leaves. -/
def hashedStrings (leaves : List Hash32) : List Bytes :=
  (joinedIn (combine env) leaves.length leaves).map fun pair => pair.1.bytes ++ pair.2.bytes

theorem merkleLevel_eq (level : List Hash32) : merkleLevel env level = up (combine env) level := by
  induction level using up.induct with
  | case1 => rw [merkleLevel, up]
  | case2 last => rw [merkleLevel, up]
  | case3 left right rest ih => rw [merkleLevel, up, ih]; rfl

theorem merkle_eq (leaves : List Hash32) :
    merkle env leaves =
      (((up (combine env))^[leaves.length] leaves).headD Hash32.zero).bytes := by
  have hl : merkleLevel env = up (combine env) := funext (merkleLevel_eq env)
  rw [merkle, hl]
  cases (up (combine env))^[leaves.length] leaves <;> rfl

theorem parents_eq (level : List Hash32) :
    parents (fun bytes => (.ok (env.digest bytes) : Except ε Hash32)) level =
      .ok (up (combine env) level) := by
  induction level using up.induct with
  | case1 => simp [parents, chunksExact, digestPairs, up, ok_bind, pure, Except.pure]
  | case2 last => simp [parents, chunksExact, digestPairs, up, ok_bind, pure, Except.pure]
  | case3 left right rest ih =>
    rw [parents] at ih ⊢
    obtain ⟨l, hl, ih⟩ := bind_eq_ok_iff.mp ih
    rw [pure_eq_ok_iff] at ih
    simp only [chunksExact, digestPairs, digestPair, ok_bind, hl, up, ← ih]
    rfl

theorem rootLoop_eq (n : Nat) : ∀ level : List Hash32, level.length ≤ n + 1 →
    rootLoop (fun bytes => (.ok (env.digest bytes) : Except ε Hash32)) level =
      .ok (((up (combine env))^[n] level).headD Hash32.zero) := by
  induction n with
  | zero =>
    intro level h
    rw [rootLoop, dif_neg (by omega)]
    rfl
  | succ n ih =>
    intro level h
    rw [rootLoop, Function.iterate_succ_apply]
    by_cases hl : 1 < level.length
    · have hn := ih (up (combine env) level) (by rw [length_up]; omega)
      rw [dif_pos hl]
      split
      next error he =>
        rw [parents_eq] at he
        cases he
      next next hp =>
        rw [parents_eq, Except.ok.injEq] at hp
        rw [← hp, hn]
    · rw [dif_neg hl, up_of_length_le_one (by omega)]
      have hi : ∀ k, (up (combine env))^[k] level = level := fun k =>
        Function.iterate_fixed (up_of_length_le_one (by omega)) k
      rw [hi]

theorem iterate_up_eq_singleton {leaves : List Hash32} (h : leaves ≠ []) :
    (up (combine env))^[leaves.length] leaves =
      [((up (combine env))^[leaves.length] leaves).headD Hash32.zero] := by
  have hne : (up (combine env))^[leaves.length] leaves ≠ [] := iterate_up_ne_nil _ leaves h
  have hle : ((up (combine env))^[leaves.length] leaves).length ≤ 1 :=
    length_iterate_up _ leaves (Nat.le_succ _)
  match hl : (up (combine env))^[leaves.length] leaves with
  | [] => exact absurd hl hne
  | [root] => rfl
  | _ :: _ :: _ => simp [hl] at hle

theorem apart_of_strings {pairs : List (Hash32 × Hash32)}
    (h : ∀ a ∈ pairs.map fun pair => pair.1.bytes ++ pair.2.bytes,
      ∀ b ∈ pairs.map fun pair => pair.1.bytes ++ pair.2.bytes, env.digest a = env.digest b → a = b) :
    Apart (combine env) pairs := by
  intro p hp q hq hc
  have hb := h _ (List.mem_map.mpr ⟨p, hp, rfl⟩) _ (List.mem_map.mpr ⟨q, hq, rfl⟩) hc
  obtain ⟨hl, hr⟩ :=
    List.append_inj hb (p.1.length_eq.trans q.1.length_eq.symm)
  exact Prod.ext (Hash32.ext hl) (Hash32.ext hr)

/-- The two roots are the same, and lists of the same length with the same root are the same, where
the digests of the strings that are digested for them are. -/
theorem merkle_commits :
    (∀ leaves, ∃ root,
      merkleRoot (fun bytes => (.ok (env.digest bytes) : Except ε Hash32)) leaves = .ok root ∧
      root.bytes = merkle env leaves) ∧
    ∀ leaves leaves' : List Hash32, leaves.length = leaves'.length →
      (∀ a ∈ hashedStrings env leaves ++ hashedStrings env leaves',
        ∀ b ∈ hashedStrings env leaves ++ hashedStrings env leaves',
          env.digest a = env.digest b → a = b) →
      merkle env leaves = merkle env leaves' → leaves = leaves' := by
  refine ⟨fun leaves => ?_, fun leaves leaves' hlength hdigest hroot => ?_⟩
  · refine ⟨((up (combine env))^[leaves.length] leaves).headD Hash32.zero, ?_,
      (merkle_eq env leaves).symm⟩
    cases leaves with
    | nil => rfl
    | cons leaf leaves => exact rootLoop_eq env _ _ (Nat.le_succ _)
  · by_cases hnil : leaves = []
    · subst hnil
      exact (List.eq_nil_of_length_eq_zero hlength.symm).symm
    · have hnil' : leaves' ≠ [] := by
        intro hnil'
        rw [hnil'] at hlength
        exact hnil (List.eq_nil_of_length_eq_zero hlength)
      rw [merkle_eq, merkle_eq] at hroot
      have hhead := Hash32.ext hroot
      have hlast : (up (combine env))^[leaves.length] leaves =
          (up (combine env))^[leaves.length] leaves' := by
        have hlast' := iterate_up_eq_singleton env hnil'
        rw [← hhead, ← hlength] at hlast'
        exact (iterate_up_eq_singleton env hnil).trans hlast'.symm
      have hapart : Apart (combine env) (joinedIn (combine env) leaves.length leaves ++
          joinedIn (combine env) leaves.length leaves') := by
        refine apart_of_strings env ?_
        rw [List.map_append]
        rw [hashedStrings, hashedStrings, ← hlength] at hdigest
        exact hdigest
      exact iterate_up_injective leaves.length hlength hapart hlast

/-- Two leaves in either order have different roots. -/
theorem merkle_commits_swapped :
    merkle Sample.network [Sample.digest [1], Sample.digest [2]] ≠
      merkle Sample.network [Sample.digest [2], Sample.digest [1]] := by
  intro hroot
  have hstrings : hashedStrings Sample.network [Sample.digest [1], Sample.digest [2]] ++
      hashedStrings Sample.network [Sample.digest [2], Sample.digest [1]] =
        [(Sample.digest [1]).bytes ++ (Sample.digest [2]).bytes,
          (Sample.digest [2]).bytes ++ (Sample.digest [1]).bytes] := rfl
  have happart : Sample.digest ((Sample.digest [1]).bytes ++ (Sample.digest [2]).bytes) ≠
      Sample.digest ((Sample.digest [2]).bytes ++ (Sample.digest [1]).bytes) := by decide +kernel
  have hsame := (@merkle_commits Unit Unit Sample.network).2 [Sample.digest [1], Sample.digest [2]]
    [Sample.digest [2], Sample.digest [1]] rfl (by
      rw [hstrings]
      simp only [List.forall_mem_cons, List.not_mem_nil, false_imp_iff, implies_true, and_true,
        true_and]
      exact ⟨fun h => absurd h happart, fun h => absurd h.symm happart⟩) hroot
  exact absurd hsame (by decide)

end RustTron.Execution
