import RustTron.Library.FMap
import Mathlib

/-!
# The rows of a finite map in the order of their keys

A store is read row by row in the order of its keys. The order is a parameter here, and the results
do not depend on it.

## Main definitions

* `FMap.sortedKeys r m`, `FMap.sortedRows r m`: the keys and the rows of `m` in the order `r`

## Main results

* `FMap.mem_sortedRows`, `FMap.foldl_insert_sortedRows`: the rows are those of the map
* `FMap.sum_sortedRows`: a sum over the rows in order is the sum over the map
-/

namespace FMap

variable {K V : Type} (r : K → K → Prop) [DecidableRel r] [IsTrans K r] [Std.Antisymm r]
  [Std.Total r]

instance : IsTrans Int (· ≤ ·) := ⟨fun _ _ _ => le_trans⟩

instance : Std.Antisymm fun a b : Int => a ≤ b := ⟨fun _ _ => le_antisymm⟩

/-- The keys of a map in order. -/
def sortedKeys (m : FMap K V) : List K :=
  Quot.liftOn m.keys.val (List.insertionSort r) fun l l' h => by
    refine List.Perm.eq_of_pairwise (fun a b _ _ => antisymm (r := r)) ?_ ?_ ?_
    · exact List.pairwise_insertionSort r l
    · exact List.pairwise_insertionSort r l'
    · exact ((List.perm_insertionSort r l).trans h).trans (List.perm_insertionSort r l').symm

theorem coe_sortedKeys (m : FMap K V) : (sortedKeys r m : Multiset K) = m.keys.val := by
  unfold sortedKeys
  induction m.keys.val using Quot.inductionOn with
  | h l => exact Quot.sound (List.perm_insertionSort r l)

theorem mem_sortedKeys {m : FMap K V} {k : K} : k ∈ sortedKeys r m ↔ k ∈ m.keys := by
  rw [← Multiset.mem_coe, coe_sortedKeys, Finset.mem_val]

theorem nodup_sortedKeys (m : FMap K V) : (sortedKeys r m).Nodup := by
  rw [← Multiset.coe_nodup, coe_sortedKeys]
  exact m.keys.nodup

variable [DecidableEq K]

/-- The rows of a map in the order of their keys. -/
def sortedRows (m : FMap K V) : List (K × V) :=
  (sortedKeys r m).filterMap fun k => (m.lookup k).map fun v => (k, v)

theorem mem_sortedRows {m : FMap K V} {e : K × V} :
    e ∈ sortedRows r m ↔ m.lookup e.1 = some e.2 := by
  simp only [sortedRows, List.mem_filterMap, mem_sortedKeys, Option.map_eq_some_iff]
  constructor
  · rintro ⟨k, -, v, hv, rfl⟩
    exact hv
  · intro h
    exact ⟨e.1, Finmap.mem_keys.mpr (Finmap.mem_iff.mpr ⟨e.2, h⟩), e.2, h, rfl⟩

theorem map_fst_sortedRows (m : FMap K V) : (sortedRows r m).map Prod.fst = sortedKeys r m := by
  unfold sortedRows
  rw [List.map_filterMap, ← List.filterMap_some (l := sortedKeys r m)]
  rw [List.filterMap_filterMap]
  refine List.filterMap_congr fun k hk => ?_
  obtain ⟨v, hv⟩ := Finmap.mem_iff.mp (Finmap.mem_keys.mp ((mem_sortedKeys r).mp hk))
  simp [hv]

/-- The rows inserted one after the other give the map. -/
theorem foldl_insert_sortedRows (m : FMap K V) :
    (sortedRows r m).foldl (fun m row => m.insert row.1 row.2) ∅ = m := by
  refine Finmap.ext_lookup fun k => ?_
  have ho : ∀ (m : FMap K V) (row : K × V) k, k ≠ row.1 →
      (m.insert row.1 row.2).lookup k = m.lookup k := fun m row k hk =>
    Finmap.lookup_insert_of_ne m hk
  have hn : ((sortedRows r m).map Prod.fst).Nodup :=
    map_fst_sortedRows r m ▸ nodup_sortedKeys r m
  cases hk : m.lookup k with
  | none =>
    rw [lookup_foldl_of_notMem Prod.fst ?_ ho, Finmap.lookup_empty]
    rw [map_fst_sortedRows, mem_sortedKeys, Finmap.mem_keys]
    exact Finmap.lookup_eq_none.mp hk
  | some v =>
    have hm : (k, v) ∈ sortedRows r m := (mem_sortedRows r).mpr hk
    exact lookup_foldl_of_mem Prod.fst (f := fun row _ => some row.2) hn
      (fun m row => Finmap.lookup_insert m) ho hm ∅

theorem sortedRows_eq_nil_iff {m : FMap K V} : sortedRows r m = [] ↔ m = ∅ := by
  constructor
  · intro h
    refine Finmap.ext_lookup fun k => ?_
    cases hk : m.lookup k with
    | none => rw [Finmap.lookup_empty]
    | some v =>
      have hm : (k, v) ∈ sortedRows r m := (mem_sortedRows r).mpr hk
      rw [h] at hm
      cases hm
  · rintro rfl
    refine List.eq_nil_iff_forall_not_mem.mpr fun e he => ?_
    rw [mem_sortedRows, Finmap.lookup_empty] at he
    cases he

/-- **A sum over the rows in order** is the sum over the map. -/
theorem sum_sortedRows {M : Type} [AddCommMonoid M] (f : K → V → M) (m : FMap K V) :
    ((sortedRows r m).map fun e => f e.1 e.2).sum = total f m := by
  have hr : (sortedRows r m : Multiset (K × V)) = m.entries.map fun e => (e.1, e.2) := by
    have hk : m.keys.val = m.entries.map Sigma.fst := rfl
    have hl : ∀ e ∈ m.entries, m.lookup e.1 = some e.2 := fun _ => Finmap.mem_lookup_iff.mpr
    rw [sortedRows, ← Multiset.filterMap_coe, coe_sortedKeys, hk, Multiset.filterMap_map,
      ← Multiset.filterMap_eq_map]
    induction hen : m.entries using Quot.inductionOn with
    | h l =>
      rw [hen] at hl
      refine congrArg _ (List.filterMap_congr fun e he => ?_)
      rw [Function.comp_apply, hl e he]
      rfl
  rw [← Multiset.sum_coe, ← Multiset.map_coe, hr, Multiset.map_map]
  rfl

end FMap
