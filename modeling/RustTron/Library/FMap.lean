import Mathlib

/-!
# Finite maps, and layers of writes over them

Mathlib's `Finmap` at a constant family of values, with two constructions on top of it: the map of
a function restricted to a finite set of keys, and a layer of puts and deletes applied to a map.

## Main definitions

* `FMap K V`: finite maps from `K` to `V`
* `FMap.ofFun s f`: the map that sends each key of `s` to its value under `f`, if it has one
* `Write V`, `FMap.overlay`: a put or a delete, and a layer of them applied to a map
* `FMap.overAll`, `FMap.topWrite`: a stack of layers, and the write that shows through it
* `FMap.total f m`: the sum of `f` over the rows of `m`
* `FMap.retain keep m`, `FMap.mapValues f m`: the rows that `keep` keeps, and all rows through `f`

## Main results

* `FMap.lookup_ofFun`, `FMap.lookup_over`: what the two constructions read
* `FMap.over_union`: a merged layer acts as its two parts, one after the other
* `FMap.lookup_overAll`, `FMap.overAll_eq_iff`: what is read through a stack of layers
* `FMap.total_insert`, `FMap.total_insert_int`, `FMap.total_erase_int`: how a sum over the rows
  moves when one row is put or deleted
* `FMap.le_total`, `FMap.card_le_total`: a sum over the rows bounds its parts and their number
* `FMap.lookup_retain`, `FMap.total_le_total`: the rows that are kept, and their sum
-/

/-- Finite maps from `K` to `V`. -/
abbrev FMap (K V : Type) : Type := Finmap fun _ : K => V

/-- A row written by a layer: put with a value, or deleted. -/
inductive Write (V : Type) where
  | put (value : V)
  | delete
  deriving DecidableEq, Repr

namespace Write

variable {V : Type}

/-- What a read of the written row gives. -/
def read : Write V → Option V
  | put v => some v
  | delete => none

end Write

namespace FMap

variable {K V : Type} [DecidableEq K]

/-! ## The map of a function on a finite set of keys -/

omit [DecidableEq K] in
theorem keys_filterMap_le (s : Multiset K) (f : K → Option V) :
    Multiset.keys (s.filterMap fun k => (f k).map fun v => (⟨k, v⟩ : Σ _ : K, V)) ≤ s := by
  have hke : (s.filterMap fun k => (f k).map fun v => (⟨k, v⟩ : Σ _ : K, V)).map Sigma.fst =
      s.filter fun k => (f k).isSome := by
    rw [Multiset.map_filterMap, ← Multiset.filterMap_eq_filter]
    refine congrArg (Multiset.filterMap · s) (funext fun k => ?_)
    cases hk : f k <;> simp [Option.guard, hk]
  rw [Multiset.keys, hke]
  exact Multiset.filter_le _ s

/-- The rows of `f` at the keys `s`. -/
def ofFun (s : Finset K) (f : K → Option V) : FMap K V where
  entries := s.val.filterMap fun k => (f k).map fun v => ⟨k, v⟩
  nodupKeys := Multiset.nodup_keys.mp (Multiset.nodup_of_le (keys_filterMap_le s.val f) s.nodup)

theorem lookup_ofFun (s : Finset K) (f : K → Option V) (k : K) :
    (ofFun s f).lookup k = if k ∈ s then f k else none := by
  refine Option.ext fun v => ?_
  have he : (⟨k, v⟩ : Σ _ : K, V) ∈ (ofFun s f).entries ↔ k ∈ s ∧ f k = some v := by
    simp only [ofFun, Multiset.mem_filterMap, Option.map_eq_some_iff]
    constructor
    · rintro ⟨k', hk', v', hv', h⟩
      obtain ⟨rfl, rfl⟩ := Sigma.mk.inj_iff.mp h |>.imp id eq_of_heq
      exact ⟨hk', hv'⟩
    · rintro ⟨hk, hv⟩
      exact ⟨k, hk, v, hv, rfl⟩
  rw [← Option.mem_def, Finmap.mem_lookup_iff, he]
  split <;> simp_all

/-! ## What holds of every row -/

section

variable {P : K → V → Prop} {m : FMap K V}

theorem forall_lookup_insert {k : K} {v : V} (h : ∀ k v, m.lookup k = some v → P k v)
    (hv : P k v) : ∀ k' v', (m.insert k v).lookup k' = some v' → P k' v' := by
  intro k' v' hl
  by_cases hk : k' = k
  · subst hk
    rw [Finmap.lookup_insert] at hl
    cases hl
    exact hv
  · rw [Finmap.lookup_insert_of_ne _ hk] at hl
    exact h k' v' hl

theorem forall_lookup_erase {k : K} (h : ∀ k v, m.lookup k = some v → P k v) :
    ∀ k' v', (m.erase k).lookup k' = some v' → P k' v' := by
  intro k' v' hl
  by_cases hk : k' = k
  · subst hk
    rw [Finmap.lookup_erase] at hl
    cases hl
  · rw [Finmap.lookup_erase_ne hk] at hl
    exact h k' v' hl

end

/-! ## Layers of writes -/

/-- The map `base` with the rows of `layer` put and deleted. -/
def overlay (base : FMap K V) (layer : FMap K (Write V)) : FMap K V :=
  ofFun (base.keys ∪ layer.keys) fun k =>
    match layer.lookup k with
    | some w => w.read
    | none => base.lookup k

theorem lookup_over (base : FMap K V) (layer : FMap K (Write V)) (k : K) :
    (overlay base layer).lookup k =
      match layer.lookup k with
      | some w => w.read
      | none => base.lookup k := by
  rw [overlay, lookup_ofFun]
  by_cases hk : k ∈ base.keys ∪ layer.keys
  · rw [if_pos hk]
  · rw [if_neg hk]
    simp only [Finset.mem_union, Finmap.mem_keys, not_or] at hk
    rw [Finmap.lookup_eq_none.mpr hk.2, Finmap.lookup_eq_none.mpr hk.1]

@[simp] theorem over_empty (base : FMap K V) : overlay base ∅ = base := by
  refine Finmap.ext_lookup fun k => ?_
  simp [lookup_over]

/-- A merged layer, the later writes winning, acts as its two parts one after the other. -/
theorem over_union (base : FMap K V) (first second : FMap K (Write V)) :
    overlay base (second ∪ first) = overlay (overlay base first) second := by
  refine Finmap.ext_lookup fun k => ?_
  simp only [lookup_over]
  by_cases hk : k ∈ second
  · obtain ⟨w, hw⟩ := Finmap.mem_iff.mp hk
    rw [Finmap.lookup_union_left hk, hw]
  · rw [Finmap.lookup_union_right hk, Finmap.lookup_eq_none.mpr hk]

/-- A stack of layers over a map, the first at the bottom. -/
def overAll (base : FMap K V) (layers : List (FMap K (Write V))) : FMap K V :=
  layers.foldl overlay base

theorem overAll_append (base : FMap K V) (lower upper : List (FMap K (Write V))) :
    overAll base (lower ++ upper) = overAll (overAll base lower) upper := List.foldl_append

@[simp] theorem overAll_concat (base : FMap K V) (layers : List (FMap K (Write V)))
    (layer : FMap K (Write V)) : overAll base (layers ++ [layer]) =
      overlay (overAll base layers) layer :=
  overAll_append base layers [layer]

/-- The write of the topmost layer that writes the row. -/
def topWrite (layers : List (FMap K (Write V))) (k : K) : Option (Write V) :=
  layers.reverse.findSome? fun layer => layer.lookup k

theorem topWrite_concat (layers : List (FMap K (Write V))) (layer : FMap K (Write V)) (k : K) :
    topWrite (layers ++ [layer]) k = (layer.lookup k).or (topWrite layers k) := by
  rw [topWrite, List.reverse_concat, List.findSome?_cons]
  cases layer.lookup k <;> rfl

theorem lookup_overAll (base : FMap K V) (layers : List (FMap K (Write V))) (k : K) :
    (overAll base layers).lookup k =
      match topWrite layers k with
      | some w => w.read
      | none => base.lookup k := by
  induction layers using List.reverseRecOn with
  | nil => rfl
  | append_singleton layers layer ih =>
    rw [overAll_concat, lookup_over, ih, topWrite_concat]
    cases layer.lookup k <;> rfl

/-- A stack adds nothing to a map that holds what it writes already, and only then. -/
theorem overAll_eq_iff (base : FMap K V) (layers : List (FMap K (Write V))) :
    overAll base layers = base ↔
      ∀ k w, topWrite layers k = some w → base.lookup k = w.read := by
  constructor
  · intro h k w hw
    rw [← h, lookup_overAll, hw]
  · intro h
    refine Finmap.ext_lookup fun k => ?_
    rw [lookup_overAll]
    cases hw : topWrite layers k with
    | none => rfl
    | some w => exact (h k w hw).symm

/-- The layers of a stack merged into one, the later writes winning. -/
theorem over_foldl_union (base : FMap K V) (layers : List (FMap K (Write V)))
    (merged : FMap K (Write V)) :
    overlay base (layers.foldl (fun merged layer => layer ∪ merged) merged) =
      overAll (overlay base merged) layers := by
  induction layers generalizing merged with
  | nil => rfl
  | cons layer rest ih =>
    rw [List.foldl_cons, ih, over_union]
    rfl

/-! ## Sums over the rows -/

variable {M : Type} [AddCommMonoid M] {m : FMap K V}

/-- The sum of `f` over the rows of `m`. -/
def total (f : K → V → M) (m : FMap K V) : M := (m.entries.map fun e => f e.1 e.2).sum

omit [DecidableEq K] in
@[simp] theorem total_empty (f : K → V → M) : total f (∅ : FMap K V) = 0 := rfl

theorem total_insert_of_notMem (f : K → V → M) {k : K} (v : V) (h : k ∉ m) :
    total f (m.insert k v) = f k v + total f m := by
  rw [total, Finmap.entries_insert_of_notMem h, Multiset.map_cons, Multiset.sum_cons, total]

theorem total_erase (f : K → V → M) {k : K} {v : V} (h : m.lookup k = some v) :
    f k v + total f (m.erase k) = total f m := by
  have hp : (m.erase k).insert k v = m := by
    refine Finmap.ext_lookup fun k' => ?_
    by_cases hk : k' = k
    · subst hk
      rw [Finmap.lookup_insert, h]
    · rw [Finmap.lookup_insert_of_ne _ hk, Finmap.lookup_erase_ne hk]
  rw [← total_insert_of_notMem f v Finmap.notMem_erase_self, hp]

/-- **Putting one row** replaces its part of the sum. -/
theorem total_insert (f : K → V → M) (m : FMap K V) (k : K) (v : V) :
    (match m.lookup k with | some old => f k old | none => 0) + total f (m.insert k v) =
      f k v + total f m := by
  have he : m.insert k v = (m.erase k).insert k v := by
    refine Finmap.ext_lookup fun k' => ?_
    by_cases hk : k' = k
    · subst hk
      rw [Finmap.lookup_insert, Finmap.lookup_insert]
    · rw [Finmap.lookup_insert_of_ne _ hk, Finmap.lookup_insert_of_ne _ hk,
        Finmap.lookup_erase_ne hk]
  rw [he, total_insert_of_notMem f v Finmap.notMem_erase_self]
  cases hk : m.lookup k with
  | none =>
    have : m.erase k = m := by
      refine Finmap.ext_lookup fun k' => ?_
      by_cases h : k' = k
      · subst h
        rw [Finmap.lookup_erase, hk]
      · rw [Finmap.lookup_erase_ne h]
    rw [this, zero_add]
  | some old => rw [← total_erase f hk, add_left_comm]

/-- The part of a row in a sum over the rows: nothing, where there is no row. -/
def valueAt (f : K → V → Int) (m : FMap K V) (k : K) : Int :=
  match m.lookup k with
  | some v => f k v
  | none => 0

theorem total_insert_int (f : K → V → Int) (m : FMap K V) (k : K) (v : V) :
    total f (m.insert k v) = total f m - valueAt f m k + f k v := by
  have := total_insert f m k v
  unfold valueAt
  omega

theorem total_erase_int (f : K → V → Int) (m : FMap K V) (k : K) :
    total f (m.erase k) = total f m - valueAt f m k := by
  unfold valueAt
  cases h : m.lookup k with
  | some v =>
    have := total_erase f h
    dsimp only
    omega
  | none =>
    have he : m.erase k = m := by
      refine Finmap.ext_lookup fun k' => ?_
      by_cases hk : k' = k
      · subst hk
        rw [Finmap.lookup_erase, h]
      · rw [Finmap.lookup_erase_ne hk]
    rw [he]
    simp

theorem total_nonneg {f : K → V → Int} (hf : ∀ k v, m.lookup k = some v → 0 ≤ f k v) :
    0 ≤ total f m := by
  refine Multiset.sum_nonneg fun x hx => ?_
  obtain ⟨e, he, rfl⟩ := Multiset.mem_map.mp hx
  exact hf e.1 e.2 (Finmap.mem_lookup_iff.mpr he)

theorem total_eq_zero {f : K → V → Int} (hf : ∀ k v, m.lookup k = some v → f k v = 0) :
    total f m = 0 := by
  refine Multiset.sum_eq_zero fun x hx => ?_
  obtain ⟨e, he, rfl⟩ := Multiset.mem_map.mp hx
  exact hf e.1 e.2 (Finmap.mem_lookup_iff.mpr he)

theorem total_congr {f g : K → V → Int} (h : ∀ k v, m.lookup k = some v → f k v = g k v) :
    total f m = total g m := by
  refine congrArg Multiset.sum (Multiset.map_congr rfl fun e he => ?_)
  exact h e.1 e.2 (Finmap.mem_lookup_iff.mpr he)

/-- Putting a row that counts as the old one did, when no other row counts differently. -/
theorem total_insert_congr {f g : K → V → Int} {k : K} {v old : V} (h : m.lookup k = some old)
    (hs : g k v = f k old) (ho : ∀ k' v', k' ≠ k → m.lookup k' = some v' → g k' v' = f k' v') :
    total g (m.insert k v) = total f m := by
  have hr : total g (m.erase k) = total f (m.erase k) := by
    refine total_congr fun k' v' hv => ?_
    by_cases hk : k' = k
    · subst hk
      rw [Finmap.lookup_erase] at hv
      cases hv
    · rw [Finmap.lookup_erase_ne hk] at hv
      exact ho k' v' hk hv
  have hg := total_erase g h
  have hf := total_erase f h
  have hva : valueAt g m k = g k old := by rw [valueAt, h]
  rw [total_insert_int, hva]
  omega

/-- A sum over the rows is a sum over the keys, in any monoid. -/
theorem total_eq_sum_getD (f : K → V → M) (m : FMap K V) :
    total f m = ∑ k ∈ m.keys, ((m.lookup k).map (f k)).getD 0 := by
  have hk : m.keys.val = m.entries.map Sigma.fst := rfl
  rw [Finset.sum, hk, Multiset.map_map, total]
  refine congrArg Multiset.sum (Multiset.map_congr rfl fun e he => ?_)
  rw [Function.comp_apply, Finmap.mem_lookup_iff.mpr he]
  rfl

/-- A sum over the rows is a sum over the keys. -/
theorem total_eq_sum (f : K → V → Int) (m : FMap K V) :
    total f m = ∑ k ∈ m.keys, valueAt f m k := by
  rw [total_eq_sum_getD]
  refine Finset.sum_congr rfl fun k _ => ?_
  rw [valueAt]
  cases m.lookup k <;> rfl

/-- Two maps over which a sum is the same: the keys of the first are keys of the second, and the
other keys of the second count nothing. -/
theorem total_eq_total {W : Type} {f : K → V → Int} {g : K → W → Int} {n : FMap K W}
    (hke : m.keys ⊆ n.keys) (h : ∀ k ∈ n.keys, valueAt g n k = valueAt f m k) :
    total f m = total g n := by
  rw [total_eq_sum, total_eq_sum, Finset.sum_congr rfl h]
  refine Finset.sum_subset hke fun k _ hk => ?_
  rw [valueAt, Finmap.lookup_eq_none.mpr fun hm => hk (Finmap.mem_keys.mpr hm)]

/-- The part of one key in a map of numbers. -/
theorem total_single (m : FMap K Int) (k : K) :
    total (fun k' x => if k' = k then x else 0) m = (m.lookup k).getD 0 := by
  have hz : total (fun k' x => if k' = k then x else 0) (m.erase k) = 0 := by
    refine total_eq_zero fun k' x hx => if_neg ?_
    rintro rfl
    rw [Finmap.lookup_erase] at hx
    cases hx
  rw [total_erase_int] at hz
  have hv : valueAt (fun k' x => if k' = k then x else 0) m k = (m.lookup k).getD 0 := by
    unfold valueAt
    cases m.lookup k <;> simp
  omega

omit [DecidableEq K] in
/-- A part of a sum over the rows is at most the sum. -/
theorem le_total (f : K → V → Nat) {e : Σ _ : K, V} (h : e ∈ m.entries) : f e.1 e.2 ≤ total f m :=
  Multiset.single_le_sum (fun _ _ => Nat.zero_le _) _
    (Multiset.mem_map_of_mem (fun e : Σ _ : K, V => f e.1 e.2) h)

theorem le_total_of_lookup (f : K → V → Nat) {k : K} {v : V} (h : m.lookup k = some v) :
    f k v ≤ total f m :=
  le_total f (e := ⟨k, v⟩) (Finmap.mem_lookup_iff.mp h)

theorem total_insert_le (f : K → V → Nat) (m : FMap K V) (k : K) (v : V) :
    total f (m.insert k v) ≤ f k v + total f m := by
  have := total_insert f m k v
  omega

omit [DecidableEq K] in
theorem card_le_total {f : K → V → Nat} (hf : ∀ k v, 1 ≤ f k v) (m : FMap K V) :
    m.entries.card ≤ total f m := by
  have ho : ∀ x ∈ m.entries.map fun e => f e.1 e.2, 1 ≤ x := by
    intro x hx
    obtain ⟨e, -, rfl⟩ := Multiset.mem_map.mp hx
    exact hf e.1 e.2
  have := Multiset.card_nsmul_le_sum ho
  simpa [total] using this

/-! ## Updates at the keys of a list -/

section Updates

variable {I : Type} (key : I → K) {f : I → Option V → Option V}
  {step : FMap K V → I → FMap K V}

/-- Updates at other keys. -/
theorem lookup_foldl_of_notMem {l : List I} {k : K} (h : k ∉ l.map key)
    (ho : ∀ m i k, k ≠ key i → (step m i).lookup k = m.lookup k) (m : FMap K V) :
    (l.foldl step m).lookup k = m.lookup k := by
  induction l generalizing m with
  | nil => rfl
  | cons i l ih =>
    rw [List.map_cons, List.mem_cons, not_or] at h
    rw [List.foldl_cons, ih h.2, ho m i k h.1]

/-- Updates at distinct keys. -/
theorem lookup_foldl_of_mem {l : List I} (hn : (l.map key).Nodup)
    (hs : ∀ m i, (step m i).lookup (key i) = f i (m.lookup (key i)))
    (ho : ∀ m i k, k ≠ key i → (step m i).lookup k = m.lookup k) {i : I} (hi : i ∈ l)
    (m : FMap K V) : (l.foldl step m).lookup (key i) = f i (m.lookup (key i)) := by
  induction l generalizing m with
  | nil => cases hi
  | cons j l ih =>
    rw [List.map_cons, List.nodup_cons] at hn
    rw [List.foldl_cons]
    rcases List.mem_cons.mp hi with rfl | hm
    · rw [lookup_foldl_of_notMem key hn.1 ho, hs]
    · have hne : key i ≠ key j := fun h => hn.1 (h ▸ List.mem_map_of_mem hm)
      rw [ih hn.2 hm, ho m j _ hne]

end Updates

/-! ## Keeping some rows -/

/-- A part of the rows sums up to at most as much. -/
theorem total_le_total (f : K → V → Nat) {m n : FMap K V}
    (h : ∀ k v, n.lookup k = some v → m.lookup k = some v) : total f n ≤ total f m := by
  have hs : n.keys ⊆ m.keys := by
    intro k hk
    obtain ⟨v, hv⟩ := Finmap.mem_iff.mp (Finmap.mem_keys.mp hk)
    exact Finmap.mem_keys.mpr (Finmap.mem_iff.mpr ⟨v, h k v hv⟩)
  rw [total_eq_sum_getD, total_eq_sum_getD]
  refine (Finset.sum_le_sum fun k hk => ?_).trans (Finset.sum_le_sum_of_subset hs)
  obtain ⟨v, hv⟩ := Finmap.mem_iff.mp (Finmap.mem_keys.mp hk)
  rw [hv, h k v hv]

/-- The rows of a map that `keep` keeps. -/
def retain (keep : K → V → Bool) (m : FMap K V) : FMap K V :=
  ofFun m.keys fun k => (m.lookup k).filter (keep k)

theorem lookup_retain (keep : K → V → Bool) (m : FMap K V) (k : K) :
    (m.retain keep).lookup k = (m.lookup k).filter (keep k) := by
  rw [retain, lookup_ofFun]
  split
  · rfl
  · rename_i hk
    rw [Finmap.lookup_eq_none.mpr fun hm => hk (Finmap.mem_keys.mpr hm)]
    rfl

theorem lookup_retain_eq_some {keep : K → V → Bool} {k : K} {v : V} :
    (m.retain keep).lookup k = some v ↔ m.lookup k = some v ∧ keep k v := by
  rw [lookup_retain, Option.filter_eq_some_iff]

theorem mem_retain {keep : K → V → Bool} {k : K} :
    k ∈ m.retain keep ↔ ∃ v, m.lookup k = some v ∧ keep k v := by
  simp only [Finmap.mem_iff, lookup_retain_eq_some]

theorem mem_of_mem_retain {keep : K → V → Bool} {k : K} (h : k ∈ m.retain keep) : k ∈ m := by
  obtain ⟨v, hv, -⟩ := mem_retain.mp h
  exact Finmap.mem_iff.mpr ⟨v, hv⟩

/-! ## Every value through a function -/

/-- The rows of a map with their values through `f`. -/
def mapValues {W : Type} (f : K → V → W) (m : FMap K V) : FMap K W :=
  ofFun m.keys fun k => (m.lookup k).map (f k)

theorem lookup_mapValues {W : Type} (f : K → V → W) (m : FMap K V) (k : K) :
    (m.mapValues f).lookup k = (m.lookup k).map (f k) := by
  rw [mapValues, lookup_ofFun]
  split
  · rfl
  · rename_i hk
    rw [Finmap.lookup_eq_none.mpr fun hm => hk (Finmap.mem_keys.mpr hm)]
    rfl

end FMap
