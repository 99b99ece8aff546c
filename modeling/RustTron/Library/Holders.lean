import RustTron.Library.FMap

/-!
# Tables of held keys

Processes enter rows into a table under keys of their own and take them out again. As long as a key
is entered only where there is none, and taken out by its holder, every row has one holder.
-/

namespace RustTron

variable {P K V : Type} [DecidableEq P] [DecidableEq K]

/-- The rows of a table are those of the processes that hold a key, which is never the same one for
two of them. -/
structure Held (table : FMap K V) (holds : P → Option K) (entry : P → K → V) : Prop where
  present : ∀ p k, holds p = some k → table.lookup k = some (entry p k)
  holder : ∀ k ∈ table, ∃ p, holds p = some k
  unique : ∀ p q k, holds p = some k → holds q = some k → p = q

theorem erase_of_notMem {m : FMap K V} {k : K} (hk : k ∉ m) : m.erase k = m := by
  apply Finmap.ext_lookup
  intro k'
  by_cases h : k' = k
  · rw [h, Finmap.lookup_erase, Finmap.lookup_eq_none.mpr hk]
  · rw [Finmap.lookup_erase_ne h]

namespace Held

variable {table : FMap K V} {holds : P → Option K} {entry : P → K → V}

omit [DecidableEq P] in
theorem empty : Held (∅ : FMap K V) (fun _ : P => none) entry where
  present _ _ h := nomatch h
  holder _ h := absurd h Finmap.notMem_empty
  unique _ _ _ h := nomatch h

omit [DecidableEq P] in
theorem mem (h : Held table holds entry) {p : P} {k : K} (hp : holds p = some k) : k ∈ table :=
  Finmap.mem_iff.mpr ⟨_, h.present p k hp⟩

theorem enter (h : Held table holds entry) {p : P} {k : K} (hp : holds p = none) (hk : k ∉ table) :
    Held (table.insert k (entry p k)) (Function.update holds p (some k)) entry := by
  have ho : ∀ q, holds q ≠ some k := fun q hq => hk (h.mem hq)
  refine ⟨fun q k' hq => ?_, fun k' hm => ?_, fun q r k' hq hr => ?_⟩
  · by_cases hqp : q = p
    · rw [hqp, Function.update_self] at hq
      cases hq
      rw [hqp]
      exact Finmap.lookup_insert _
    · rw [Function.update_of_ne hqp] at hq
      have hne : k' ≠ k := fun hk' => ho q (hk' ▸ hq)
      rw [Finmap.lookup_insert_of_ne _ hne]
      exact h.present q k' hq
  · rcases Finmap.mem_insert.mp hm with rfl | hm
    · exact ⟨p, Function.update_self p _ _⟩
    · obtain ⟨q, hq⟩ := h.holder k' hm
      have hqp : q ≠ p := by
        rintro rfl
        exact nomatch hp.symm.trans hq
      exact ⟨q, by rwa [Function.update_of_ne hqp]⟩
  · by_cases hqp : q = p <;> by_cases hrp : r = p
    · rw [hqp, hrp]
    · rw [hqp, Function.update_self] at hq
      rw [Function.update_of_ne hrp] at hr
      exact absurd (hr.trans hq.symm) (ho r)
    · rw [hrp, Function.update_self] at hr
      rw [Function.update_of_ne hqp] at hq
      exact absurd (hq.trans hr.symm) (ho q)
    · rw [Function.update_of_ne hqp] at hq
      rw [Function.update_of_ne hrp] at hr
      exact h.unique q r k' hq hr

theorem leave (h : Held table holds entry) {p : P} {k : K} (hp : holds p = some k) :
    Held (table.erase k) (Function.update holds p none) entry := by
  refine ⟨fun q k' hq => ?_, fun k' hm => ?_, fun q r k' hq hr => ?_⟩
  · have hqp : q ≠ p := by
      rintro rfl
      rw [Function.update_self] at hq
      exact nomatch hq
    rw [Function.update_of_ne hqp] at hq
    have hne : k' ≠ k := fun hk' => hqp (h.unique q p k (hk' ▸ hq) hp)
    rw [Finmap.lookup_erase_ne hne]
    exact h.present q k' hq
  · obtain ⟨hne, hm⟩ := Finmap.mem_erase.mp hm
    obtain ⟨q, hq⟩ := h.holder k' hm
    have hqp : q ≠ p := by
      rintro rfl
      exact hne (Option.some.inj (hq.symm.trans hp))
    exact ⟨q, by rwa [Function.update_of_ne hqp]⟩
  · have ho : ∀ s, Function.update holds p none s = some k' → holds s = some k' := by
      intro s hs
      by_cases hsp : s = p
      · rw [hsp, Function.update_self] at hs
        exact nomatch hs
      · rwa [Function.update_of_ne hsp] at hs
    exact h.unique q r k' (ho q hq) (ho r hr)

omit [DecidableEq P] in
theorem eq_empty (h : Held table holds entry) (hn : ∀ p, holds p = none) : table = ∅ := by
  apply Finmap.ext_lookup
  intro k
  rw [Finmap.lookup_empty, Finmap.lookup_eq_none]
  intro hk
  obtain ⟨p, hp⟩ := h.holder k hk
  exact nomatch (hn p).symm.trans hp

end Held

end RustTron
