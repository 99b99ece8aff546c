import Mathlib

/-!
# Quorums

Two sets of members of a committee that are large enough share a member that is not faulty.

## Main results

* `Finset.exists_mem_inter_not`: the members shared by two quorums outnumber the faulty ones
-/

namespace Finset

variable {α : Type} [DecidableEq α]

/-- Two subsets of `C` with more than `C.card + f` members in all share one for which `p` fails, if
`p` holds of at most `f` members of `C`. -/
theorem exists_mem_inter_not {C A B : Finset α} {p : α → Prop} [DecidablePred p] {f : ℕ}
    (hA : A ⊆ C) (hB : B ⊆ C) (hp : (C.filter p).card ≤ f)
    (hc : C.card + f < A.card + B.card) : ∃ a ∈ A, a ∈ B ∧ ¬ p a := by
  have hu : (A ∪ B).card ≤ C.card := card_le_card (union_subset hA hB)
  have hi := card_union_add_card_inter A B
  by_contra hn
  push Not at hn
  have hf : A ∩ B ⊆ C.filter p := by
    intro a ha
    obtain ⟨haA, haB⟩ := mem_inter.mp ha
    exact mem_filter.mpr ⟨hA haA, hn a haA haB⟩
  have := card_le_card hf
  omega

end Finset
