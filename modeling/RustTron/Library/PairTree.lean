import Mathlib

/-!
# Trees of pairs

The level above a list of nodes combines them two by two, and a last node without a partner goes up
unchanged.  A list of `n` nodes is down to one after `n` rounds at most.

## Main definitions

* `up`: the level above
* `joined`, `joinedIn`: the pairs that are combined in one round, and in several

## Main results

* `length_up`, `length_iterate_up`: how long the levels are
* `iterate_up_injective`: where the combined pairs can be told apart, a level can be traced back to
  the leaves
-/

namespace PairTree

variable {H : Type} (combine : H → H → H)

/-- The level above. -/
def up : List H → List H
  | [] => []
  | [last] => [last]
  | left :: right :: rest => combine left right :: up rest

/-- The pairs that are combined in one round. -/
def joined : List H → List (H × H)
  | [] => []
  | [_] => []
  | left :: right :: rest => (left, right) :: joined rest

/-- The pairs that are combined in several rounds. -/
def joinedIn : Nat → List H → List (H × H)
  | 0, _ => []
  | n + 1, l => joined l ++ joinedIn n (up combine l)

/-- No two of some pairs combine to the same node. -/
def Apart (pairs : List (H × H)) : Prop :=
  ∀ p ∈ pairs, ∀ q ∈ pairs, combine p.1 p.2 = combine q.1 q.2 → p = q

variable {combine}

theorem Apart.mono {pairs pairs' : List (H × H)} (h : Apart combine pairs') (hs : pairs ⊆ pairs') :
    Apart combine pairs := fun p hp q hq => h p (hs hp) q (hs hq)

theorem length_up (l : List H) : (up combine l).length = (l.length + 1) / 2 := by
  induction l using up.induct with
  | case1 => simp [up]
  | case2 last => simp [up]
  | case3 left right rest ih =>
    rw [up, List.length_cons, List.length_cons, List.length_cons, ih]
    omega

theorem up_of_length_le_one {l : List H} (h : l.length ≤ 1) : up combine l = l := by
  match l with
  | [] => exact up.eq_1 combine
  | [last] => exact up.eq_2 combine last
  | _ :: _ :: _ => simp at h

theorem up_ne_nil {l : List H} (h : l ≠ []) : up combine l ≠ [] := by
  have hl : (up combine l).length = (l.length + 1) / 2 := length_up l
  have hp := List.length_pos_of_ne_nil h
  exact List.ne_nil_of_length_pos (by omega)

theorem length_iterate_up (n : Nat) : ∀ l : List H, l.length ≤ n + 1 →
    ((up combine)^[n] l).length ≤ 1 := by
  induction n with
  | zero => exact fun l h => h
  | succ n ih =>
    intro l h
    rw [Function.iterate_succ_apply]
    refine ih _ ?_
    rw [length_up]
    omega

theorem iterate_up_ne_nil (n : Nat) : ∀ l : List H, l ≠ [] → (up combine)^[n] l ≠ [] := by
  induction n with
  | zero => exact fun l h => h
  | succ n ih =>
    intro l h
    rw [Function.iterate_succ_apply]
    exact ih _ (up_ne_nil h)

theorem up_injective {l m : List H} (hl : l.length = m.length)
    (ha : Apart combine (joined l ++ joined m)) (h : up combine l = up combine m) : l = m := by
  induction l using up.induct generalizing m with
  | case1 => exact (List.eq_nil_of_length_eq_zero hl.symm).symm
  | case2 last =>
    obtain ⟨last', rfl⟩ := List.length_eq_one_iff.mp hl.symm
    exact h
  | case3 left right rest ih =>
    match m with
    | [] => cases hl
    | [_] => cases hl
    | left' :: right' :: rest' =>
      rw [up, up, List.cons.injEq] at h
      have hpa : (left, right) = (left', right') :=
        ha _ (by simp [joined]) _ (by simp [joined]) h.1
      have hr : joined rest ++ joined rest' ⊆
          joined (left :: right :: rest) ++ joined (left' :: right' :: rest') := by
        simp only [joined, List.append_subset]
        exact ⟨fun p hp => by simp [hp], fun p hp => by simp [hp]⟩
      rw [Prod.mk.injEq] at hpa
      rw [hpa.1, hpa.2, ih (by simpa using hl) (ha.mono hr) h.2]

/-- Where the pairs of all rounds are apart, the leaves can be told from the level that is left. -/
theorem iterate_up_injective (n : Nat) : ∀ {l m : List H}, l.length = m.length →
    Apart combine (joinedIn combine n l ++ joinedIn combine n m) →
    (up combine)^[n] l = (up combine)^[n] m → l = m := by
  induction n with
  | zero => exact fun _ _ h => h
  | succ n ih =>
    intro l m hl ha h
    rw [Function.iterate_succ_apply, Function.iterate_succ_apply] at h
    have hr : joinedIn combine n (up combine l) ++ joinedIn combine n (up combine m) ⊆
        joinedIn combine (n + 1) l ++ joinedIn combine (n + 1) m := by
      simp only [joinedIn, List.append_subset]
      exact ⟨fun p hp => by simp [hp], fun p hp => by simp [hp]⟩
    have hle : joined l ++ joined m ⊆
        joinedIn combine (n + 1) l ++ joinedIn combine (n + 1) m := by
      simp only [joinedIn, List.append_subset]
      exact ⟨fun p hp => by simp [hp], fun p hp => by simp [hp]⟩
    have hup : (up combine l).length = (up combine m).length := by
      rw [length_up, length_up, hl]
    exact up_injective hl (ha.mono hle) (ih hup (ha.mono hr) h)

end PairTree
