import Mathlib

/-!
# Ways along a partial function

A partial function `next` takes every element to at most one other. The elements passed on the way
from one element to another are then determined, and where two ways meet for the first time is the
lowest of the common ancestors.

## Main definitions

* `Way next a l b`: `l` are the elements passed on the way from `a` to `b`
* `Reaches next a b`: `b` is an ancestor of `a`
* `Meets next a b l m c`: the ways from `a` and `b` first meet in `c`
* `LowestCommon next a b c`: `c` is a common ancestor, and all others are ancestors of it

## Main results

* `Way.split`: the shorter of two ways from one element is the beginning of the longer
* `Meets.lowestCommon`: where two ways first meet is the lowest common ancestor
* `Meets.unique`: two ways first meet in one place, if `next` goes down
-/

namespace Ancestry

variable {α β : Type} {next : α → Option α} {a b c d : α} {l m r : List α}

/-- The elements passed on the way from `a` to `b`: `a` first, and `b` left out. -/
inductive Way (next : α → Option α) : α → List α → α → Prop where
  | nil (a : α) : Way next a [] a
  | cons {a b c : α} {l : List α} : next a = some b → Way next b l c → Way next a (a :: l) c

/-- `b` is `a`, or an ancestor of it. -/
def Reaches (next : α → Option α) (a b : α) : Prop := ∃ l, Way next a l b

/-- The ways from `a` and from `b` to `c` pass no common element. -/
structure Meets (next : α → Option α) (a b : α) (l m : List α) (c : α) : Prop where
  first : Way next a l c
  second : Way next b m c
  disjoint : l.Disjoint m

/-- A common ancestor that all common ancestors are ancestors of. -/
structure LowestCommon (next : α → Option α) (a b c : α) : Prop where
  first : Reaches next a c
  second : Reaches next b c
  lowest : ∀ d, Reaches next a d → Reaches next b d → Reaches next c d

namespace Way

theorem append (h : Way next a l b) (h' : Way next b m c) : Way next a (l ++ m) c := by
  induction h with
  | nil => exact h'
  | cons hn _ ih => exact .cons hn (ih h')

theorem concat (h : Way next a l b) (hn : next b = some c) : Way next a (l ++ [b]) c :=
  h.append (.cons hn (.nil c))

theorem mem_of_ne_nil (h : Way next a l b) (hne : l ≠ []) : a ∈ l := by
  cases h with
  | nil => exact absurd rfl hne
  | cons _ _ => exact List.mem_cons_self

theorem split (h : Way next a l b) (h' : Way next a m c) (hl : l.length ≤ m.length) :
    ∃ r, m = l ++ r ∧ Way next b r c := by
  induction h generalizing m with
  | nil a => exact ⟨m, rfl, h'⟩
  | cons hn _ ih =>
    cases h' with
    | nil => exact absurd hl (Nat.not_succ_le_zero _)
    | cons hn' hr' =>
      obtain rfl : _ = _ := Option.some.inj (hn.symm.trans hn')
      obtain ⟨r, rfl, hr⟩ := ih hr' (Nat.le_of_succ_le_succ hl)
      exact ⟨r, rfl, hr⟩

theorem reaches_or_mem (hl : Way next a l c) (h : Reaches next a d) :
    Reaches next c d ∨ d ∈ l := by
  obtain ⟨p, hp⟩ := h
  rcases Nat.le_total l.length p.length with hle | hle
  · obtain ⟨r, -, hr⟩ := hl.split hp hle
    exact .inl ⟨r, hr⟩
  · obtain ⟨r, rfl, hr⟩ := hp.split hl hle
    cases hr with
    | nil => exact .inl ⟨[], .nil _⟩
    | cons _ _ => exact .inr (List.mem_append_right _ List.mem_cons_self)

theorem map {f : α → β} {next' : β → Option β}
    (hf : ∀ x y, next x = some y → next' (f x) = some (f y)) (h : Way next a l b) :
    Way next' (f a) (l.map f) (f b) := by
  induction h with
  | nil a => exact .nil (f a)
  | cons hn _ ih => exact .cons (hf _ _ hn) ih

theorem exists_next (h : Way next a l b) {x : α} (hx : x ∈ l) : ∃ y, next x = some y := by
  induction h with
  | nil => cases hx
  | cons hn _ ih =>
    rcases List.mem_cons.mp hx with rfl | hx
    · exact ⟨_, hn⟩
    · exact ih hx

section Heights

variable {height : α → Int} (hdown : ∀ x y, next x = some y → height y + 1 = height x)
include hdown

theorem height_eq (h : Way next a l b) : height a = height b + l.length := by
  induction h with
  | nil a => simp
  | cons hn _ ih =>
    have hf := hdown _ _ hn
    rw [List.length_cons]
    omega

theorem height_lt (h : Way next a l b) {x : α} (hx : x ∈ l) : height b < height x := by
  induction h with
  | nil a => cases hx
  | cons hn hr ih =>
    rcases List.mem_cons.mp hx with rfl | hx
    · have hh := hr.height_eq hdown
      have hf := hdown _ _ hn
      omega
    · exact ih hx

theorem height_le (h : Way next a l b) {x : α} (hx : x ∈ l) : height x ≤ height a := by
  induction h with
  | nil a => cases hx
  | cons hn _ ih =>
    rcases List.mem_cons.mp hx with rfl | hx
    · exact le_rfl
    · have hf := hdown _ _ hn
      have hr := ih hx
      omega

theorem unique (h : Way next a l b) (h' : Way next a m b) : l = m := by
  have hh := h.height_eq hdown
  have hh' := h'.height_eq hdown
  obtain ⟨r, rfl, -⟩ := h.split h' (by omega)
  rw [List.length_append] at hh'
  obtain rfl : r = [] := List.length_eq_zero_iff.mp (by omega)
  rw [List.append_nil]

theorem nodup (h : Way next a l b) : (l ++ [b]).Nodup := by
  induction h with
  | nil a => exact List.nodup_singleton a
  | cons hn hr ih =>
    refine List.nodup_cons.mpr ⟨fun hm => ?_, ih⟩
    have hf := hdown _ _ hn
    rcases List.mem_append.mp hm with hm | hm
    · have hle := hr.height_le hdown hm
      omega
    · have hh := hr.height_eq hdown
      rw [List.mem_singleton.mp hm] at hf
      omega

end Heights

end Way

theorem Reaches.next_of_level {height : α → Int}
    (hdown : ∀ x y, next x = some y → height y + 1 = height x) (ha : Reaches next a c)
    (hb : Reaches next b c) (hle : height a = height b) (hne : a ≠ b) :
    ∃ a', next a = some a' ∧ Reaches next a' c := by
  obtain ⟨l, hl⟩ := ha
  obtain ⟨m, hm⟩ := hb
  have hh := hl.height_eq hdown
  have hh' := hm.height_eq hdown
  cases hl with
  | cons hn hr => exact ⟨_, hn, _, hr⟩
  | nil =>
    obtain rfl : m = [] := List.length_eq_zero_iff.mp (by
      rw [List.length_nil] at hh
      omega)
    cases hm
    exact absurd rfl hne

namespace Meets

theorem symm (h : Meets next a b l m c) : Meets next b a m l c :=
  ⟨h.second, h.first, fun _ hm hl => h.disjoint hl hm⟩

theorem lowestCommon (h : Meets next a b l m c) : LowestCommon next a b c where
  first := ⟨l, h.first⟩
  second := ⟨m, h.second⟩
  lowest d hd hd' := by
    rcases h.first.reaches_or_mem hd with hb | hp
    · exact hb
    · exact (h.second.reaches_or_mem hd').resolve_right fun hd' => h.disjoint hp hd'

section Heights

variable {height : α → Int} (hdown : ∀ x y, next x = some y → height y + 1 = height x)
include hdown

theorem nodup (h : Meets next a b l m c) : (l ++ m ++ [c]).Nodup := by
  have hf := h.first.nodup hdown
  have hs := h.second.nodup hdown
  rw [List.nodup_append] at hf hs ⊢
  refine ⟨List.nodup_append.mpr ⟨hf.1, hs.1, fun x hx y hy hxy => ?_⟩, hf.2.1,
    fun x hx => ?_⟩
  · exact h.disjoint hx (hxy ▸ hy)
  · rcases List.mem_append.mp hx with hx | hx
    · exact hf.2.2 x hx
    · exact hs.2.2 x hx

theorem nil_of_eq (h : Meets next a b l m c) (hab : a = b) : l = [] ∧ m = [] := by
  subst hab
  obtain rfl := h.first.unique hdown h.second
  have hn : l = [] := by
    by_contra hne
    exact h.disjoint (h.first.mem_of_ne_nil hne) (h.first.mem_of_ne_nil hne)
  exact ⟨hn, hn⟩

theorem step (h : Meets next a b l m c) (hle : height b ≤ height a) (hne : a ≠ b) :
    ∃ a' l', next a = some a' ∧ l = a :: l' ∧ Meets next a' b l' m c := by
  have hh := h.second.height_eq hdown
  cases hf : h.first with
  | nil =>
    obtain rfl : m = [] := List.length_eq_zero_iff.mp (by omega)
    cases hs : h.second
    exact absurd rfl hne
  | cons hn hr =>
    exact ⟨_, _, hn, rfl, hr, h.second, fun x hx => h.disjoint (List.mem_cons_of_mem _ hx)⟩

theorem unique {l' m' : List α} {c' : α} (h : Meets next a b l m c) (h' : Meets next a b l' m' c') :
    l = l' ∧ m = m' ∧ c = c' := by
  obtain ⟨r, hr⟩ := h.lowestCommon.lowest c' ⟨l', h'.first⟩ ⟨m', h'.second⟩
  obtain ⟨s, hs⟩ := h'.lowestCommon.lowest c ⟨l, h.first⟩ ⟨m, h.second⟩
  -- each of the two ends would be at least as low as the other
  obtain rfl : c = c' := by
    have hf := hr.height_eq hdown
    have hse := hs.height_eq hdown
    cases hr with
    | nil => rfl
    | cons _ _ =>
      rw [List.length_cons] at hf
      omega
  exact ⟨h.first.unique hdown h'.first, h.second.unique hdown h'.second, rfl⟩

end Heights

end Meets

end Ancestry
