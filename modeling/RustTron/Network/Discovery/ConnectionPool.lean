import RustTron.Primitives.Bytes
import RustTron.Library.FMap
import Mathlib

/-!
# The candidates of the discovery service

The pool keeps a bounded number of candidates to connect to, the best ranked ones, and the
addresses that are connected.  An offer puts its candidate in and then takes out the last of the
ranking until the bound holds again.

The ranking leaves connected addresses out, the bound counts them.  Connecting takes an address
out of the candidates, but an offer of a connected address puts it back, and from there no
eviction reaches it.  If all candidates are such, the loop finds nothing to take out and does not
end; if all but one are, that one goes, whatever its rank.  These are the only ways to fail: a
run keeps every promise of the pool iff each offer to a full pool finds, among the candidates
with the offered one, one that is not connected and not ranked above all the others.

The hash map of candidates is the list of its values in their order of iteration; the key of a
candidate is its address.

## Main definitions

* `Candidate.rank`, `ConnectionPool.ranked`: the ranking
* `ConnectionPool.shrink`, `ConnectionPool.offer`: the loop of evictions, with fuel
* `ConnectionPool.Keeps`: what a call promises; `ConnectionPool.Evictable`: when it can

## Main results

* `ConnectionPool.keeps_iff`: a call keeps its promises iff it can
* `ConnectionPool.runKeeps_iff`: and so for every run
-/

namespace RustTron.Network.Discovery

inductive CandidateSource
  | active
  | trusted
  | dns
  | persisted
  | discovered
  deriving DecidableEq

/-- `Candidate`; the latency is in nanoseconds. -/
structure Candidate (A : Type) where
  address : A
  nodeId : Bytes
  source : CandidateSource
  updateTime : Int
  latency : Option Nat
  failures : UInt8
  deriving DecidableEq

/-- `Duration::MAX`, in nanoseconds. -/
def durationMax : Nat := (2 ^ 64 - 1) * 1000000000 + 999999999

/-- The tuples that `rank` compares. -/
abbrev Rank : Type := ℕ ×ₗ ℕ ×ₗ ℕᵒᵈ ×ₗ ℤ ×ₗ ℕᵒᵈ

def CandidateSource.priority : CandidateSource → Nat
  | active => 5
  | trusted => 4
  | dns => 3
  | persisted => 2
  | discovered => 1

def Candidate.rank {A : Type} (c : Candidate A) : Rank :=
  toLex (c.source.priority, toLex (if c.latency.isSome then 1 else 0,
    toLex (OrderDual.toDual c.failures.toNat,
      toLex (c.updateTime, OrderDual.toDual (c.latency.getD durationMax)))))

variable {A : Type} [LinearOrder A]

/-- The order of the ranking: the higher rank first, then the lower address. -/
def Candidate.Before (a b : Candidate A) : Prop :=
  b.rank < a.rank ∨ a.rank = b.rank ∧ a.address ≤ b.address

namespace Candidate

instance : DecidableRel (Candidate.Before (A := A)) := fun _ _ => inferInstanceAs (Decidable (_ ∨ _))

instance : Std.Total (Candidate.Before (A := A)) where
  total a b := by
    rcases lt_trichotomy a.rank b.rank with h | h | h
    · exact .inr (.inl h)
    · exact (le_total a.address b.address).imp (fun ha => .inr ⟨h, ha⟩) (fun hb => .inr ⟨h.symm, hb⟩)
    · exact .inl (.inl h)

instance : IsTrans (Candidate A) Candidate.Before where
  trans a b c hab hbc := by
    rcases hab with hab | ⟨hab, ha⟩ <;> rcases hbc with hbc | ⟨hbc, hb⟩
    · exact .inl (hbc.trans hab)
    · exact .inl (hbc ▸ hab)
    · exact .inl (hab ▸ hbc)
    · exact .inr ⟨hab.trans hbc, ha.trans hb⟩

theorem Before.rank_le {a b : Candidate A} (h : a.Before b) : b.rank ≤ a.rank :=
  h.elim le_of_lt fun h => h.1.ge

end Candidate

structure ConnectionPool (A : Type) [LinearOrder A] where
  candidates : List (Candidate A)
  connected : FMap A Int
  maxCandidates : Nat
  nodup : (candidates.map Candidate.address).Nodup

namespace ConnectionPool

def new (maxCandidates : Nat) : ConnectionPool A := ⟨[], ∅, max maxCandidates 1, .nil⟩

/-- `candidates.get`. -/
def get (p : ConnectionPool A) (address : A) : Option (Candidate A) :=
  p.candidates.find? fun c => c.address = address

/-- `candidates.remove`. -/
def remove (p : ConnectionPool A) (address : A) : ConnectionPool A where
  candidates := p.candidates.filter fun c => c.address ≠ address
  connected := p.connected
  maxCandidates := p.maxCandidates
  nodup := p.nodup.sublist (List.filter_sublist.map _)

/-- `candidates.insert`, under the candidate's address. -/
def insert (p : ConnectionPool A) (c : Candidate A) : ConnectionPool A where
  candidates := (p.remove c.address).candidates ++ [c]
  connected := p.connected
  maxCandidates := p.maxCandidates
  nodup := by
    rw [List.map_append, List.nodup_append]
    refine ⟨(p.remove c.address).nodup, List.nodup_singleton _, fun a ha b hb => ?_⟩
    obtain ⟨d, hd, rfl⟩ := List.mem_map.mp ha
    rw [List.map_singleton, List.mem_singleton] at hb
    simpa [hb] using (List.mem_filter.mp hd).2

def ranked (p : ConnectionPool A) : List (Candidate A) :=
  (p.candidates.filter fun c => c.address ∉ p.connected).insertionSort Candidate.Before

/-- The loop of `offer`: one guard a unit of fuel. -/
def shrink : Nat → ConnectionPool A → Option (ConnectionPool A)
  | 0, _ => none
  | fuel + 1, p =>
    if p.maxCandidates < p.candidates.length then
      match p.ranked.getLast? with
      | some last => shrink fuel (p.remove last.address)
      | none => shrink fuel p
    else some p

def offer (fuel : Nat) (p : ConnectionPool A) (c : Candidate A) : Option (ConnectionPool A) :=
  match p.get c.address with
  | some old => if c.rank ≤ old.rank then some p else shrink fuel (p.insert c)
  | none => shrink fuel (p.insert c)

/-- `ConnectionPool::connected`. -/
def connect (p : ConnectionPool A) (address : A) (at_ : Int) : ConnectionPool A where
  candidates := (p.remove address).candidates
  connected := p.connected.insert address at_
  maxCandidates := p.maxCandidates
  nodup := (p.remove address).nodup

/-- `ConnectionPool::disconnected`. -/
def disconnect (p : ConnectionPool A) (address : A) : ConnectionPool A :=
  { p with connected := p.connected.erase address }

/-! ### The ranking -/

section Ranking

variable (p : ConnectionPool A)

theorem mem_ranked {c : Candidate A} :
    c ∈ p.ranked ↔ c ∈ p.candidates ∧ c.address ∉ p.connected := by
  simp only [ranked, List.mem_insertionSort, List.mem_filter, decide_eq_true_eq]

theorem rank_last_le {last c : Candidate A} (h : p.ranked.getLast? = some last)
    (hc : c ∈ p.ranked) : last.rank ≤ c.rank := by
  have hs : p.ranked.Pairwise Candidate.Before := List.pairwise_insertionSort _ _
  obtain ⟨init, hi⟩ := List.getLast?_eq_some_iff.mp h
  rw [hi] at hs hc
  rcases List.mem_append.mp hc with hc | hc
  · exact ((List.pairwise_append.mp hs).2.2 c hc last (by simp)).rank_le
  · rw [List.mem_singleton.mp hc]

theorem getLast?_eq_none : p.ranked.getLast? = none ↔ ∀ c ∈ p.candidates, c.address ∈ p.connected := by
  rw [List.getLast?_eq_none_iff, List.eq_nil_iff_forall_not_mem]
  simp only [mem_ranked, not_and, not_not]

end Ranking

/-! ### What is kept -/

section Kept

variable {p : ConnectionPool A} {c d : Candidate A} {a : A}

theorem mem_remove : d ∈ (p.remove a).candidates ↔ d ∈ p.candidates ∧ d.address ≠ a := by
  simp only [remove, List.mem_filter, decide_eq_true_eq]

theorem mem_insert : d ∈ (p.insert c).candidates ↔
    d ∈ p.candidates ∧ d.address ≠ c.address ∨ d = c := by
  simp only [insert, List.mem_append, mem_remove, List.mem_singleton]

theorem eq_of_address (hc : c ∈ p.candidates) (hd : d ∈ p.candidates)
    (h : c.address = d.address) : c = d := List.inj_on_of_nodup_map p.nodup hc hd h

theorem get_eq_some : p.get a = some c ↔ c ∈ p.candidates ∧ c.address = a := by
  refine ⟨fun h => ⟨List.mem_of_find?_eq_some h, by simpa using List.find?_some h⟩, ?_⟩
  rintro ⟨hc, rfl⟩
  cases hg : p.get c.address with
  | none =>
    have := List.find?_eq_none.mp hg c hc
    simp at this
  | some d =>
    have hd : d.address = c.address := by simpa using List.find?_some hg
    rw [eq_of_address (List.mem_of_find?_eq_some hg) hc hd]

theorem get_eq_none : p.get a = none ↔ ∀ d ∈ p.candidates, d.address ≠ a := by
  simp only [get, List.find?_eq_none, decide_eq_true_eq, ne_eq]

theorem length_remove (hc : c ∈ p.candidates) :
    (p.remove c.address).candidates.length + 1 = p.candidates.length := by
  have hg : (p.candidates.filter fun d => !decide (d.address ≠ c.address)) = [c] := by
    refine List.perm_singleton.mp ((List.perm_ext_iff_of_nodup
      (p.nodup.of_map.filter _) (List.nodup_singleton c)).mpr fun d => ?_)
    simp only [List.mem_filter, decide_not, Bool.not_not, decide_eq_true_eq, List.mem_singleton]
    exact ⟨fun h => eq_of_address h.1 hc h.2, fun h => by subst h; exact ⟨hc, rfl⟩⟩
  have hs := List.length_eq_length_filter_add (l := p.candidates)
    (fun d => decide (d.address ≠ c.address))
  rw [hg, List.length_singleton] at hs
  exact hs.symm

theorem length_insert (c : Candidate A) :
    (p.insert c).candidates.length = (p.remove c.address).candidates.length + 1 := by
  simp only [insert, List.length_append, List.length_singleton]

theorem length_insert_of_mem (hd : d ∈ p.candidates) (h : d.address = c.address) :
    (p.insert c).candidates.length = p.candidates.length := by
  rw [length_insert, ← h, length_remove hd]

theorem length_insert_of_notMem (h : ∀ d ∈ p.candidates, d.address ≠ c.address) :
    (p.insert c).candidates.length = p.candidates.length + 1 := by
  have hf : (p.remove c.address).candidates = p.candidates :=
    List.filter_eq_self.mpr fun d hd => decide_eq_true (h d hd)
  rw [length_insert, hf]

end Kept

/-! ### The loop of evictions -/

section Loop

variable {p q : ConnectionPool A} {c last : Candidate A}

theorem shrink_of_le (h : p.candidates.length ≤ p.maxCandidates) (fuel : Nat) :
    shrink (fuel + 1) p = some p := by
  rw [shrink, if_neg (not_lt.mpr h)]

theorem shrink_of_last (hle : p.maxCandidates < p.candidates.length)
    (hl : p.ranked.getLast? = some last) (fuel : Nat) :
    shrink (fuel + 1) p = shrink fuel (p.remove last.address) := by
  rw [shrink, if_pos hle, hl]

theorem shrink_stuck (hle : p.maxCandidates < p.candidates.length)
    (hl : p.ranked.getLast? = none) (fuel : Nat) : shrink fuel p = none := by
  induction fuel with
  | zero => rfl
  | succ fuel ih =>
    rw [shrink, if_pos hle, hl]
    exact ih

/-- The pool after one eviction, if there is one to take out. -/
def evicted (p : ConnectionPool A) : Option (ConnectionPool A) :=
  p.ranked.getLast?.map fun last => p.remove last.address

/-- With one candidate too many, the loop ends iff it finds one to take out, and has then taken
out that one. -/
theorem shrink_iff (h : p.candidates.length = p.maxCandidates + 1) :
    (∃ fuel, shrink fuel p = some q) ↔ p.evicted = some q := by
  have hle : p.maxCandidates < p.candidates.length := by omega
  cases hl : p.ranked.getLast? with
  | none => simp only [shrink_stuck hle hl, evicted, hl, Option.map_none, exists_const]
  | some last =>
    have hr : (p.remove last.address).candidates.length ≤
        (p.remove last.address).maxCandidates := by
      have := length_remove ((p.mem_ranked.mp (List.mem_of_getLast? hl)).1)
      change _ ≤ p.maxCandidates
      omega
    simp only [evicted, hl, Option.map_some]
    constructor
    · rintro ⟨fuel, hf⟩
      match fuel with
      | 0 => cases hf
      | 1 =>
        rw [shrink_of_last hle hl] at hf
        cases hf
      | fuel + 2 => rwa [shrink_of_last hle hl, shrink_of_le hr] at hf
    · intro hq
      exact ⟨2, by rw [shrink_of_last hle hl, shrink_of_le hr, hq]⟩

/-- The candidates are within their bound. -/
structure Within (p : ConnectionPool A) : Prop where
  le : p.candidates.length ≤ p.maxCandidates
  pos : 0 < p.maxCandidates

theorem within_new (capacity : Nat) : (new capacity : ConnectionPool A).Within where
  le := Nat.zero_le _
  pos := lt_of_lt_of_le Nat.one_pos (le_max_right _ _)

/-- What an offer to a pool within its bound comes to. -/
def offered (p : ConnectionPool A) (c : Candidate A) : Option (ConnectionPool A) :=
  match p.get c.address with
  | some old => some (if c.rank ≤ old.rank then p else p.insert c)
  | none =>
    if p.candidates.length < p.maxCandidates then some (p.insert c) else (p.insert c).evicted

theorem exists_offer_iff (h : p.Within) :
    (∃ fuel, offer fuel p c = some q) ↔ p.offered c = some q := by
  have he : ∀ {r : ConnectionPool A}, r.candidates.length ≤ r.maxCandidates →
      ((∃ fuel, shrink fuel r = some q) ↔ some r = some q) := by
    intro r hr
    refine ⟨?_, fun hq => ⟨1, by rw [shrink_of_le hr, hq]⟩⟩
    rintro ⟨fuel, hf⟩
    cases fuel with
    | zero => cases hf
    | succ fuel => rwa [shrink_of_le hr] at hf
  unfold offer offered
  cases hg : p.get c.address with
  | some old =>
    obtain ⟨ho, ha⟩ := get_eq_some.mp hg
    dsimp only
    split
    · simp only [exists_const]
    · refine he ?_
      rw [length_insert_of_mem ho ha]
      exact h.le
  | none =>
    have hl := length_insert_of_notMem (get_eq_none.mp hg)
    dsimp only
    split
    next hro =>
      refine he ?_
      rw [hl]
      exact hro
    next hfu =>
      refine shrink_iff ?_
      have := h.le
      change _ = p.maxCandidates + 1
      omega

end Loop

/-! ### Calls and what they promise -/

inductive Call (A : Type)
  | offer (candidate : Candidate A)
  | connected (address : A) (at_ : Int)
  | disconnected (address : A)

/-- One call, with fuel for its loop. -/
def call (fuel : Nat) (p : ConnectionPool A) : Call A → Option (ConnectionPool A)
  | .offer c => p.offer fuel c
  | .connected a at_ => some (p.connect a at_)
  | .disconnected a => some (p.disconnect a)

/-- The call returns, and leaves `q`. -/
def Returns (p : ConnectionPool A) (k : Call A) (q : ConnectionPool A) : Prop :=
  ∃ fuel, p.call fuel k = some q

/-- What a call promises: it returns, with the candidates within their bound and no connected
address in the ranking; and a candidate of before, or the offered one, is still there, or its
address is being connected, or one ranked at least as high is there. -/
def Keeps (p : ConnectionPool A) (k : Call A) : Prop :=
  ∃ q, p.Returns k q ∧ q.candidates.length ≤ q.maxCandidates ∧
    (∀ c ∈ q.ranked, c.address ∉ q.connected) ∧
    ∀ c, c ∈ p.candidates ∨ k = .offer c →
      c ∈ q.candidates ∨ (∃ at_, k = .connected c.address at_) ∨
        ∃ kept ∈ q.candidates, c.rank ≤ kept.rank

/-- The pool is full and the candidate is not in it. -/
def Full (p : ConnectionPool A) (c : Candidate A) : Prop :=
  p.maxCandidates ≤ p.candidates.length ∧ ∀ d ∈ p.candidates, d.address ≠ c.address

/-- Where an offer finds the pool full, one of the candidates with the offered one is not
connected and ranked no higher than another. -/
def Evictable (p : ConnectionPool A) : Call A → Prop
  | .offer c => p.Full c → ∃ x ∈ p.candidates ++ [c], ∃ y ∈ p.candidates ++ [c],
      x ≠ y ∧ x.address ∉ p.connected ∧ x.rank ≤ y.rank
  | .connected _ _ => True
  | .disconnected _ => True

section Calls

variable {p q : ConnectionPool A} {c : Candidate A} {k : Call A}

theorem returns_offer (h : p.Within) : p.Returns (.offer c) q ↔ p.offered c = some q :=
  exists_offer_iff h

theorem Within.of_returns (h : p.Within) (hr : p.Returns k q) : q.Within := by
  cases k with
  | offer c =>
    have hq := (returns_offer h).mp hr
    unfold offered at hq
    cases hg : p.get c.address with
    | some old =>
      rw [hg] at hq
      obtain ⟨ho, ha⟩ := get_eq_some.mp hg
      cases hq
      split
      · exact h
      · exact ⟨(length_insert_of_mem ho ha).trans_le h.le, h.pos⟩
    | none =>
      rw [hg] at hq
      have hlen := length_insert_of_notMem (get_eq_none.mp hg)
      dsimp only at hq
      split at hq
      next hro =>
        cases hq
        exact ⟨hlen.trans_le hro, h.pos⟩
      next hf =>
        obtain ⟨last, hl, rfl⟩ := Option.map_eq_some_iff.mp hq
        have hre := length_remove (((p.insert c).mem_ranked.mp (List.mem_of_getLast? hl)).1)
        have hle := h.le
        refine ⟨?_, h.pos⟩
        change _ ≤ p.maxCandidates
        omega
  | connected a at_ =>
    obtain ⟨fuel, hq⟩ := hr
    cases hq
    exact ⟨(List.length_filter_le _ _).trans h.le, h.pos⟩
  | disconnected a =>
    obtain ⟨fuel, hq⟩ := hr
    cases hq
    exact ⟨h.le, h.pos⟩

theorem ranked_notMem : ∀ c ∈ q.ranked, c.address ∉ q.connected := fun _ hc =>
  (q.mem_ranked.mp hc).2

theorem mem_insert_of_full (h : p.Full c) {d : Candidate A} :
    d ∈ (p.insert c).candidates ↔ d ∈ p.candidates ++ [c] := by
  rw [mem_insert, List.mem_append, List.mem_singleton]
  exact or_congr_left ⟨And.left, fun hd => ⟨hd, h.2 d hd⟩⟩

/-- An offer to a full pool keeps its promises iff there is a candidate to take out. -/
theorem keeps_offer_of_full (hw : p.Within) (hf : p.Full c) :
    p.Keeps (.offer c) ↔ p.Evictable (.offer c) := by
  have ho : p.offered c = (p.insert c).evicted := by
    rw [offered, get_eq_none.mpr hf.2]
    exact if_neg (not_lt.mpr hf.1)
  constructor
  · rintro ⟨q, hr, -, -, hdr⟩ -
    rw [returns_offer hw, ho] at hr
    obtain ⟨last, hl, rfl⟩ := Option.map_eq_some_iff.mp hr
    obtain ⟨hm, hou⟩ := (p.insert c).mem_ranked.mp (List.mem_of_getLast? hl)
    have hm' := (mem_insert_of_full hf).mp hm
    have hwa : last ∈ p.candidates ∨ Call.offer c = .offer last := by
      rcases List.mem_append.mp hm' with h | h
      · exact .inl h
      · exact .inr (by rw [List.mem_singleton.mp h])
    rcases hdr last hwa with h | ⟨at_, h⟩ | ⟨kept, hk, hle⟩
    · exact absurd rfl (mem_remove.mp h).2
    · cases h
    · obtain ⟨hk, hne⟩ := mem_remove.mp hk
      refine ⟨last, hm', kept, (mem_insert_of_full hf).mp hk, ?_, hou, hle⟩
      rintro rfl
      exact hne rfl
  · intro h
    obtain ⟨x, hx, y, hy, hxy, hou, hle⟩ := h hf
    rw [← mem_insert_of_full hf] at hx hy
    have hra : x ∈ (p.insert c).ranked := (p.insert c).mem_ranked.mpr ⟨hx, hou⟩
    cases hl : (p.insert c).ranked.getLast? with
    | none => exact absurd (((p.insert c).getLast?_eq_none).mp hl x hx) hou
    | some last =>
      have hr : p.Returns (.offer c) ((p.insert c).remove last.address) := by
        rw [returns_offer hw, ho, evicted, hl]
        rfl
      have hlm := ((p.insert c).mem_ranked.mp (List.mem_of_getLast? hl)).1
      -- The one that stays in place of `last`: `y` if `last` is `x`, and `x` otherwise.
      have hs : ∃ kept ∈ ((p.insert c).remove last.address).candidates,
          last.rank ≤ kept.rank := by
        by_cases hlx : last = x
        · subst hlx
          exact ⟨y, mem_remove.mpr ⟨hy, fun h => hxy (eq_of_address hlm hy h.symm)⟩, hle⟩
        · exact ⟨x, mem_remove.mpr ⟨hx, fun h => hlx (eq_of_address hlm hx h.symm)⟩,
            rank_last_le _ hl hra⟩
      refine ⟨_, hr, (hw.of_returns hr).le, ranked_notMem, fun d hd => ?_⟩
      have hdm : d ∈ (p.insert c).candidates := by
        refine (mem_insert_of_full hf).mpr (List.mem_append.mpr (hd.imp_right fun h => ?_))
        rw [Call.offer.inj h]
        exact List.mem_singleton_self d
      by_cases hdl : d = last
      · exact .inr (.inr (hdl ▸ hs))
      · exact .inl (mem_remove.mpr ⟨hdm, fun h => hdl (eq_of_address hdm hlm h)⟩)

theorem keeps_offer_of_room (hw : p.Within) (hf : ¬ p.Full c) : p.Keeps (.offer c) := by
  have hi : ∀ {q : ConnectionPool A}, q = p.insert c →
      (∀ old ∈ p.candidates, old.address = c.address → old.rank ≤ c.rank) →
      ∀ d, d ∈ p.candidates ∨ Call.offer c = .offer d →
        d ∈ q.candidates ∨ (∃ at_, Call.offer c = .connected d.address at_) ∨
          ∃ kept ∈ q.candidates, d.rank ≤ kept.rank := by
    rintro q rfl ho d hd
    rcases hd with hd | hd
    · by_cases ha : d.address = c.address
      · exact .inr (.inr ⟨c, mem_insert.mpr (.inr rfl), ho d hd ha⟩)
      · exact .inl (mem_insert.mpr (.inl ⟨hd, ha⟩))
    · exact .inl (mem_insert.mpr (.inr (Call.offer.inj hd).symm))
  cases hg : p.get c.address with
  | some old =>
    obtain ⟨ho, ha⟩ := get_eq_some.mp hg
    by_cases hra : c.rank ≤ old.rank
    · have hr : p.Returns (.offer c) p := by
        rw [returns_offer hw, offered, hg]
        exact congrArg some (if_pos hra)
      refine ⟨p, hr, hw.le, ranked_notMem, fun d hd => ?_⟩
      rcases hd with hd | hd
      · exact .inl hd
      · rw [← Call.offer.inj hd]
        exact .inr (.inr ⟨old, ho, hra⟩)
    · have hr : p.Returns (.offer c) (p.insert c) := by
        rw [returns_offer hw, offered, hg]
        exact congrArg some (if_neg hra)
      refine ⟨_, hr, (hw.of_returns hr).le, ranked_notMem, hi rfl fun d hd hda => ?_⟩
      rw [eq_of_address hd ho (hda.trans ha.symm)]
      exact (not_le.mp hra).le
  | none =>
    have hn := get_eq_none.mp hg
    have hro : p.candidates.length < p.maxCandidates :=
      not_le.mp fun h => hf ⟨h, hn⟩
    have hr : p.Returns (.offer c) (p.insert c) := by
      rw [returns_offer hw, offered, hg]
      exact if_pos hro
    exact ⟨_, hr, (hw.of_returns hr).le, ranked_notMem,
      hi rfl fun d hd hda => absurd hda (hn d hd)⟩

/-- A call keeps its promises iff it finds a candidate to take out where it needs one. -/
theorem keeps_iff (hw : p.Within) : p.Keeps k ↔ p.Evictable k := by
  cases k with
  | offer c =>
    by_cases hf : p.Full c
    · exact keeps_offer_of_full hw hf
    · exact iff_of_true (keeps_offer_of_room hw hf) fun h => absurd h hf
  | connected a at_ =>
    have hr : p.Returns (.connected a at_) (p.connect a at_) := ⟨0, rfl⟩
    refine iff_of_true ⟨_, hr, (hw.of_returns hr).le, ranked_notMem, fun d hd => ?_⟩ trivial
    rcases hd with hd | hd
    · by_cases ha : d.address = a
      · exact .inr (.inl ⟨at_, by rw [ha]⟩)
      · exact .inl (mem_remove.mpr ⟨hd, ha⟩)
    · cases hd
  | disconnected a =>
    have hr : p.Returns (.disconnected a) (p.disconnect a) := ⟨0, rfl⟩
    refine iff_of_true ⟨_, hr, hw.le, ranked_notMem, fun d hd => ?_⟩ trivial
    rcases hd with hd | hd
    · exact .inl hd
    · cases hd

end Calls

/-! ### Runs -/

/-- Each call of a run meets `P` in the pool it finds. -/
def Along (P : ConnectionPool A → Call A → Prop) : ConnectionPool A → List (Call A) → Prop
  | _, [] => True
  | p, k :: calls => P p k ∧ ∀ q, p.Returns k q → Along P q calls

theorem along_keeps_iff {p : ConnectionPool A} (hw : p.Within) (calls : List (Call A)) :
    Along Keeps p calls ↔ Along Evictable p calls := by
  induction calls generalizing p with
  | nil => rfl
  | cons k calls ih =>
    exact and_congr (keeps_iff hw) (forall₂_congr fun q hr => ih (hw.of_returns hr))

/-- Every call of a run of a new pool keeps its promises iff each finds a candidate to take out
where it needs one. -/
theorem runKeeps_iff (capacity : Nat) (calls : List (Call A)) :
    Along Keeps (new capacity) calls ↔ Along Evictable (new capacity) calls :=
  along_keeps_iff (within_new capacity) calls

/-- Two connected addresses. -/
def bothConnected : ConnectionPool Nat := ((new 1).connect 0 0).connect 1 0

/-- A candidate at an address. -/
def candidateAt (address : Nat) : Candidate Nat := ⟨address, [], .discovered, 0, none, 0⟩

/-- A pool of one candidate is offered a second one, and returns from it. -/
theorem runKeeps_two : Along Keeps (new 1) [.offer (candidateAt 0), .offer (candidateAt 1)] := by
  refine (runKeeps_iff 1 _).mpr ⟨fun h => absurd h.1 (by decide), fun q hq => ⟨fun _ => ?_,
    fun _ _ => trivial⟩⟩
  have hfirst : some ((new 1).insert (candidateAt 0)) = some q :=
    (returns_offer (within_new 1)).mp hq
  cases hfirst
  exact ⟨candidateAt 1, by decide, candidateAt 0, by decide, by decide, by decide, by decide⟩

/-- In a pool of one candidate, the offers of two connected addresses: the second does not
return. -/
theorem bothConnected_not_keeps : ¬ Along Keeps (new 1)
    [.connected 0 0, .connected 1 0, .offer (candidateAt 0), .offer (candidateAt 1)] := by
  rintro ⟨-, h⟩
  obtain ⟨-, h⟩ := h _ ⟨0, rfl⟩
  obtain ⟨-, h⟩ := h _ ⟨0, rfl⟩
  obtain ⟨⟨q, ⟨fuel, hq⟩, -⟩, -⟩ := h (bothConnected.insert (candidateAt 0)) ⟨1, rfl⟩
  change shrink fuel ((bothConnected.insert (candidateAt 0)).insert (candidateAt 1)) = some q at hq
  have hall : ∀ c ∈ ((bothConnected.insert (candidateAt 0)).insert (candidateAt 1)).candidates,
      c.address ∈ ((bothConnected.insert (candidateAt 0)).insert (candidateAt 1)).connected := by
    decide
  rw [shrink_stuck (by decide) ((getLast?_eq_none _).mpr hall)] at hq
  cases hq

end ConnectionPool

end RustTron.Network.Discovery
