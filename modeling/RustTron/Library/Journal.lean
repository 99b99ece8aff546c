import RustTron.Library.FMap

/-!
# Journals

A journal is a list of writes that is replayed over a map. What a key reads after the replay is
what its last write says, so a journal may be replayed over a map that already has its writes. On
disk a journal is a row of frames, and a crash leaves any prefix of their bytes: some frames whole,
and a part of the next one.

## Main definitions

* `Journal.write`, `Journal.replay`: one write, or a journal, applied to a map
* `Journal.lastWrite`: what a journal last says about a key
* `Frames.within n frames`: how many frames lie in the first `n` symbols of their concatenation

## Main results

* `Journal.lookup_replay`: a key reads as its last write says
* `Journal.replay_replay`: a journal replayed twice is replayed once
* `Frames.take_flatten`: a prefix is a number of whole frames and a proper part of the next
-/

namespace Journal

variable {K V : Type} [DecidableEq K]

/-- One write applied to a map. -/
def write (m : FMap K V) (w : K × Write V) : FMap K V :=
  match w.2 with
  | .put v => m.insert w.1 v
  | .delete => m.erase w.1

/-- The writes of a journal applied in order. -/
def replay (m : FMap K V) (journal : List (K × Write V)) : FMap K V := journal.foldl write m

/-- The last write of a key. -/
def lastWrite (k : K) : List (K × Write V) → Option (Write V)
  | [] => none
  | w :: journal => (lastWrite k journal).or (if k = w.1 then some w.2 else none)

theorem lookup_write_self (m : FMap K V) (w : K × Write V) : (write m w).lookup w.1 = w.2.read := by
  obtain ⟨k, v | -⟩ := w
  · exact Finmap.lookup_insert m
  · exact Finmap.lookup_erase k m

theorem lookup_write_of_ne (m : FMap K V) {w : K × Write V} {k : K} (h : k ≠ w.1) :
    (write m w).lookup k = m.lookup k := by
  obtain ⟨k', v | -⟩ := w
  · exact Finmap.lookup_insert_of_ne m h
  · exact Finmap.lookup_erase_ne h

/-- **A key reads as its last write says.** -/
theorem lookup_replay (m : FMap K V) (journal : List (K × Write V)) (k : K) :
    (replay m journal).lookup k =
      match lastWrite k journal with
      | some w => w.read
      | none => m.lookup k := by
  induction journal generalizing m with
  | nil => rfl
  | cons w journal ih =>
    have hc : replay m (w :: journal) = replay (write m w) journal := rfl
    rw [hc, ih, lastWrite]
    cases hl : lastWrite k journal with
    | some v => rfl
    | none =>
      rw [Option.none_or]
      by_cases hk : k = w.1
      · subst hk
        rw [if_pos rfl]
        exact lookup_write_self m w
      · rw [if_neg hk]
        exact lookup_write_of_ne m hk

/-- **A journal replayed twice** is replayed once. -/
theorem replay_replay (m : FMap K V) (journal : List (K × Write V)) :
    replay (replay m journal) journal = replay m journal := by
  refine Finmap.ext_lookup fun k => ?_
  rw [lookup_replay (replay m journal), lookup_replay m]
  cases lastWrite k journal <;> rfl

end Journal

namespace Frames

variable {A : Type}

/-- How many of the frames lie completely in the first `n` symbols of their concatenation. -/
def within (n : Nat) : List (List A) → Nat
  | [] => 0
  | frame :: frames => if frame.length ≤ n then within (n - frame.length) frames + 1 else 0

/-- **A prefix of a row of frames** is a number of whole frames and a proper part of the next, or
nothing after the last. -/
theorem take_flatten (n : Nat) (frames : List (List A)) :
    ∃ torn, frames.flatten.take n = (frames.take (within n frames)).flatten ++ torn ∧
      (torn = [] ∨ ∃ frame m, frames[within n frames]? = some frame ∧ torn = frame.take m ∧
        m < frame.length) := by
  induction frames generalizing n with
  | nil => exact ⟨[], by simp [within], .inl rfl⟩
  | cons frame frames ih =>
    rw [within, List.flatten_cons]
    split
    · next hle =>
      obtain ⟨torn, ht, hto⟩ := ih (n - frame.length)
      refine ⟨torn, ?_, ?_⟩
      · rw [List.take_append, List.take_of_length_le hle, ht, List.take_succ_cons,
          List.flatten_cons, List.append_assoc]
      · simpa using hto
    · next hlt =>
      have hc : n < frame.length := by omega
      refine ⟨frame.take n, ?_, .inr ⟨frame, n, rfl, rfl, hc⟩⟩
      rw [List.take_append_of_le_length (Nat.le_of_lt hc)]
      rfl

end Frames
