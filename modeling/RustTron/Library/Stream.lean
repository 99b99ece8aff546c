import Mathlib

/-!
# Streams of frames

A decoder takes one frame off the front of what it has, or waits for more. What follows a frame does
not change what it decodes. Then it does not matter how a stream of encoded frames is cut into the
chunks that arrive.

## Main definitions

* `FrameCodec`: a decoder with the encoding that it inverts
* `drain`, `feedAll`: the frames of a buffer, and of all chunks, are handled in turn

## Main results

* `FrameCodec.feedAll_encode`: all frames are handled and nothing is left
-/

namespace RustTron.Stream

variable {B F E S : Type}

/-- A decoder gives a frame and the rest of its input, or nothing, or fails. The frames that satisfy
`Fits` are those that can be encoded. -/
structure FrameCodec (B F E : Type) where
  decode : List B → Except E (Option F) × List B
  encode : F → List B
  Fits : F → Prop
  decode_nil : decode [] = (.ok none, [])
  decode_encode : ∀ f rest, Fits f → decode (encode f ++ rest) = (.ok (some f), rest)
  frame_append : ∀ {src f rest}, decode src = (.ok (some f), rest) →
    ∀ more, decode (src ++ more) = (.ok (some f), rest ++ more)
  error_append : ∀ {src e rest}, decode src = (.error e, rest) →
    ∀ more, ∃ rest, decode (src ++ more) = (.error e, rest)
  none_rest : ∀ {src rest}, decode src = (.ok none, rest) → rest = src

/-- The frames at the front of a buffer are handled until there is none. -/
def drain (decode : List B → Except E (Option F) × List B) (handle : S → F → Except E Unit × S) :
    (fuel : Nat) → S → List B → Except E Unit × S × List B
  | 0, s, src => (.ok (), s, src)
  | fuel + 1, s, src =>
    match decode src with
    | (.error e, rest) => (.error e, s, rest)
    | (.ok none, rest) => (.ok (), s, rest)
    | (.ok (some f), rest) =>
      match handle s f with
      | (.error e, s) => (.error e, s, rest)
      | (.ok (), s) => drain decode handle fuel s rest

/-- Chunks arrive, and the frames that they complete are handled. A frame takes at least one place,
so that the fuel is enough. -/
def feedAll (decode : List B → Except E (Option F) × List B) (handle : S → F → Except E Unit × S) :
    S → (buffer : List B) → (chunks : List (List B)) → Except E Unit × S × List B
  | s, buffer, [] => (.ok (), s, buffer)
  | s, buffer, chunk :: chunks =>
    match drain decode handle (buffer ++ chunk).length s (buffer ++ chunk) with
    | (.error e, s, rest) => (.error e, s, rest)
    | (.ok (), s, rest) => feedAll decode handle s rest chunks

/-- The frames are handled one after the other without an error. -/
inductive Handles (handle : S → F → Except E Unit × S) : S → List F → S → Prop
  | nil (s : S) : Handles handle s [] s
  | cons {s mid last : S} {f : F} {frames : List F} :
    handle s f = (.ok (), mid) → Handles handle mid frames last → Handles handle s (f :: frames) last

namespace FrameCodec

variable (c : FrameCodec B F E)

/-- The bytes of frames. -/
def encodeAll (frames : List F) : List B := frames.flatMap c.encode

variable {c} {handle : S → F → Except E Unit × S}

theorem encode_ne_nil {f : F} (hf : c.Fits f) : c.encode f ≠ [] := by
  intro h
  have hd := c.decode_encode f [] hf
  rw [h, List.append_nil, c.decode_nil] at hd
  cases hd

/-- A part of a frame is no frame and no error: the decoder waits. -/
theorem decode_part {f : F} (hf : c.Fits f) {src more : List B} (h : src ++ more = c.encode f)
    (hm : more ≠ []) : c.decode src = (.ok none, src) := by
  have hw : c.decode (src ++ more) = (.ok (some f), []) := by
    have hd := c.decode_encode f [] hf
    rwa [List.append_nil, ← h] at hd
  rcases hs : c.decode src with ⟨e | _ | g, rest⟩
  · obtain ⟨rest', hr⟩ := c.error_append hs more
    cases hr.symm.trans hw
  · rw [c.none_rest hs]
  · have hr := (c.frame_append hs more).symm.trans hw
    have hn : rest ++ more = [] := congrArg Prod.snd hr
    exact absurd (List.append_eq_nil_iff.mp hn).2 hm

/-- A buffer that begins a stream of frames: some of them are handled, and what is left begins the
others without a whole frame. -/
theorem drain_begin {frames : List F} (hfi : ∀ f ∈ frames, c.Fits f) :
    ∀ {fuel : Nat} {s last : S} {src tail : List B}, src.length ≤ fuel →
      src ++ tail = c.encodeAll frames → Handles handle s frames last →
        ∃ frames' mid rest, drain c.decode handle fuel s src = (.ok (), mid, rest) ∧
          frames' ⊆ frames ∧ rest ++ tail = c.encodeAll frames' ∧ Handles handle mid frames' last ∧
            c.decode rest = (.ok none, rest) := by
  induction frames with
  | nil =>
    intro fuel s last src tail _ hs hh
    obtain ⟨rfl, rfl⟩ := List.append_eq_nil_iff.mp hs
    refine ⟨[], s, [], ?_, List.Subset.refl _, rfl, hh, c.decode_nil⟩
    cases fuel with
    | zero => rfl
    | succ fuel => rw [drain, c.decode_nil]
  | cons f frames ih =>
    intro fuel s last src tail hfu hs hh
    have hf := hfi f List.mem_cons_self
    rw [encodeAll, List.flatMap_cons] at hs
    -- The first frame ends in the buffer, or the buffer ends in the first frame.
    rcases List.append_eq_append_iff.mp hs with ⟨part, hp, ht⟩ | ⟨rest, rfl, hr⟩
    · by_cases hn : part = []
      · subst hn
        rw [List.append_nil] at hp
        rw [List.nil_append] at ht
        subst ht
        cases hh with
        | cons hha hr =>
          rename_i mid
          obtain ⟨fuel, rfl⟩ : ∃ n, fuel = n + 1 := by
            refine ⟨fuel - 1, ?_⟩
            have := List.length_pos_of_ne_nil (encode_ne_nil hf)
            rw [← hp] at hfu
            omega
          have hde := c.decode_encode f [] hf
          rw [List.append_nil, hp] at hde
          obtain ⟨frames', mid', rest', hd, hsu, he, hl, hw⟩ :=
            ih (fun g hg => hfi g (List.mem_cons_of_mem _ hg))
              (Nat.zero_le fuel : ([] : List B).length ≤ fuel) (List.nil_append _) hr
          refine ⟨frames', mid', rest', ?_, fun g hg => List.mem_cons_of_mem _ (hsu hg), he,
            hl, hw⟩
          rw [drain, hde]
          dsimp only
          rw [hha]
          exact hd
      · have hw := decode_part hf hp.symm hn
        refine ⟨f :: frames, s, src, ?_, List.Subset.refl _, ?_, hh, hw⟩
        · cases fuel with
          | zero => rfl
          | succ fuel => rw [drain, hw]
        · rw [encodeAll, List.flatMap_cons]
          exact hs
    · cases hh with
      | cons hha hh =>
        rename_i mid
        obtain ⟨fuel, rfl⟩ : ∃ n, fuel = n + 1 := by
          refine ⟨fuel - 1, ?_⟩
          have := List.length_pos_of_ne_nil (encode_ne_nil hf)
          rw [List.length_append] at hfu
          omega
        have hle : rest.length ≤ fuel := by
          have := List.length_pos_of_ne_nil (encode_ne_nil hf)
          rw [List.length_append] at hfu
          omega
        obtain ⟨frames', mid', rest', hd, hsu, he, hl, hw⟩ :=
          ih (fun g hg => hfi g (List.mem_cons_of_mem _ hg)) hle hr.symm hh
        refine ⟨frames', mid', rest', ?_, fun g hg => List.mem_cons_of_mem _ (hsu hg), he,
          hl, hw⟩
        rw [drain, c.decode_encode f rest hf]
        dsimp only
        rw [hha]
        exact hd

/-- **Chunks do not matter.** However the bytes of frames are cut, the frames are handled in their
order and nothing is left. -/
theorem feedAll_encode {chunks : List (List B)} :
    ∀ {frames : List F} {s last : S} {buffer : List B}, (∀ f ∈ frames, c.Fits f) →
      buffer ++ chunks.flatten = c.encodeAll frames → c.decode buffer = (.ok none, buffer) →
        Handles handle s frames last →
          feedAll c.decode handle s buffer chunks = (.ok (), last, []) := by
  induction chunks with
  | nil =>
    intro frames s last buffer hfi hb hw hh
    rw [List.flatten_nil, List.append_nil] at hb
    cases hh with
    | nil =>
      subst hb
      rfl
    | cons hha hr =>
      -- The buffer would have a whole frame at its front.
      rw [encodeAll, List.flatMap_cons] at hb
      rw [hb, c.decode_encode _ _ (hfi _ List.mem_cons_self)] at hw
      cases hw
  | cons chunk chunks ih =>
    intro frames s last buffer hfi hb _ hh
    rw [List.flatten_cons, ← List.append_assoc] at hb
    obtain ⟨frames', mid, rest, hd, hs, he, hl, hw⟩ :=
      drain_begin hfi (Nat.le_refl _) hb hh
    rw [feedAll, hd]
    exact ih (fun f hf => hfi f (hs hf)) he hw hl

end FrameCodec

end RustTron.Stream
