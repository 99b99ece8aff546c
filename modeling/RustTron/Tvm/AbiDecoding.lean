import RustTron.Primitives.Word
import RustTron.Tvm.PrecompileInput

/-!
# Decoding the standard encoding

The contracts that check signatures take the offsets of byte strings from the position of their
count, and the standard encoding from the position after it. So they look for each length one word
too early: the only list with an element that is read as it was written is the one whose element is
its own length word. The decoders of all arrays add 32 to numbers of the caller without a check, and
overflow on the last word of the address space and nowhere else.

## Main definitions

* `BatchCall`, `MultiCall`: well-formed calls, and their standard encodings
* `ReachesLastWord`, `TransferReachesLastWord`: inputs on which a decoder overflows

## Main results

* `bytesArray_encoded_iff`, `fixedArray_encoded`: arrays in the standard encoding
* `faults_bytesArray_iff`, `faults_fixedArray_iff`, `faults_transferParts_iff`: where they overflow
* `decoders_meet_abi_iff`: when the contracts understand calls, and when they are safe
-/

namespace RustTron.Tvm.Precompile

open Decoded

/-! ## Safety -/

theorem not_faults_bind {α β : Type} {x : Decoded α} {f : α → Decoded β} (hx : ¬ x.Faults)
    (hf : ∀ a, x = .value a → ¬ (f a).Faults) : ¬ (x >>= f).Faults := by
  cases x with
  | value a => exact hf a rfl
  | refused => exact not_faults_refused
  | fault p => exact absurd ⟨p, rfl⟩ hx

theorem not_faults_entries {entry : Nat → Decoded Bytes} {left n : Nat}
    (h : ∀ k, k < n + left → ¬ (entry k).Faults) : ¬ (entries entry left n).Faults := by
  induction left generalizing n with
  | zero => exact not_faults_value _
  | succ left ih =>
    refine not_faults_bind (h n (by omega)) fun b _ => ?_
    rw [faults_bind_pure]
    exact ih fun k hk => h k (by omega)

/-- An element that is reached has the last word of the address space for its position. -/
def ReachesLastWord (i : Bytes) (head max : Nat) (strict : Bool) : Prop :=
  ∃ base count n, ArrayAt i head max base count ∧ n < count ∧ Overflows i base n ∧
    ∀ k < n, (entryAt i base strict k).isSome

section

variable {i : Bytes} {head max : Nat}

theorem ArrayAt.unique {base base' count count' : Nat} (h : ArrayAt i head max base count)
    (h' : ArrayAt i head max base' count') : base' = base ∧ count' = count := by
  have hb : base' = base := Option.some.inj (h'.base_eq.symm.trans h.base_eq)
  subst hb
  exact ⟨rfl, Option.some.inj (h'.count_eq.symm.trans h.count_eq)⟩

/-- **`bytes_array` overflows** just in case it reaches the last word of the address space. -/
theorem faults_bytesArray_iff (hi : i.length ≤ isizeMax) (hh : head * 32 + 32 ≤ usizeMax)
    (strict : Bool) : (bytesArray i head max strict).Faults ↔ ReachesLastWord i head max strict := by
  rcases bytesArray_eq hi max hh strict with ⟨base, count, ha, heq⟩ | ⟨hno, heq⟩
  · have ht := ha.table_le
    rw [heq, faults_entries_iff fun k hk =>
      bytesEntry_eq hi strict ha.aligned (by omega)]
    constructor
    · rintro ⟨n, -, hn, ho, hal⟩
      exact ⟨base, count, n, ha, by omega, ho, fun k hk => hal k (Nat.zero_le k) hk⟩
    · rintro ⟨base', count', n, ha', hn, ho, hal⟩
      obtain ⟨rfl, rfl⟩ := ha.unique ha'
      exact ⟨n, Nat.zero_le n, by omega, ho, fun k _ hk => hal k hk⟩
  · rw [heq]
    refine iff_of_false not_faults_refused ?_
    rintro ⟨base, count, -, ha, -⟩
    exact hno ⟨base, count, ha⟩

theorem fixedEntry_eq (hi : i.length ≤ isizeMax) {off n : Nat} (ho : off % 32 = 0)
    (hl : off ≤ i.length) (hn : n ≤ 16) : fixedEntry i off n =
      if off + 32 + 32 * n + 32 ≤ i.length then
        .value ((i.drop (off + 32 + 32 * n)).take 32)
      else .refused := by
  have hm : isizeMax + 1024 ≤ usizeMax := by decide
  have hf : add (off / 32) 1 = .value (off / 32 + 1) := if_pos (by omega)
  have hin : add (off / 32 + 1) n = .value (off / 32 + 1 + n) := if_pos (by omega)
  have hp : 32 * (off / 32 + 1 + n) = off + 32 + 32 * n := by omega
  rw [fixedEntry, hf, value_bind, hin, value_bind, word_eq i (by omega), hp]

/-- **`fixed_array` overflows** just in case its offset is the last word of the address space. -/
theorem faults_fixedArray_iff (hi : i.length ≤ isizeMax) (hh : head * 32 + 32 ≤ usizeMax)
    (hma : max ≤ 16) :
    (fixedArray i head max).Faults ↔ fieldAt i (32 * head) = some lastWord := by
  have hl : lastWord + 31 = usizeMax := by decide
  have ha : lastWord % 32 = 0 := by decide
  rw [fixedArray, uint_eq i hh]
  cases ho : fieldAt i (32 * head) with
  | none => exact iff_of_false not_faults_refused fun h => by cases h
  | some off =>
    have hle := fieldAt_le ho
    rw [ofOption, value_bind, Option.some.injEq]
    by_cases hm : off % 32 = 0
    swap
    · rw [refuseIf_pos_bind hm]
      exact iff_of_false not_faults_refused fun heq => hm (heq ▸ ha)
    rw [refuseIf_neg_bind (not_not_intro hm)]
    by_cases heq : off = lastWord
    · rw [uint_overflow i (by omega)]
      exact iff_of_true ⟨_, rfl⟩ heq
    refine iff_of_false ?_ heq
    have hin : 32 * (off / 32) = off := by omega
    rw [uint_eq i (by omega), hin]
    cases hc : fieldAt i off with
    | none => exact not_faults_refused
    | some count =>
      have hw := within_of_fieldAt hc
      rw [ofOption, value_bind]
      by_cases hcl : count > max
      · rw [refuseIf_pos_bind hcl]
        exact not_faults_refused
      rw [refuseIf_neg_bind hcl]
      refine not_faults_entries fun k hk => ?_
      rw [fixedEntry_eq hi hm (by omega) (by omega)]
      split
      · exact not_faults_value _
      · exact not_faults_refused

/-- The input of a transfer is read up to its offsets, and one of these has no room for a word
after it. -/
def TransferReachesLastWord (data : Bytes) : Prop :=
  data.length ∈ transferLengths ∧ ∃ spendOff sigOff receiveOff value leafCount,
    fieldAt data 0 = some spendOff ∧ fieldAt data 32 = some sigOff ∧
      fieldAt data 64 = some receiveOff ∧ fieldAt data 192 = some value ∧ (value : Int) ≤ i64Max ∧
        fieldAt data 1280 = some leafCount ∧
          (lastWord ≤ spendOff ∨ lastWord ≤ sigOff ∨ lastWord ≤ receiveOff)

theorem not_faults_sliceItems (data : Bytes) (offset count size : Nat) :
    ¬ (sliceItems data offset count size).Faults := by
  rw [sliceItems, checkedMul]
  split
  swap
  · exact not_faults_refused
  rw [value_bind, checkedAdd]
  split
  swap
  · exact not_faults_refused
  rw [value_bind, get]
  split
  · exact not_faults_value _
  · exact not_faults_refused

theorem not_faults_checkedAdd (a b : Nat) : ¬ (checkedAdd a b).Faults := by
  unfold checkedAdd
  split
  · exact not_faults_value _
  · exact not_faults_refused

theorem not_faults_refuseIf (p : Prop) [Decidable p] : ¬ (refuseIf p).Faults := by
  unfold refuseIf
  split
  · exact not_faults_refused
  · exact not_faults_value _

theorem attempt_countAt (data : Bytes) (offset : Nat) : attempt (countAt data offset) =
    if lastWord ≤ offset then .fault .overflow else .value (fieldAt data offset) := by
  have hl : lastWord + 31 = usizeMax := by decide
  unfold countAt
  by_cases hle : lastWord ≤ offset
  · rw [wordU64_overflow data (by omega), if_pos hle]
    rfl
  · rw [wordU64_eq data (by omega), if_neg hle]
    cases fieldAt data offset <;> rfl

/-- **`transfer` overflows** just in case one of its offsets has no room for a word after it. -/
theorem faults_transferParts_iff (data : Bytes) :
    (transferParts data).Faults ↔ TransferReachesLastWord data := by
  have hf : ∀ offset ≤ 1280, offset + 32 ≤ usizeMax := by
    intro offset hof
    have hm : 1312 ≤ usizeMax := by decide
    omega
  unfold TransferReachesLastWord
  rw [transferParts]
  by_cases hl : data.length ∈ transferLengths
  swap
  · rw [refuseIf_pos_bind hl]
    exact iff_of_false not_faults_refused fun h => hl h.1
  rw [refuseIf_neg_bind (not_not_intro hl), wordU64_eq data (hf 0 (by decide)),
    wordU64_eq data (hf 32 (by decide)), wordU64_eq data (hf 64 (by decide)), wordI64,
    wordU64_eq data (hf 192 (by decide)), wordU64_eq data (hf 1280 (by decide))]
  -- a field that is refused ends the reading before an offset is used
  rcases hsp : fieldAt data 0 with _ | spendOff
  · exact iff_of_false not_faults_refused (by rintro ⟨-, _, _, _, _, _, h, -⟩; cases h)
  rcases hsi : fieldAt data 32 with _ | sigOff
  · exact iff_of_false not_faults_refused (by rintro ⟨-, _, _, _, _, _, -, h, -⟩; cases h)
  rcases hrec : fieldAt data 64 with _ | receiveOff
  · exact iff_of_false not_faults_refused
      (by rintro ⟨-, _, _, _, _, _, -, -, h, -⟩; cases h)
  rcases hv : fieldAt data 192 with _ | value
  · exact iff_of_false not_faults_refused
      (by rintro ⟨-, _, _, _, _, _, -, -, -, h, -⟩; cases h)
  by_cases hvl : (value : Int) > i64Max
  · simp only [ofOption_some_bind, refuseIf_pos_bind hvl]
    refine iff_of_false not_faults_refused ?_
    rintro ⟨-, _, _, _, _, _, -, -, -, h, hle, -⟩
    cases h
    omega
  rcases hlea : fieldAt data 1280 with _ | leafCount
  · simp only [ofOption_some_bind, refuseIf_neg_bind hvl]
    exact iff_of_false not_faults_refused
      (by rintro ⟨-, _, _, _, _, _, -, -, -, -, -, h, -⟩; cases h)
  simp only [ofOption_some_bind, refuseIf_neg_bind hvl, Decoded.pure_bind, attempt_countAt]
  by_cases hre : lastWord ≤ spendOff ∨ lastWord ≤ sigOff ∨ lastWord ≤ receiveOff
  · refine iff_of_true ?_ ⟨hl, _, _, _, _, _, rfl, rfl, rfl, rfl, Int.not_lt.mp hvl, rfl,
      hre⟩
    by_cases hs : lastWord ≤ spendOff
    · rw [if_pos hs]
      exact ⟨_, rfl⟩
    rw [if_neg hs, value_bind]
    by_cases hg : lastWord ≤ sigOff
    · rw [if_pos hg]
      exact ⟨_, rfl⟩
    rw [if_neg hg, value_bind, if_pos (by omega)]
    exact ⟨_, rfl⟩
  · have hn := not_or.mp hre
    have ho := not_or.mp hn.2
    refine iff_of_false ?_ ?_
    · rw [if_neg hn.1, if_neg ho.1, if_neg ho.2, value_bind, value_bind, value_bind]
      refine not_faults_bind (not_faults_ofOption _) fun sc _ => ?_
      refine not_faults_bind (not_faults_ofOption _) fun sigc _ => ?_
      refine not_faults_bind (not_faults_ofOption _) fun rc _ => ?_
      refine not_faults_bind (not_faults_refuseIf _) fun _ _ => ?_
      have hra : 1280 ≤ data.length := by
        simp only [transferLengths, List.mem_cons, List.not_mem_nil, or_false] at hl
        omega
      rw [slice_eq (by decide) hra, value_bind]
      refine not_faults_bind (not_faults_refuseIf _) fun _ _ => ?_
      refine not_faults_bind (not_faults_checkedAdd _ _) fun spendItems _ => ?_
      refine not_faults_bind (not_faults_checkedAdd _ _) fun sigItems _ => ?_
      refine not_faults_bind (not_faults_checkedAdd _ _) fun receiveItems _ => ?_
      refine not_faults_bind (not_faults_sliceItems _ _ _ _) fun spends _ => ?_
      refine not_faults_bind (not_faults_sliceItems _ _ _ _) fun sigs _ => ?_
      refine not_faults_bind (not_faults_sliceItems _ _ _ _) fun outputs _ => ?_
      exact not_faults_value _
    · rintro ⟨-, _, _, _, _, _, hs, hg, hr, -, -, -, h⟩
      cases hs
      cases hg
      cases hr
      exact hre h

end

/-! ## Correctness -/

theorem fieldAt_append {before after : Bytes} {pos n : Nat} (hp : before.length = pos)
    (hn : n ≤ usizeMax) : fieldAt (before ++ (Abi.word n ++ after)) pos = some n := by
  have hm : usizeMax < 2 ^ 256 := by decide
  rw [fieldAt, Abi.numberAt_append hp (by omega), Option.filter_some, decide_eq_true hn,
    if_pos rfl]

section

variable {before after i : Bytes} {bs : List Bytes} {head max base : Nat}

theorem arrayAt_encoded (hi : i.length ≤ isizeMax)
    (he : i = before ++ (Abi.bytesArray bs ++ after)) (hb : before.length = base)
    (ha : base % 32 = 0) (hba : fieldAt i (32 * head) = some base) (hm : bs.length ≤ max) :
    ArrayAt i head max base bs.length := by
  have hs : isizeMax ≤ usizeMax := by decide
  have hl : i.length = base + ((Abi.bytesArray bs).length + after.length) := by
    rw [he, List.length_append, List.length_append, hb]
  rw [Abi.length_bytesArray] at hl
  refine ⟨hba, ha, by omega, ?_, hm, by omega⟩
  rw [he, Abi.bytesArray, List.append_assoc]
  exact fieldAt_append hb (by omega)

theorem fieldAt_first (hi : i.length ≤ isizeMax)
    (he : i = before ++ (Abi.bytesArray bs ++ after)) (hb : before.length = base)
    (hne : bs ≠ []) : fieldAt i (base + 32) = some (32 * bs.length) := by
  have hsi : isizeMax ≤ usizeMax := by decide
  have hl : i.length = base + ((Abi.bytesArray bs).length + after.length) := by
    rw [he, List.length_append, List.length_append, hb]
  rw [Abi.length_bytesArray] at hl
  obtain ⟨b, rest, rfl⟩ := List.exists_cons_of_ne_nil hne
  have hs : i = (before ++ Abi.word (b :: rest).length) ++
      (Abi.word (32 * (b :: rest).length) ++
        (Abi.offsets (32 * (b :: rest).length + (Abi.bytes b).length) rest ++
          ((b :: rest).flatMap Abi.bytes ++ after))) := by
    rw [he, Abi.bytesArray, Abi.offsets]
    simp only [List.append_assoc]
  rw [hs]
  refine fieldAt_append ?_ (by omega)
  rw [List.length_append, Abi.length_word, hb]

theorem split_last {b : Bytes} {rest : List Bytes}
    (he : i = before ++ (Abi.bytesArray (rest ++ [b]) ++ after))
    (hb : before.length = base) :
    ∃ start : Bytes, start.length = base + 32 * (rest.length + 1) ∧ i = start ++ (Abi.word (32 * (rest.length + 1) + (rest.flatMap Abi.bytes).length) ++
        ((rest ++ [b]).flatMap Abi.bytes ++ after)) := by
  refine ⟨before ++ (Abi.word (rest ++ [b]).length ++ Abi.offsets (32 * (rest.length + 1)) rest),
    ?_, ?_⟩
  · rw [List.length_append, List.length_append, Abi.length_word, Abi.length_offsets, hb]
    omega
  · rw [he, Abi.bytesArray, List.length_append, List.length_singleton, Abi.offsets_append]
    simp only [Abi.offsets, List.append_assoc, List.nil_append]

theorem first_of_bind_eq {x : Decoded (List Bytes)} {b c : Bytes} {cs : List Bytes}
    (h : (x >>= fun bs => pure (b :: bs)) = .value (c :: cs)) : b = c := by
  cases x with
  | value bs => exact List.head_eq_of_cons_eq (Decoded.value.inj h)
  | refused => cases h
  | fault p => cases h

/-- **What the first element is read as**: as many bytes as the last offset says, from the first
length on. -/
theorem bytesEntry_first {b : Bytes} {rest : List Bytes} (hi : i.length ≤ isizeMax)
    (he : i = before ++ (Abi.bytesArray (rest ++ [b]) ++ after))
    (hb : before.length = base) (ha : base % 32 = 0) (strict : Bool) {stop : Nat}
    (hsto : stop = base + 32 * (rest.length + 2) +
      (32 * (rest.length + 1) + (rest.flatMap Abi.bytes).length)) :
    bytesEntry i base strict 0 = ofOption
      (if stop ≤ i.length ∧ (strict = true → Padded i stop) then
        some (((rest ++ [b]).flatMap Abi.bytes ++ after).take
          (32 * (rest.length + 1) + (rest.flatMap Abi.bytes).length))
      else none) := by
  have hla : isizeMax + 64 ≤ lastWord := by decide
  have hm : isizeMax ≤ usizeMax := by decide
  have hl : i.length = base + ((Abi.bytesArray (rest ++ [b])).length + after.length) := by
    rw [he, List.length_append, List.length_append, hb]
  rw [Abi.length_bytesArray, List.length_append, List.length_singleton, List.flatMap_append,
    List.length_append] at hl
  have ho : fieldAt i (base + 32) = some (32 * (rest.length + 1)) := by
    have := fieldAt_first hi he hb
      (List.append_ne_nil_of_right_ne_nil _ (List.cons_ne_nil _ _))
    rwa [List.length_append, List.length_singleton] at this
  obtain ⟨start, hst, hs⟩ := split_last he hb
  have hle : fieldAt i (base + 32 * (rest.length + 1)) =
      some (32 * (rest.length + 1) + (rest.flatMap Abi.bytes).length) := by
    rw [hs]
    exact fieldAt_append hst (by omega)
  have hd : i.drop (base + 32 * (rest.length + 1) + 32) =
      (rest ++ [b]).flatMap Abi.bytes ++ after := by
    rw [hs, ← List.append_assoc]
    exact List.drop_left' (by rw [List.length_append, hst, Abi.length_word])
  have hn : ¬ Overflows i base 0 := by
    rw [Overflows, Nat.mul_zero, Nat.add_zero, ho, Option.some.injEq]
    omega
  rw [bytesEntry_eq hi strict ha (by omega), if_neg hn, entryAt, Nat.mul_zero, Nat.add_zero,
    ho, Option.bind_eq_bind, Option.bind_some, if_pos ⟨by omega, by omega⟩, contentAt, hle,
    Option.bind_eq_bind, Option.bind_some, hd]
  have hen : base + 32 * (rest.length + 1) + 32 +
      (32 * (rest.length + 1) + (rest.flatMap Abi.bytes).length) = stop := by omega
  rw [hen]

/-- **An array in the standard encoding** is read as it was written just in case it is empty, or
its only element is the word that tells its length. -/
theorem bytesArray_encoded_iff (hi : i.length ≤ isizeMax) (hh : head * 32 + 32 ≤ usizeMax)
    (he : i = before ++ (Abi.bytesArray bs ++ after)) (hbe : before.length = base)
    (ha : base % 32 = 0) (hba : fieldAt i (32 * head) = some base) (hm : bs.length ≤ max)
    (strict : Bool) :
    bytesArray i head max strict = .value bs ↔ bs = [] ∨ bs = [Abi.word 32] := by
  have har := arrayAt_encoded hi he hbe ha hba hm
  have hr : bytesArray i head max strict = entries (bytesEntry i base strict) bs.length 0 := by
    rcases bytesArray_eq hi max hh strict with ⟨base', count, h, heq⟩ | ⟨hn, -⟩
    · obtain ⟨rfl, rfl⟩ := har.unique h
      exact heq
    · exact absurd ⟨_, _, har⟩ hn
  have hl : i.length = base + ((Abi.bytesArray bs).length + after.length) := by
    rw [he, List.length_append, List.length_append, hbe]
  rw [hr]
  rcases List.eq_nil_or_concat bs with rfl | ⟨rest, b, rfl⟩
  · exact iff_of_true rfl (.inl rfl)
  rw [List.concat_eq_append] at he hl ⊢
  rw [Abi.length_bytesArray, List.length_append, List.length_singleton, List.flatMap_append,
    List.length_append, List.flatMap_singleton, Abi.length_bytes] at hl
  cases rest with
  | nil =>
    -- the length word of the element is read in place of the element
    simp only [List.length_nil, List.flatMap_nil] at hl
    have hend : paddedEnd (base + 64 + 32) = base + 64 + 32 := by
      unfold paddedEnd
      omega
    have hp : Padded i (base + 64 + 32) := by
      refine ⟨by omega, ?_⟩
      rw [hend, Nat.sub_self]
      exact fun _ h => nomatch h
    have hen : bytesEntry i base strict 0 = .value (Abi.word b.length) := by
      rw [bytesEntry_first hi he hbe ha strict (rfl : base + 64 + 32 = _),
        if_pos ⟨by omega, fun _ => hp⟩]
      refine congrArg Decoded.value ?_
      rw [List.nil_append, List.flatMap_singleton, Abi.bytes, List.append_assoc]
      exact List.take_left' (Abi.length_word _)
    change (bytesEntry i base strict 0 >>= fun first => pure [first]) = .value [b] ↔ _
    rw [hen, value_bind]
    constructor
    · intro heq
      have hb : Abi.word b.length = b := List.head_eq_of_cons_eq (Decoded.value.inj heq)
      have hl : b.length = 32 := hb ▸ Abi.length_word _
      rw [hl] at hb
      exact .inr (congrArg (fun b => [b]) hb.symm)
    · rintro (h | h)
      · cases h
      · have hb : b = Abi.word 32 := List.head_eq_of_cons_eq h
        rw [hb, Abi.length_word]
        rfl
  | cons first rest =>
    refine iff_of_false (fun heq => ?_) ?_
    · -- the first element would be longer than it was
      rw [List.length_append, List.length_singleton] at heq
      change (bytesEntry i base strict 0 >>= fun b' => _) = _ at heq
      rw [bytesEntry_first hi he hbe ha strict rfl] at heq
      split at heq
      · next hw =>
        rw [ofOption_some_bind] at heq
        have hb := congrArg List.length (first_of_bind_eq heq)
        have hlo : 32 + first.length ≤ ((first :: rest).flatMap Abi.bytes).length := by
          rw [List.flatMap_cons, List.length_append, Abi.length_bytes]
          omega
        have hle := hw.1
        rw [List.length_take, List.length_append, List.flatMap_append, List.length_append,
          List.flatMap_singleton, Abi.length_bytes] at hb
        omega
      · cases heq
    · rintro (h | h)
      · cases h
      · have := congrArg List.length h
        simp only [List.length_append, List.length_cons, List.length_nil] at this
        omega

theorem entries_value {entry : Nat → Decoded Bytes} {ws : List Bytes} {n : Nat}
    (h : ∀ k (hk : k < ws.length), entry (n + k) = .value ws[k]) :
    entries entry ws.length n = .value ws := by
  induction ws generalizing n with
  | nil => rfl
  | cons w ws ih =>
    have hf : entry n = .value w := h 0 (Nat.succ_pos _)
    have hr : entries entry ws.length (n + 1) = .value ws := by
      refine ih fun k hk => ?_
      rw [Nat.add_right_comm]
      exact h (k + 1) (Nat.succ_lt_succ hk)
    rw [List.length_cons, entries, hf, value_bind, hr]
    rfl

theorem word_of_flatten {ws : List Bytes} (hws : ∀ w ∈ ws, w.length = 32) (after : Bytes) {k : Nat}
    (hk : k < ws.length) : ((ws.flatten ++ after).drop (32 * k)).take 32 = ws[k] := by
  induction ws generalizing k with
  | nil => cases hk
  | cons w ws ih =>
    have hw := hws w List.mem_cons_self
    rw [List.flatten_cons, List.append_assoc]
    cases k with
    | zero => exact List.take_left' hw
    | succ k =>
      have hs : 32 * (k + 1) = w.length + 32 * k := by omega
      rw [hs, ← List.drop_drop, List.drop_left, List.getElem_cons_succ]
      exact ih (fun w' hw' => hws w' (List.mem_cons_of_mem _ hw')) (Nat.lt_of_succ_lt_succ hk)

theorem length_flatten_words {ws : List Bytes} (hws : ∀ w ∈ ws, w.length = 32) :
    ws.flatten.length = 32 * ws.length := by
  induction ws with
  | nil => rfl
  | cons w ws ih =>
    rw [List.flatten_cons, List.length_append, hws w List.mem_cons_self,
      ih fun w' hw' => hws w' (List.mem_cons_of_mem _ hw'), List.length_cons]
    omega

/-- **An array of words in the standard encoding** is read as it was written. -/
theorem fixedArray_encoded {ws : List Bytes} (hi : i.length ≤ isizeMax)
    (hh : head * 32 + 32 ≤ usizeMax) (he : i = before ++ (Abi.words ws ++ after))
    (hb : before.length = base) (ha : base % 32 = 0)
    (hba : fieldAt i (32 * head) = some base) (hws : ∀ w ∈ ws, w.length = 32)
    (hm : ws.length ≤ max) (hm' : max ≤ 16) : fixedArray i head max = .value ws := by
  have hs : isizeMax + 63 ≤ usizeMax := by decide
  have hf := length_flatten_words hws
  have hl : i.length = base + (32 + 32 * ws.length + after.length) := by
    rw [he, List.length_append, List.length_append, Abi.words, List.length_append,
      Abi.length_word, hb, hf]
  have hc : fieldAt i base = some ws.length := by
    rw [he, Abi.words, List.append_assoc]
    exact fieldAt_append hb (by omega)
  have hin : 32 * (base / 32) = base := by omega
  rw [fixedArray, uint_eq i hh, hba, ofOption_some_bind,
    refuseIf_neg_bind (not_not_intro ha), uint_eq i (by omega), hin, hc,
    ofOption_some_bind, refuseIf_neg_bind (Nat.not_lt.mpr hm)]
  refine entries_value fun k hk => ?_
  have hd : i.drop (base + 32) = ws.flatten ++ after := by
    rw [he, Abi.words, ← List.append_assoc, ← List.append_assoc, List.append_assoc]
    exact List.drop_left' (by rw [List.length_append, hb, Abi.length_word])
  rw [Nat.zero_add, fixedEntry_eq hi ha (by omega) (by omega), if_pos (by omega),
    ← List.drop_drop, hd, word_of_flatten hws after hk]

end

/-! ## Calls -/

/-- The twenty bytes of an address. -/
structure Address20 where
  bytes : Bytes
  length_eq : bytes.length = 20

namespace Address20

/-- An address in a word. -/
def word (a : Address20) : Bytes := List.replicate 12 0 ++ a.bytes

theorem length_word (a : Address20) : a.word.length = 32 := by
  rw [word, List.length_append, List.length_replicate, a.length_eq]

end Address20

/-- The standard encoding of `(bytes32, bytes[], address[])`. -/
def encodeBatch (hash : Hash32) (sigs : List Bytes) (addrs : List Address20) : Bytes :=
  hash.bytes ++ (Abi.word 96 ++ (Abi.word (96 + (Abi.bytesArray sigs).length) ++
    (Abi.bytesArray sigs ++ Abi.words (addrs.map Address20.word))))

/-- The standard encoding of `(address, uint256, bytes32, bytes[])`. -/
def encodeMulti (owner : Address20) (permission : Word) (data : Hash32) (sigs : List Bytes) :
    Bytes :=
  owner.word ++ (permission.toBeBytes ++ (data.bytes ++ (Abi.word 128 ++ Abi.bytesArray sigs)))

/-- A call of the contract that checks many signatures of one hash: a hash, and signatures with the
addresses that are expected. -/
structure BatchCall where
  hash : Hash32
  checks : List (Bytes × Address20)
  count_le : checks.length ≤ 16
  fits : (encodeBatch hash (checks.map Prod.fst) (checks.map Prod.snd)).length ≤ isizeMax

namespace BatchCall

def sigs (c : BatchCall) : List Bytes := c.checks.map Prod.fst

def addrs (c : BatchCall) : List Bytes := (c.checks.map Prod.snd).map Address20.word

def encoded (c : BatchCall) : Bytes := encodeBatch c.hash c.sigs (c.checks.map Prod.snd)

end BatchCall

/-- A call of the contract that checks the signatures of an account. -/
structure MultiCall where
  owner : Address20
  permission : Word
  data : Hash32
  sigs : List Bytes
  count_le : sigs.length ≤ 5
  fits : (encodeMulti owner permission data sigs).length ≤ isizeMax

def MultiCall.encoded (c : MultiCall) : Bytes := encodeMulti c.owner c.permission c.data c.sigs

theorem head_fits {head : Nat} (h : head ≤ 5) : head * 32 + 32 ≤ usizeMax := by
  have hm : 192 ≤ usizeMax := by decide
  omega

theorem bytesArray_batch_iff (call : BatchCall) (strict : Bool) :
    bytesArray call.encoded 1 16 strict = .value call.sigs ↔
      call.sigs = [] ∨ call.sigs = [Abi.word 32] := by
  have hm : 96 ≤ usizeMax := by decide
  have he : call.encoded = (call.hash.bytes ++ (Abi.word 96 ++
      Abi.word (96 + (Abi.bytesArray call.sigs).length))) ++
        (Abi.bytesArray call.sigs ++ Abi.words call.addrs) := by
    simp only [BatchCall.encoded, encodeBatch, BatchCall.addrs, List.append_assoc]
  have hb : (call.hash.bytes ++ (Abi.word 96 ++
      Abi.word (96 + (Abi.bytesArray call.sigs).length))).length = 96 := by
    simp only [List.length_append, Abi.length_word, call.hash.length_eq]
  refine bytesArray_encoded_iff call.fits (head_fits (by decide)) he hb rfl ?_ ?_ strict
  · exact fieldAt_append call.hash.length_eq hm
  · rw [BatchCall.sigs, List.length_map]
    exact call.count_le

theorem fixedArray_batch (call : BatchCall) :
    fixedArray call.encoded 2 16 = .value call.addrs := by
  have hm : isizeMax ≤ usizeMax := by decide
  have hf : call.encoded.length ≤ isizeMax := call.fits
  have he : call.encoded = (call.hash.bytes ++ (Abi.word 96 ++
      (Abi.word (96 + (Abi.bytesArray call.sigs).length) ++ Abi.bytesArray call.sigs))) ++
        (Abi.words call.addrs ++ []) := by
    simp only [BatchCall.encoded, encodeBatch, BatchCall.addrs, List.append_assoc, List.append_nil]
  have hl := congrArg List.length he
  simp only [List.length_append, Abi.length_word, call.hash.length_eq] at hl
  have hb : (call.hash.bytes ++ (Abi.word 96 ++ (Abi.word
      (96 + (Abi.bytesArray call.sigs).length) ++ Abi.bytesArray call.sigs))).length =
        96 + (Abi.bytesArray call.sigs).length := by
    simp only [List.length_append, Abi.length_word, call.hash.length_eq]
    omega
  refine fixedArray_encoded hf (head_fits (by decide)) he hb ?_ ?_ ?_ ?_
    (Nat.le_refl _)
  · have hd := Abi.dvd_length_flatMap_bytes call.sigs
    rw [Abi.length_bytesArray]
    omega
  · have hs : call.encoded = (call.hash.bytes ++ Abi.word 96) ++
        (Abi.word (96 + (Abi.bytesArray call.sigs).length) ++
          (Abi.bytesArray call.sigs ++ Abi.words call.addrs)) := by
      simp only [BatchCall.encoded, encodeBatch, BatchCall.addrs, List.append_assoc]
    rw [hs]
    refine fieldAt_append ?_ (by omega)
    rw [List.length_append, call.hash.length_eq, Abi.length_word]
  · intro w hw
    obtain ⟨a, -, rfl⟩ := List.mem_map.mp hw
    exact a.length_word
  · rw [BatchCall.addrs, List.length_map, List.length_map]
    exact call.count_le

theorem bytesArray_multi_iff (call : MultiCall) (strict : Bool) :
    bytesArray call.encoded 3 5 strict = .value call.sigs ↔
      call.sigs = [] ∨ call.sigs = [Abi.word 32] := by
  have hm : 128 ≤ usizeMax := by decide
  have hp : call.permission.toBeBytes.length = 32 := by
    rw [Word.toBeBytes, List.length_map, List.length_range]
  have he : call.encoded = (call.owner.word ++ (call.permission.toBeBytes ++
      (call.data.bytes ++ Abi.word 128))) ++ (Abi.bytesArray call.sigs ++ []) := by
    simp only [MultiCall.encoded, encodeMulti, List.append_assoc, List.append_nil]
  have hs : call.encoded = (call.owner.word ++ (call.permission.toBeBytes ++ call.data.bytes)) ++
      (Abi.word 128 ++ Abi.bytesArray call.sigs) := by
    simp only [MultiCall.encoded, encodeMulti, List.append_assoc]
  have hf : call.encoded.length ≤ isizeMax := call.fits
  have hb : (call.owner.word ++ (call.permission.toBeBytes ++
      (call.data.bytes ++ Abi.word 128))).length = 128 := by
    simp only [List.length_append, Abi.length_word, call.data.length_eq, hp,
      call.owner.length_word]
  refine bytesArray_encoded_iff hf (head_fits (by decide)) he hb rfl ?_ call.count_le
    strict
  rw [hs]
  refine fieldAt_append ?_ hm
  simp only [List.length_append, call.data.length_eq, hp, call.owner.length_word]

theorem not_faults_word (i : Bytes) {n : Nat} (hn : n ≤ 5) : ¬ (word i n).Faults := by
  rw [word_eq i (head_fits hn)]
  split
  · exact not_faults_value _
  · exact not_faults_refused

/-- An input: no slice is longer than `isize::MAX`. -/
abbrev Slice : Type := { i : Bytes // i.length ≤ isizeMax }

/-- The decoders of a call's words and arrays, on any input: they overflow just in case they reach the
last word of the address space. -/
structure FaultsExactly (i : Slice) : Prop where
  word : ∀ n ≤ 5, ¬ (word i.1 n).Faults ∧ ¬ (uint i.1 n).Faults ∧ ¬ (int i.1 n).Faults ∧
    ¬ (address i.1 n).Faults
  batch_sigs : ∀ strict, (bytesArray i.1 1 16 strict).Faults ↔ ReachesLastWord i.1 1 16 strict
  batch_addrs : (fixedArray i.1 2 16).Faults ↔ fieldAt i.1 64 = some lastWord
  multi_sigs : ∀ strict, (bytesArray i.1 3 5 strict).Faults ↔ ReachesLastWord i.1 3 5 strict
  transfer : (transferParts i.1).Faults ↔ TransferReachesLastWord i.1

theorem faultsExactly (i : Slice) : FaultsExactly i where
  word n hn := by
    have hw := not_faults_word i.1 hn
    refine ⟨hw, ?_, ?_, ?_⟩
    · rw [uint_eq i.1 (head_fits hn)]
      exact not_faults_ofOption _
    · exact not_faults_bind hw fun w _ => not_faults_ofOption _
    · exact not_faults_bind hw fun w _ => not_faults_value _
  batch_sigs := faults_bytesArray_iff i.2 (head_fits (by decide))
  batch_addrs := faults_fixedArray_iff i.2 (head_fits (by decide)) (Nat.le_refl _)
  multi_sigs := faults_bytesArray_iff i.2 (head_fits (by decide))
  transfer := faults_transferParts_iff i.1

/-- **When the contracts understand a call, and when they are safe.** A call is understood just in
case it has no signature, or the one that spells its own length; and a decoder overflows just in case
it reaches the last word of the address space. -/
theorem decoders_meet_abi_iff (i : Slice) :
    (∀ (call : BatchCall) (strict : Bool),
      (bytesArray call.encoded 1 16 strict = .value call.sigs ∧
        fixedArray call.encoded 2 16 = .value call.addrs) ↔
          call.sigs = [] ∨ call.sigs = [Abi.word 32]) ∧
    (∀ (call : MultiCall) (strict : Bool), bytesArray call.encoded 3 5 strict = .value call.sigs ↔
      call.sigs = [] ∨ call.sigs = [Abi.word 32]) ∧
    FaultsExactly i := by
  refine ⟨fun call strict => ?_, bytesArray_multi_iff, faultsExactly i⟩
  rw [bytesArray_batch_iff]
  exact and_iff_left (fixedArray_batch call)

/-! ## A call that is not understood -/

set_option maxRecDepth 8000 in
/-- A signature of one byte. -/
def shortCall : BatchCall where
  hash := .zero
  checks := [([1], ⟨List.replicate 20 0, by decide⟩)]
  count_le := by decide
  fits := by decide

set_option maxRecDepth 8000 in
/-- An array with one element, whose offset points at the last word of the address space. -/
def lastWordInput : Slice :=
  ⟨Abi.word 0 ++ (Abi.word 64 ++ (Abi.word 1 ++ Abi.word (lastWord - 64))), by decide⟩

set_option maxRecDepth 8000 in
/-- A signature that spells its own length. -/
def ownLength : BatchCall where
  hash := .zero
  checks := [(Abi.word 32, ⟨List.replicate 20 0, by decide⟩)]
  count_le := by decide
  fits := by decide

set_option maxRecDepth 8000 in
theorem ownLength_understood :
    bytesArray ownLength.encoded 1 16 true = .value ownLength.sigs ∧
      ¬ (fixedArray lastWordInput.1 2 16).Faults := by
  have hiff := decoders_meet_abi_iff lastWordInput
  exact ⟨((hiff.1 ownLength true).mpr (.inr rfl)).1, fun h => absurd (hiff.2.2.batch_addrs.mp h)
    (by decide)⟩

set_option maxRecDepth 8000 in
theorem decoders_fail_abi :
    (bytesArray shortCall.encoded 1 16 false = .value [Abi.word 1] ∧ shortCall.sigs = [[1]]) ∧
      bytesArray lastWordInput.1 1 16 false = .fault .overflow := by
  decide

end RustTron.Tvm.Precompile
