import RustTron.Consensus.Pbft

/-!
# The wire format of votes

A message can be read off its bytes: two messages with the same bytes are the same. A signature over
the bytes of a message is a signature of that message only.

## Main results

* `varint_append_inj`: a varint ends where it says
* `Raw.bytes_inj`, `SignedMessage.bytes_inj`: messages from their bytes
-/

namespace RustTron.Consensus.Pbft

/-! ## Varints -/

theorem toNat_ofNat_of_lt {n : Nat} (h : n < 256) : (UInt8.ofNat n).toNat = n := by
  rw [UInt8.toNat_ofNat', Nat.mod_eq_of_lt h]

theorem ofNat_inj {m n : Nat} (hm : m < 256) (hn : n < 256) (h : UInt8.ofNat m = UInt8.ofNat n) :
    m = n := by
  rw [← toNat_ofNat_of_lt hm, h, toNat_ofNat_of_lt hn]

theorem varintGroups_of_lt (fuel : Nat) {n : Nat} (h : n < 128) :
    varintGroups fuel n = [UInt8.ofNat n] := by
  cases fuel with
  | zero => rfl
  | succ fuel => rw [varintGroups, if_pos h]

/-- The groups end at the first byte below 128, whatever follows. -/
theorem varintGroups_append_inj {fuel fuel' n n' : Nat} {rest rest' : Bytes} (hn : n ≤ fuel)
    (hn' : n' ≤ fuel') (h : varintGroups fuel n ++ rest = varintGroups fuel' n' ++ rest') :
    n = n' ∧ rest = rest' := by
  induction fuel generalizing fuel' n n' with
  | zero =>
    obtain rfl : n = 0 := Nat.le_zero.mp hn
    rw [varintGroups_of_lt 0 (by decide)] at h
    by_cases hlt : n' < 128
    · rw [varintGroups_of_lt fuel' hlt] at h
      obtain ⟨hh, ht⟩ := List.cons.inj h
      exact ⟨ofNat_inj (by omega) (by omega) hh, ht⟩
    · obtain ⟨fuel', rfl⟩ : ∃ k, fuel' = k + 1 := ⟨fuel' - 1, by omega⟩
      rw [varintGroups, if_neg hlt] at h
      have := ofNat_inj (by omega) (by omega) (List.cons.inj h).1
      omega
  | succ fuel ih =>
    by_cases hlt : n < 128
    · rw [varintGroups_of_lt _ hlt] at h
      by_cases hl' : n' < 128
      · rw [varintGroups_of_lt fuel' hl'] at h
        obtain ⟨hh, ht⟩ := List.cons.inj h
        exact ⟨ofNat_inj (by omega) (by omega) hh, ht⟩
      · obtain ⟨fuel', rfl⟩ : ∃ k, fuel' = k + 1 := ⟨fuel' - 1, by omega⟩
        rw [varintGroups, if_neg hl'] at h
        have := ofNat_inj (by omega) (by omega) (List.cons.inj h).1
        omega
    · rw [varintGroups, if_neg hlt] at h
      by_cases hl' : n' < 128
      · rw [varintGroups_of_lt fuel' hl'] at h
        have := ofNat_inj (by omega) (by omega) (List.cons.inj h).1
        omega
      · obtain ⟨fuel', rfl⟩ : ∃ k, fuel' = k + 1 := ⟨fuel' - 1, by omega⟩
        rw [varintGroups, if_neg hl'] at h
        obtain ⟨hh, ht⟩ := List.cons.inj h
        have hl := ofNat_inj (by omega) (by omega) hh
        obtain ⟨hhi, hr⟩ := ih (by omega) (by omega) ht
        exact ⟨by omega, hr⟩

/-- A varint ends where it says. -/
theorem varint_append_inj {n n' : Nat} {rest rest' : Bytes}
    (h : varint n ++ rest = varint n' ++ rest') : n = n' ∧ rest = rest' :=
  varintGroups_append_inj le_rfl le_rfl h

/-! ## Fields -/

theorem presentField_append_inj {tag : UInt8} {bytes bytes' rest rest' : Bytes}
    (h : presentField tag bytes ++ rest = presentField tag bytes' ++ rest') :
    bytes = bytes' ∧ rest = rest' := by
  rw [presentField, presentField, List.cons_append, List.cons_append, List.append_assoc,
    List.append_assoc] at h
  obtain ⟨hl, hb⟩ := varint_append_inj (List.cons.inj h).2
  exact List.append_inj hb hl

/-- A field of a number is told from what follows it, which begins with another tag. -/
theorem numberField_append_inj {tag : UInt8} {n n' : Nat} {rest rest' : Bytes}
    (hr : rest.head? ≠ some tag) (hr' : rest'.head? ≠ some tag)
    (h : numberField tag n ++ rest = numberField tag n' ++ rest') : n = n' ∧ rest = rest' := by
  unfold numberField at h
  by_cases hn : n = 0
  · rw [if_pos hn] at h
    by_cases hn' : n' = 0
    · rw [if_pos hn'] at h
      exact ⟨hn.trans hn'.symm, h⟩
    · rw [if_neg hn', List.nil_append] at h
      rw [h] at hr
      exact absurd rfl hr
  · rw [if_neg hn] at h
    by_cases hn' : n' = 0
    · rw [if_pos hn', List.nil_append] at h
      rw [← h] at hr'
      exact absurd rfl hr'
    · rw [if_neg hn'] at h
      exact varint_append_inj (List.cons.inj h).2

theorem bytesField_inj {tag : UInt8} {bytes bytes' : Bytes}
    (h : bytesField tag bytes = bytesField tag bytes') : bytes = bytes' := by
  unfold bytesField at h
  by_cases hb : bytes = [] <;> by_cases hb' : bytes' = []
  · rw [hb, hb']
  · rw [if_pos hb, if_neg hb'] at h
    cases h
  · rw [if_neg hb, if_pos hb'] at h
    cases h
  · rw [if_neg hb, if_neg hb'] at h
    have := congrArg (· ++ ([] : Bytes)) h
    exact (presentField_append_inj this).1

theorem head_numberField {tag other : UInt8} (ht : tag ≠ other) (n : Nat) {rest : Bytes}
    (hr : rest.head? ≠ some other) : (numberField tag n ++ rest).head? ≠ some other := by
  unfold numberField
  split
  · exact hr
  · exact fun h => ht (Option.some.inj h)

theorem head_bytesField {tag other : UInt8} (ht : tag ≠ other) (bytes : Bytes) :
    (bytesField tag bytes).head? ≠ some other := by
  unfold bytesField
  split
  · exact fun h => nomatch h
  · exact fun h => ht (Option.some.inj h)

/-! ## Messages -/

theorem MsgType.wire_inj {t t' : MsgType} (h : t.wire = t'.wire) : t = t' := by
  cases t <;> cases t' <;> first | rfl | exact absurd h (by decide)

theorem DataType.wire_inj {t t' : DataType} (h : t.wire = t'.wire) : t = t' := by
  cases t <;> cases t' <;> first | rfl | exact absurd h (by decide)

theorem toUInt64_toNat_inj {x y : Int64} (h : x.toUInt64.toNat = y.toUInt64.toNat) : x = y := by
  cases x
  cases y
  exact congrArg Int64.ofUInt64 (UInt64.toNat_inj.mp h)

/-- A message can be read off its bytes. -/
theorem Raw.bytes_inj {raw raw' : Raw} (h : raw.bytes = raw'.bytes) : raw = raw' := by
  have hd : ∀ {tag : UInt8} (r : Raw), 0x2a ≠ tag → (bytesField 0x2a r.data).head? ≠ some tag :=
    fun r hta => head_bytesField hta r.data
  have he : ∀ {tag : UInt8} (r : Raw), 0x2a ≠ tag → 0x20 ≠ tag → (numberField 0x20
      r.epoch.toUInt64.toNat ++ bytesField 0x2a r.data).head? ≠ some tag :=
    fun r h₁ h₂ => head_numberField h₂ _ (hd r h₁)
  have hv : ∀ {tag : UInt8} (r : Raw), 0x2a ≠ tag → 0x20 ≠ tag → 0x18 ≠ tag → (numberField 0x18
      r.viewN.toUInt64.toNat ++ (numberField 0x20 r.epoch.toUInt64.toNat ++
        bytesField 0x2a r.data)).head? ≠ some tag :=
    fun r h₁ h₂ h₃ => head_numberField h₃ _ (he r h₁ h₂)
  have hk : ∀ {tag : UInt8} (r : Raw), 0x2a ≠ tag → 0x20 ≠ tag → 0x18 ≠ tag → 0x10 ≠ tag →
      (numberField 0x10 r.dataType.wire ++ (numberField 0x18 r.viewN.toUInt64.toNat ++
        (numberField 0x20 r.epoch.toUInt64.toNat ++ bytesField 0x2a r.data))).head? ≠ some tag :=
    fun r h₁ h₂ h₃ h₄ => head_numberField h₄ _ (hv r h₁ h₂ h₃)
  obtain ⟨ht, h⟩ := numberField_append_inj (hk raw (by decide) (by decide) (by decide)
    (by decide)) (hk raw' (by decide) (by decide) (by decide) (by decide)) h
  obtain ⟨hdt, h⟩ := numberField_append_inj (hv raw (by decide) (by decide) (by decide))
    (hv raw' (by decide) (by decide) (by decide)) h
  obtain ⟨hvn, h⟩ := numberField_append_inj (he raw (by decide) (by decide))
    (he raw' (by decide) (by decide)) h
  obtain ⟨hep, h⟩ := numberField_append_inj (hd raw (by decide)) (hd raw' (by decide)) h
  cases raw
  cases raw'
  congr
  · exact MsgType.wire_inj ht
  · exact DataType.wire_inj hdt
  · exact toUInt64_toNat_inj hvn
  · exact toUInt64_toNat_inj hep
  · exact bytesField_inj h

theorem SignedMessage.bytes_inj {m m' : SignedMessage} (h : m.bytes = m'.bytes) : m = m' := by
  obtain ⟨hr, hs⟩ := presentField_append_inj h
  cases m
  cases m'
  congr
  · exact Raw.bytes_inj hr
  · exact bytesField_inj hs

end RustTron.Consensus.Pbft
