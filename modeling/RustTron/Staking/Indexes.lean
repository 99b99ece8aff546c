import RustTron.Staking.Runs

/-!
# The index of delegations

Beside the rows of delegated stake there is an index of them, so that an account can list whom it
lends to and who lends to it. The index has two representations for the legacy rows, the lists of
the two accounts and a row for each pair, and a third for the second generation. It lists a pair
exactly while there is stake between the two, as long as no legacy delegation that has rows of its
own in the index is taken back: `remove_indexes` edits the lists only.

## Main definitions

* `Present`, `fromListed`, `toListed`: a pair is listed on either side
* `Lists`: the index lists the pairs of a relation
* `Holds`: there is stake between two accounts
* `ClearsIndex`: an operation that ends a legacy delegation finds no index rows of the pair

## Main results

* `Lists.convertIndexes`, `Lists.putIndexes`, `Lists.removeIndexes`: what the operations on the
  index list
* `Indexed.execute`: an operation that clears its index keeps the index
* `delegation_ledger_of_run`: accounts, rows and index agree after every run
-/

namespace RustTron.Actuator

open Position

/-! ## What the index lists -/

/-- A row stands in the index. -/
def Present (s : Indexes) (key : Bytes) : Prop := (s.lookup key).isSome = true

/-- `sender` is listed as lending to `receiver`, on the side of `sender`. -/
def fromListed (s : Indexes) (g : Generation) (sender receiver : Bytes) : Prop :=
  match g with
  | .legacy => receiver ∈ (index s sender).toAccounts ∨ Present s (fromIndexKey sender receiver)
  | .v2 => Present s (v2FromIndexKey sender receiver)

/-- `sender` is listed as lending to `receiver`, on the side of `receiver`. -/
def toListed (s : Indexes) (g : Generation) (sender receiver : Bytes) : Prop :=
  match g with
  | .legacy => sender ∈ (index s receiver).fromAccounts ∨ Present s (toIndexKey receiver sender)
  | .v2 => Present s (v2ToIndexKey receiver sender)

/-- The index lists the pairs of `P`, on both sides. -/
def Lists (s : Indexes) (P : Generation → Bytes → Bytes → Prop) : Prop :=
  ∀ g sender receiver, validAddress sender = true → validAddress receiver = true →
    (fromListed s g sender receiver ↔ P g sender receiver) ∧
      (toListed s g sender receiver ↔ P g sender receiver)

theorem Lists.congr {s : Indexes} {P Q : Generation → Bytes → Bytes → Prop} (h : Lists s P)
    (hPQ : ∀ g sender receiver, validAddress sender = true → validAddress receiver = true →
      (P g sender receiver ↔ Q g sender receiver)) : Lists s Q := by
  intro g sender receiver hs hr
  obtain ⟨hf, hto⟩ := h g sender receiver hs hr
  have hi := hPQ g sender receiver hs hr
  exact ⟨hf.trans hi, hto.trans hi⟩

/-- The relation `P` and one more pair. -/
def withPair (P : Generation → Bytes → Bytes → Prop) (g : Generation) (s r : Bytes)
    (g' : Generation) (s' r' : Bytes) : Prop :=
  (g' = g ∧ s' = s ∧ r' = r) ∨ P g' s' r'

/-- The relation `P` without one pair. -/
def withoutPair (P : Generation → Bytes → Bytes → Prop) (g : Generation) (s r : Bytes)
    (g' : Generation) (s' r' : Bytes) : Prop :=
  ¬ (g' = g ∧ s' = s ∧ r' = r) ∧ P g' s' r'

/-! ## Keys of the index -/

theorem ne_prefixedPair_of_valid {k : Bytes} (hk : validAddress k = true) {tag : UInt8}
    (ht : tag ≠ 0x41) (a b : Bytes) : k ≠ prefixedPair tag a b := by
  rintro rfl
  simp only [validAddress, prefixedPair, List.head?_cons, Option.some.injEq, Bool.decide_and,
    Bool.and_eq_true, decide_eq_true_eq] at hk
  exact ht hk.2

/-- Two keys whose second parts are addresses differ in no part when they are equal. -/
theorem prefixedPair_inj_right {tag tag' : UInt8} {a b a' b' : Bytes} (hb : validAddress b = true)
    (hb' : validAddress b' = true) (h : prefixedPair tag a b = prefixedPair tag' a' b') :
    tag = tag' ∧ a = a' ∧ b = b' := by
  simp only [prefixedPair, List.cons.injEq] at h
  have hl := (length_of_validAddress hb).trans (length_of_validAddress hb').symm
  exact ⟨h.1, List.append_inj' h.2 hl⟩

theorem prefixedPair_eq_iff {tag tag' : UInt8} {a b a' b' : Bytes} (ha : validAddress a = true)
    (ha' : validAddress a' = true) :
    prefixedPair tag a b = prefixedPair tag' a' b' ↔ tag = tag' ∧ a = a' ∧ b = b' := by
  constructor
  · exact prefixedPair_inj ha ha'
  · rintro ⟨rfl, rfl, rfl⟩
    rfl

theorem prefixedPair_eq_iff_right {tag tag' : UInt8} {a b a' b' : Bytes}
    (hb : validAddress b = true) (hb' : validAddress b' = true) :
    prefixedPair tag a b = prefixedPair tag' a' b' ↔ tag = tag' ∧ a = a' ∧ b = b' := by
  constructor
  · exact prefixedPair_inj_right hb hb'
  · rintro ⟨rfl, rfl, rfl⟩
    rfl

section Rows

variable (s : Indexes) {key key' : Bytes} (row : DelegatedResourceAccountIndex)

theorem present_insert : Present (s.insert key row) key' ↔ key' = key ∨ Present s key' := by
  unfold Present
  by_cases h : key' = key
  · subst h
    simp
  · rw [Finmap.lookup_insert_of_ne _ h]
    simp [h]

theorem present_erase : Present (s.erase key) key' ↔ key' ≠ key ∧ Present s key' := by
  unfold Present
  by_cases h : key' = key
  · subst h
    simp
  · rw [Finmap.lookup_erase_ne h]
    simp [h]

theorem index_insert_self : index (s.insert key row) key = row := by simp [index]

theorem index_insert_of_ne (h : key' ≠ key) : index (s.insert key row) key' = index s key' := by
  rw [index, Finmap.lookup_insert_of_ne _ h, index]

theorem index_erase_self : index (s.erase key) key = { account := key } := by simp [index]

theorem index_erase_of_ne (h : key' ≠ key) : index (s.erase key) key' = index s key' := by
  rw [index, Finmap.lookup_erase_ne h, index]

end Rows

theorem index_insert_pair (s : Indexes) {k : Bytes} (hk : validAddress k = true) {tag : UInt8}
    (ht : tag ≠ 0x41) (a b : Bytes) (row : DelegatedResourceAccountIndex) :
    index (s.insert (prefixedPair tag a b) row) k = index s k :=
  index_insert_of_ne s row (ne_prefixedPair_of_valid hk ht a b)

theorem index_erase_pair (s : Indexes) {k : Bytes} (hk : validAddress k = true) {tag : UInt8}
    (ht : tag ≠ 0x41) (a b : Bytes) : index (s.erase (prefixedPair tag a b)) k = index s k :=
  index_erase_of_ne s (ne_prefixedPair_of_valid hk ht a b)

theorem present_insert_account (s : Indexes) {k : Bytes} (hk : validAddress k = true) {tag : UInt8}
    (ht : tag ≠ 0x41) (a b : Bytes) (row : DelegatedResourceAccountIndex) :
    Present (s.insert k row) (prefixedPair tag a b) ↔ Present s (prefixedPair tag a b) := by
  have hne : prefixedPair tag a b ≠ k := (ne_prefixedPair_of_valid hk ht a b).symm
  rw [present_insert]
  simp [hne]

theorem present_erase_account (s : Indexes) {k : Bytes} (hk : validAddress k = true) {tag : UInt8}
    (ht : tag ≠ 0x41) (a b : Bytes) :
    Present (s.erase k) (prefixedPair tag a b) ↔ Present s (prefixedPair tag a b) := by
  have hne : prefixedPair tag a b ≠ k := (ne_prefixedPair_of_valid hk ht a b).symm
  rw [present_erase]
  simp [hne]

/-! ## Rows of pairs -/

/-- The tags of the rows of pairs. -/
def pairTags : Generation → UInt8 × UInt8
  | .legacy => (1, 2)
  | .v2 => (3, 4)

theorem pairTags_ne (g : Generation) : (pairTags g).1 ≠ 0x41 ∧ (pairTags g).2 ≠ 0x41 := by
  cases g <;> decide

/-- A pair is listed by its row, or, in the legacy generation, in the list of the account. -/
theorem fromListed_iff (s : Indexes) (g : Generation) (sender receiver : Bytes) :
    fromListed s g sender receiver ↔
      (g = .legacy ∧ receiver ∈ (index s sender).toAccounts) ∨
        Present s (prefixedPair (pairTags g).1 sender receiver) := by
  cases g <;> simp [fromListed, pairTags, fromIndexKey, v2FromIndexKey]

theorem toListed_iff (s : Indexes) (g : Generation) (sender receiver : Bytes) :
    toListed s g sender receiver ↔
      (g = .legacy ∧ sender ∈ (index s receiver).fromAccounts) ∨
        Present s (prefixedPair (pairTags g).2 receiver sender) := by
  cases g <;> simp [toListed, pairTags, toIndexKey, v2ToIndexKey]

theorem pairTags_fst_inj {g g' : Generation} : (pairTags g).1 = (pairTags g').1 ↔ g = g' := by
  cases g <;> cases g' <;> decide

theorem pairTags_snd_inj {g g' : Generation} : (pairTags g).2 = (pairTags g').2 ↔ g = g' := by
  cases g <;> cases g' <;> decide

theorem pairTags_fst_ne_snd (g g' : Generation) : (pairTags g).1 ≠ (pairTags g').2 := by
  cases g <;> cases g' <;> decide

variable {s : Indexes} {P : Generation → Bytes → Bytes → Prop} {sender receiver : Bytes}

theorem Lists.putPair (h : Lists s P) {g : Generation} (hs : validAddress sender = true)
    (hr : validAddress receiver = true) (timestamp : Int) :
    Lists (putPair s (prefixedPair (pairTags g).1 sender receiver)
      (prefixedPair (pairTags g).2 receiver sender) sender receiver timestamp)
      (withPair P g sender receiver) := by
  intro g' sender' receiver' hs' hr'
  obtain ⟨hf, hto⟩ := h g' sender' receiver' hs' hr'
  rw [fromListed_iff] at hf
  rw [toListed_iff] at hto
  rw [fromListed_iff, toListed_iff, Actuator.putPair,
    index_insert_pair _ hs' (pairTags_ne g).2, index_insert_pair _ hs' (pairTags_ne g).1,
    index_insert_pair _ hr' (pairTags_ne g).2, index_insert_pair _ hr' (pairTags_ne g).1]
  simp only [present_insert, prefixedPair_eq_iff hs' hs, prefixedPair_eq_iff hs' hr,
    prefixedPair_eq_iff hr' hs, prefixedPair_eq_iff hr' hr, pairTags_fst_inj, pairTags_snd_inj,
    pairTags_fst_ne_snd, (pairTags_fst_ne_snd _ _).symm, withPair]
  constructor
  · rw [← hf]
    tauto
  · rw [← hto]
    tauto

theorem Lists.removeV2Indexes (h : Lists s P) (hs : validAddress sender = true)
    (hr : validAddress receiver = true) :
    Lists (removeV2Indexes s sender receiver) (withoutPair P .v2 sender receiver) := by
  have hfs : v2FromIndexKey sender receiver = prefixedPair (pairTags .v2).1 sender receiver := rfl
  have hsn : v2ToIndexKey receiver sender = prefixedPair (pairTags .v2).2 receiver sender := rfl
  intro g' sender' receiver' hs' hr'
  obtain ⟨hf, hto⟩ := h g' sender' receiver' hs' hr'
  rw [fromListed_iff] at hf
  rw [toListed_iff] at hto
  rw [fromListed_iff, toListed_iff, Actuator.removeV2Indexes, hfs, hsn,
    index_erase_pair _ hs' (pairTags_ne .v2).2, index_erase_pair _ hs' (pairTags_ne .v2).1,
    index_erase_pair _ hr' (pairTags_ne .v2).2, index_erase_pair _ hr' (pairTags_ne .v2).1]
  simp only [present_erase, ne_eq, prefixedPair_eq_iff hs' hs, prefixedPair_eq_iff hs' hr,
    prefixedPair_eq_iff hr' hs, prefixedPair_eq_iff hr' hr, pairTags_fst_inj, pairTags_snd_inj,
    pairTags_fst_ne_snd, (pairTags_fst_ne_snd _ _).symm, withoutPair]
  cases g' with
  | legacy =>
    constructor
    · rw [← hf]
      simp
    · rw [← hto]
      simp
  | v2 =>
    constructor
    · rw [← hf]
      simp
    · rw [← hto]
      simp only [reduceCtorEq, false_and, not_false_eq_true, true_and, false_or]
      tauto

/-! ## The lists of the accounts -/

theorem index_updateIndex_self (s : Indexes) (key : Bytes)
    {f : DelegatedResourceAccountIndex → DelegatedResourceAccountIndex}
    (hf : f { account := key } = { account := key }) :
    index (updateIndex s key f) key = f (index s key) := by
  unfold updateIndex
  split
  · next row hr => rw [index_insert_self, index, hr, Option.getD_some]
  · next hn => rw [index, hn, Option.getD_none, hf]

theorem index_updateIndex_of_ne (s : Indexes) {key key' : Bytes} (h : key' ≠ key)
    (f : DelegatedResourceAccountIndex → DelegatedResourceAccountIndex) :
    index (updateIndex s key f) key' = index s key' := by
  unfold updateIndex
  split
  · exact index_insert_of_ne s _ h
  · rfl

theorem present_updateIndex (s : Indexes) {k : Bytes} (hk : validAddress k = true) {tag : UInt8}
    (ht : tag ≠ 0x41) (a b : Bytes)
    (f : DelegatedResourceAccountIndex → DelegatedResourceAccountIndex) :
    Present (updateIndex s k f) (prefixedPair tag a b) ↔ Present s (prefixedPair tag a b) := by
  unfold updateIndex
  split
  · exact present_insert_account s hk ht a b _
  · rfl

/-- Editing the lists takes a pair off the index when it has no rows of its own there. -/
theorem Lists.removeIndexes (h : Lists s P) (hs : validAddress sender = true)
    (hr : validAddress receiver = true) (hne : sender ≠ receiver)
    (hfk : ¬ Present s (fromIndexKey sender receiver))
    (htk : ¬ Present s (toIndexKey receiver sender)) :
    Lists (removeIndexes s sender receiver) (withoutPair P .legacy sender receiver) := by
  have hto_accounts : ∀ k, validAddress k = true →
      (index (Actuator.removeIndexes s sender receiver) k).toAccounts =
        if k = sender then (index s k).toAccounts.filter (· ≠ receiver)
        else (index s k).toAccounts := by
    intro k hk
    unfold Actuator.removeIndexes
    by_cases hkr : k = receiver
    · subst hkr
      rw [index_updateIndex_self _ _ rfl, index_updateIndex_of_ne _ (Ne.symm hne),
        if_neg (Ne.symm hne)]
    · rw [index_updateIndex_of_ne _ hkr]
      by_cases hks : k = sender
      · subst hks
        rw [index_updateIndex_self _ _ rfl, if_pos rfl]
      · rw [index_updateIndex_of_ne _ hks, if_neg hks]
  have hfrom_accounts : ∀ k, validAddress k = true →
      (index (Actuator.removeIndexes s sender receiver) k).fromAccounts =
        if k = receiver then (index s k).fromAccounts.filter (· ≠ sender)
        else (index s k).fromAccounts := by
    intro k hk
    unfold Actuator.removeIndexes
    by_cases hkr : k = receiver
    · subst hkr
      rw [index_updateIndex_self _ _ rfl, index_updateIndex_of_ne _ (Ne.symm hne), if_pos rfl]
    · rw [index_updateIndex_of_ne _ hkr, if_neg hkr]
      by_cases hks : k = sender
      · subst hks
        rw [index_updateIndex_self _ _ rfl]
      · rw [index_updateIndex_of_ne _ hks]
  intro g' sender' receiver' hs' hr'
  obtain ⟨hf, hto⟩ := h g' sender' receiver' hs' hr'
  rw [fromListed_iff] at hf
  rw [toListed_iff] at hto
  rw [fromListed_iff, toListed_iff, hto_accounts _ hs', hfrom_accounts _ hr']
  simp only [Actuator.removeIndexes, present_updateIndex _ hr (pairTags_ne g').1,
    present_updateIndex _ hs (pairTags_ne g').1, present_updateIndex _ hr (pairTags_ne g').2,
    present_updateIndex _ hs (pairTags_ne g').2, withoutPair]
  cases g' with
  | legacy =>
    constructor
    · rw [← hf]
      by_cases hsa : sender' = sender
      · subst hsa
        by_cases hsa' : receiver' = receiver
        · subst hsa'
          simpa [pairTags, fromIndexKey] using hfk
        · simp [hsa']
      · simp [hsa]
    · rw [← hto]
      by_cases hsa : receiver' = receiver
      · subst hsa
        by_cases hsa' : sender' = sender
        · subst hsa'
          simpa [pairTags, toIndexKey] using htk
        · simp [hsa']
      · simp [hsa]
  | v2 =>
    constructor
    · rw [← hf]
      simp
    · rw [← hto]
      simp

theorem mem_addOnce {address other : Bytes} {addresses : List Bytes} :
    other ∈ addOnce address addresses ↔ other = address ∨ other ∈ addresses := by
  unfold addOnce
  split
  · next h =>
    constructor
    · exact .inr
    · rintro (rfl | hm)
      · exact h
      · exact hm
  · simp [or_comm]

theorem Lists.putIndexes_plain (h : Lists s P) (hs : validAddress sender = true)
    (hr : validAddress receiver = true) (hne : sender ≠ receiver) (now : Int) :
    Lists (FreezeBalance.putIndexes false s sender receiver now)
      (withPair P .legacy sender receiver) := by
  have hto_accounts : ∀ k other,
      (other ∈ (index (FreezeBalance.putIndexes false s sender receiver now) k).toAccounts ↔
        (k = sender ∧ other = receiver) ∨ other ∈ (index s k).toAccounts) := by
    intro k other
    simp only [FreezeBalance.putIndexes, Bool.false_eq_true, if_false]
    by_cases hkr : k = receiver
    · subst hkr
      rw [index_insert_self]
      simp [Ne.symm hne]
    · rw [index_insert_of_ne _ _ hkr]
      by_cases hks : k = sender
      · subst hks
        rw [index_insert_self]
        simp [mem_addOnce]
      · rw [index_insert_of_ne _ _ hks]
        simp [hks]
  have hfrom_accounts : ∀ k other,
      (other ∈ (index (FreezeBalance.putIndexes false s sender receiver now) k).fromAccounts ↔
        (k = receiver ∧ other = sender) ∨ other ∈ (index s k).fromAccounts) := by
    intro k other
    simp only [FreezeBalance.putIndexes, Bool.false_eq_true, if_false]
    by_cases hkr : k = receiver
    · subst hkr
      rw [index_insert_self]
      simp [mem_addOnce]
    · rw [index_insert_of_ne _ _ hkr]
      by_cases hks : k = sender
      · subst hks
        rw [index_insert_self]
        simp [hne]
      · rw [index_insert_of_ne _ _ hks]
        simp [hkr]
  intro g' sender' receiver' hs' hr'
  obtain ⟨hf, hto⟩ := h g' sender' receiver' hs' hr'
  rw [fromListed_iff] at hf
  rw [toListed_iff] at hto
  rw [fromListed_iff, toListed_iff, hto_accounts, hfrom_accounts]
  simp only [FreezeBalance.putIndexes, Bool.false_eq_true, if_false,
    present_insert_account _ hr (pairTags_ne g').1, present_insert_account _ hs (pairTags_ne g').1,
    present_insert_account _ hr (pairTags_ne g').2, present_insert_account _ hs (pairTags_ne g').2,
    withPair]
  constructor
  · rw [← hf]
    tauto
  · rw [← hto]
    tauto

/-! ## Conversion -/

theorem index_convertTo (address : Bytes) (s : Indexes) (offset : Nat) (receivers : List Bytes)
    {k : Bytes} (hk : validAddress k = true) :
    index (convertTo address s offset receivers) k = index s k := by
  induction receivers generalizing s offset with
  | nil => rfl
  | cons receiver rest ih =>
    rw [convertTo, ih, Actuator.putPair, toIndexKey, fromIndexKey,
      index_insert_pair _ hk (by decide), index_insert_pair _ hk (by decide)]

theorem index_convertFrom (address : Bytes) (s : Indexes) (offset : Nat) (senders : List Bytes)
    {k : Bytes} (hk : validAddress k = true) :
    index (convertFrom address s offset senders) k = index s k := by
  induction senders generalizing s offset with
  | nil => rfl
  | cons sender rest ih =>
    rw [convertFrom, ih, toIndexKey, fromIndexKey, index_insert_pair _ hk (by decide),
      index_insert_pair _ hk (by decide)]

theorem present_convertTo (address : Bytes) (s : Indexes) (offset : Nat) (receivers : List Bytes)
    (key : Bytes) :
    Present (convertTo address s offset receivers) key ↔ Present s key ∨
      ∃ receiver ∈ receivers, key = fromIndexKey address receiver ∨
        key = toIndexKey receiver address := by
  induction receivers generalizing s offset with
  | nil => simp [convertTo]
  | cons receiver rest ih =>
    rw [convertTo, ih, Actuator.putPair, present_insert, present_insert]
    simp only [List.mem_cons, exists_eq_or_imp]
    grind

theorem present_convertFrom (address : Bytes) (s : Indexes) (offset : Nat) (senders : List Bytes)
    (key : Bytes) :
    Present (convertFrom address s offset senders) key ↔ Present s key ∨
      ∃ sender ∈ senders, key = fromIndexKey sender address ∨
        key = toIndexKey address sender := by
  induction senders generalizing s offset with
  | nil => simp [convertFrom]
  | cons sender rest ih =>
    rw [convertFrom, ih, present_insert, present_insert]
    simp only [List.mem_cons, exists_eq_or_imp]
    grind

theorem index_convertIndexes {address : Bytes} (s : Indexes) {k : Bytes} (hk : validAddress k = true) :
    index (convertIndexes s address) k = if k = address then { account := address }
      else index s k := by
  unfold convertIndexes
  split
  · next hn =>
    split
    · next hka => rw [hka, index, hn, Option.getD_none]
    · rfl
  · next row hr =>
    split
    · next hka => rw [hka, index_erase_self]
    · next hka =>
      rw [index_erase_of_ne _ hka, index_convertFrom _ _ _ _ hk, index_convertTo _ _ _ _ hk]

section Convert

variable {address : Bytes} (haddress : validAddress address = true)

include haddress

theorem present_convertIndexes (s : Indexes) {tag : UInt8} (ht : tag ≠ 0x41) (a b : Bytes) :
    Present (convertIndexes s address) (prefixedPair tag a b) ↔ Present s (prefixedPair tag a b) ∨
      (∃ receiver ∈ (index s address).toAccounts,
        prefixedPair tag a b = fromIndexKey address receiver ∨
          prefixedPair tag a b = toIndexKey receiver address) ∨
      ∃ sender ∈ (index s address).fromAccounts,
        prefixedPair tag a b = fromIndexKey sender address ∨
          prefixedPair tag a b = toIndexKey address sender := by
  unfold convertIndexes
  split
  · next hn => simp [index, hn]
  · next row hr =>
    have hi : index s address = row := by rw [index, hr, Option.getD_some]
    rw [present_erase_account _ haddress ht, present_convertFrom, present_convertTo, hi,
      or_assoc]

omit haddress in
theorem exists_mem_pair {others : List Bytes} {p : Prop} {c : Bytes} :
    (∃ other ∈ others, p ∧ c = other) ↔ p ∧ c ∈ others := by
  constructor
  · rintro ⟨other, hm, hp, rfl⟩
    exact ⟨hp, hm⟩
  · rintro ⟨hp, hm⟩
    exact ⟨c, hm, hp, rfl⟩

omit haddress in
theorem exists_mem_pair' {others : List Bytes} {p : Prop} {c : Bytes} :
    (∃ other ∈ others, c = other ∧ p) ↔ p ∧ c ∈ others := by
  simp only [and_comm (b := p), exists_mem_pair]

theorem present_from_convertIndexes (s : Indexes) (hs : validAddress sender = true)
    (hr : validAddress receiver = true) :
    Present (convertIndexes s address) (fromIndexKey sender receiver) ↔
      Present s (fromIndexKey sender receiver) ∨
        (sender = address ∧ receiver ∈ (index s address).toAccounts) ∨
        (receiver = address ∧ sender ∈ (index s address).fromAccounts) := by
  have ht : (1 : UInt8) ≠ 2 := by decide
  unfold fromIndexKey
  rw [present_convertIndexes haddress s (by decide)]
  simp only [fromIndexKey, toIndexKey, prefixedPair_eq_iff hs haddress,
    prefixedPair_eq_iff_right hr haddress, ht, false_and, or_false, true_and]
  exact or_congr_right (or_congr exists_mem_pair exists_mem_pair')

theorem present_to_convertIndexes (s : Indexes) (hs : validAddress sender = true)
    (hr : validAddress receiver = true) :
    Present (convertIndexes s address) (toIndexKey receiver sender) ↔
      Present s (toIndexKey receiver sender) ∨
        (sender = address ∧ receiver ∈ (index s address).toAccounts) ∨
        (receiver = address ∧ sender ∈ (index s address).fromAccounts) := by
  have ht : (2 : UInt8) ≠ 1 := by decide
  unfold toIndexKey
  rw [present_convertIndexes haddress s (by decide)]
  simp only [fromIndexKey, toIndexKey, prefixedPair_eq_iff hr haddress,
    prefixedPair_eq_iff_right hs haddress, ht, false_and, false_or, true_and]
  exact or_congr_right (or_congr exists_mem_pair' exists_mem_pair)

/-- **Conversion** keeps what the index lists. -/
theorem Lists.convertIndexes (h : Lists s P) : Lists (convertIndexes s address) P := by
  intro g sender receiver hs hr
  obtain ⟨hf, hto⟩ := h g sender receiver hs hr
  cases g with
  | legacy =>
    simp only [fromListed, toListed] at hf hto ⊢
    rw [present_from_convertIndexes haddress s hs hr, present_to_convertIndexes haddress s hs hr,
      index_convertIndexes s hs, index_convertIndexes s hr]
    -- A side that loses its list has rows instead, and the other side has the pair already.
    by_cases hsa : sender = address <;> by_cases hs' : receiver = address
    all_goals
      simp only [hsa, hs', if_true, if_false, true_and, false_and, List.not_mem_nil,
        false_or, or_false] at hf hto ⊢
      tauto
  | v2 =>
    simp only [fromListed, toListed, v2FromIndexKey, v2ToIndexKey] at hf hto ⊢
    rw [present_convertIndexes haddress s (by decide), present_convertIndexes haddress s (by decide)]
    simpa [fromIndexKey, toIndexKey, prefixedPair] using ⟨hf, hto⟩

end Convert

/-- **The index of a legacy delegation**, in either representation, lists it. -/
theorem Lists.putIndexes (h : Lists s P) (hs : validAddress sender = true)
    (hr : validAddress receiver = true) (hne : sender ≠ receiver) (optimized : Bool) (now : Int) :
    Lists (FreezeBalance.putIndexes optimized s sender receiver now)
      (withPair P .legacy sender receiver) := by
  cases optimized with
  | false => exact h.putIndexes_plain hs hr hne now
  | true =>
    have hc := (h.convertIndexes hs).convertIndexes hr
    exact hc.putPair (g := .legacy) hs hr now

/-! ## Stake between two accounts -/

/-- There is stake between two accounts. -/
def Holds (rows : FMap Bytes DelegatedResource) (g : Generation) (s r : Bytes) : Prop :=
  ∃ kind, 0 < pairAmount g rows s r kind

theorem RowsWell.pairAmount_nonneg {rows : FMap Bytes DelegatedResource} (h : RowsWell rows)
    (g : Generation) (s r : Bytes) (kind : ResourceCode) : 0 ≤ pairAmount g rows s r kind := by
  cases g with
  | legacy => exact h.amountAt_nonneg _ kind
  | v2 => exact add_nonneg (h.amountAt_nonneg _ kind) (h.amountAt_nonneg _ kind)

theorem RowsWell.holds_iff {rows : FMap Bytes DelegatedResource} (h : RowsWell rows)
    (g : Generation) (s r : Bytes) :
    Holds rows g s r ↔ ∃ key row kind, PairKey s r key g ∧ rows.lookup key = some row ∧
      0 < rowAmount row kind := by
  have hr : ∀ {key kind}, 0 < amountAt rows key kind → ∃ row, rows.lookup key = some row ∧
      0 < rowAmount row kind := by
    intro key kind hp
    unfold amountAt at hp
    cases hl : rows.lookup key with
    | none =>
      rw [hl] at hp
      exact absurd hp (lt_irrefl 0)
    | some row =>
      rw [hl] at hp
      exact ⟨row, rfl, hp⟩
  constructor
  · rintro ⟨kind, hp⟩
    cases g with
    | legacy =>
      obtain ⟨row, hl, hp⟩ := hr hp
      exact ⟨_, row, kind, rfl, hl, hp⟩
    | v2 =>
      have hs : 0 < amountAt rows (resourceV2Key s r true) kind ∨
          0 < amountAt rows (resourceV2Key s r false) kind := by
        simp only [pairAmount] at hp
        omega
      rcases hs with hp | hp
      · obtain ⟨row, hl, hp⟩ := hr hp
        exact ⟨_, row, kind, pairKey_v2 s r true, hl, hp⟩
      · obtain ⟨row, hl, hp⟩ := hr hp
        exact ⟨_, row, kind, pairKey_v2 s r false, hl, hp⟩
  · rintro ⟨key, row, kind, hk, hl, hp⟩
    have ha : amountAt rows key kind = rowAmount row kind := by simp [amountAt, hl]
    refine ⟨kind, ?_⟩
    cases g with
    | legacy =>
      have hk : key = legacyResourceKey s r := hk
      rw [pairAmount, ← hk, ha]
      exact hp
    | v2 =>
      obtain ⟨locked, rfl⟩ := hk
      have h₁ := h.amountAt_nonneg (resourceV2Key s r true) kind
      have h₂ := h.amountAt_nonneg (resourceV2Key s r false) kind
      simp only [pairAmount]
      cases locked <;> omega

section Moved

variable {g : Generation} {s r : Bytes} {delta : ResourceCode → Int}
  {rows rows' : FMap Bytes DelegatedResource}

theorem Moves.holds_of_ne (h : Moves g s r delta rows rows') {g' : Generation} {s' r' : Bytes}
    (hs' : validAddress s' = true) (hr' : validAddress r' = true)
    (hne : ¬ (g' = g ∧ s' = s ∧ r' = r)) : Holds rows' g' s' r' ↔ Holds rows g' s' r' := by
  refine exists_congr fun kind => ?_
  rw [h.pair g' s' r' kind hs' hr', if_neg hne, add_zero]

theorem Moves.holds_with (h : Moves g s r delta rows rows') (hp : Holds rows' g s r)
    {g' : Generation} {s' r' : Bytes} (hs' : validAddress s' = true)
    (hr' : validAddress r' = true) :
    withPair (Holds rows) g s r g' s' r' ↔ Holds rows' g' s' r' := by
  unfold withPair
  by_cases hs : g' = g ∧ s' = s ∧ r' = r
  · obtain ⟨rfl, rfl, rfl⟩ := hs
    simp [hp]
  · rw [h.holds_of_ne hs' hr' hs]
    simp [hs]

theorem Moves.holds_without (h : Moves g s r delta rows rows') (hp : ¬ Holds rows' g s r)
    {g' : Generation} {s' r' : Bytes} (hs' : validAddress s' = true)
    (hr' : validAddress r' = true) :
    withoutPair (Holds rows) g s r g' s' r' ↔ Holds rows' g' s' r' := by
  unfold withoutPair
  by_cases hs : g' = g ∧ s' = s ∧ r' = r
  · obtain ⟨rfl, rfl, rfl⟩ := hs
    simp [hp]
  · rw [h.holds_of_ne hs' hr' hs]
    simp [hs]

theorem Moves.holds_same (h : Moves g s r delta rows rows') (hb : Holds rows g s r)
    (hp : Holds rows' g s r) {g' : Generation} {s' r' : Bytes} (hs' : validAddress s' = true)
    (hr' : validAddress r' = true) : Holds rows g' s' r' ↔ Holds rows' g' s' r' := by
  by_cases hs : g' = g ∧ s' = s ∧ r' = r
  · obtain ⟨rfl, rfl, rfl⟩ := hs
    simp [hp, hb]
  · exact (h.holds_of_ne hs' hr' hs).symm

end Moved

theorem Moves.holds_added {g : Generation} {s r : Bytes} {kind : ResourceCode} {amount : Int}
    {rows rows' : FMap Bytes DelegatedResource} (h : Moves g s r (onlyKind kind amount) rows rows')
    (hro : RowsWell rows) (hs : validAddress s = true) (hr : validAddress r = true)
    (hp : 0 < amount) : Holds rows' g s r := by
  have hn := hro.pairAmount_nonneg g s r kind
  refine ⟨kind, ?_⟩
  rw [h.pair g s r kind hs hr, if_pos ⟨rfl, rfl, rfl⟩, onlyKind_self]
  omega

theorem Moves.holds_taken {g : Generation} {s r : Bytes} {kind : ResourceCode} {amount : Int}
    {rows rows' : FMap Bytes DelegatedResource} (h : Moves g s r (onlyKind kind (-amount)) rows rows')
    (hro : RowsWell rows') (hs : validAddress s = true) (hr : validAddress r = true)
    (hp : 0 < amount) : Holds rows g s r := by
  have hn := hro.pairAmount_nonneg g s r kind
  rw [h.pair g s r kind hs hr, if_pos ⟨rfl, rfl, rfl⟩, onlyKind_self] at hn
  exact ⟨kind, by omega⟩

/-! ## Every operation keeps the index -/

/-- The index lists the pairs with stake between them. -/
def Indexed (w : World) : Prop := Lists w.accountIndexes (Holds w.delegatedResources)

/-- An operation that ends a legacy delegation finds no rows of the pair in the index. -/
def ClearsIndex (w : World) : Operation → Prop
  | .unfreezeBalance c => receiverPresent w c.receiverAddress = true → ∀ kind row,
      ResourceCode.ofI32? c.resource = some kind →
      w.delegatedResources.lookup (legacyResourceKey c.ownerAddress c.receiverAddress) = some row →
      (∀ other, other ≠ lentKind kind → rowAmount row other = 0) →
      ¬ Present w.accountIndexes (fromIndexKey c.ownerAddress c.receiverAddress) ∧
        ¬ Present w.accountIndexes (toIndexKey c.receiverAddress c.ownerAddress)
  | _ => True

theorem SavesOwner.indexed {w w' : World} {address : Bytes} {owner owner' : Account}
    (h : SavesOwner w w' address owner owner') (hi : Indexed w) : Indexed w' := by
  rw [Indexed, h.indexes_eq, h.rows_eq]
  exact hi

theorem Lends.indexed {c : DelegateResource} {w w' unlocked : World}
    {owner owner' taker taker' : Account} {kind : ResourceCode} {items : List FreezeV2}
    {now expire : Int}
    (h : Lends c w w' owner owner' taker taker' kind items unlocked now expire)
    (hro : RowsWell w.delegatedResources) (hi : Indexed w) : Indexed w' := by
  obtain ⟨hm, -⟩ := h.moves hro
  have hp : 0 < c.balance := lt_of_lt_of_le (by decide) h.enough
  have hh := hm.holds_added hro h.validOwner h.validReceiver hp
  have hpu := Lists.putPair (g := .v2) hi h.validOwner h.validReceiver now
  rw [Indexed, h.indexes_eq]
  exact hpu.congr fun g s r hs hr => hm.holds_with hh hs hr

theorem FreezesFor.indexed {c : FreezeBalance} {w w' : World} {owner owner' taker taker' : Account}
    {kind : ResourceCode} {now expire : Int}
    (h : FreezesFor c w w' owner owner' taker taker' kind now expire)
    (hro : RowsWell w.delegatedResources) (hi : Indexed w) : Indexed w' := by
  obtain ⟨hm, -⟩ := h.moves hro
  have hp : 0 < c.frozenBalance := lt_of_lt_of_le (by decide) h.enough
  have hh := hm.holds_added hro h.validOwner h.validReceiver hp
  rw [Indexed, h.indexes_eq]
  exact (Lists.putIndexes hi h.validOwner h.validReceiver h.distinct _ now).congr
    fun g s r hs hr => hm.holds_with hh hs hr

theorem Returns.indexed {c : UnDelegateResource} {w w' unlocked : World} {owner owner' : Account}
    {taker taker' : Option Account} {kind : ResourceCode} {items : List FreezeV2}
    {record : DelegatedResource} {existed : Bool} {now : Int}
    (h : Returns c w w' owner owner' taker taker' kind items unlocked record existed now)
    (hrows : RowsWell w.delegatedResources) (hi : Indexed w) : Indexed w' := by
  obtain ⟨hm, hr', hl, hu⟩ := h.moves hrows
  have hb := hm.holds_taken hr' h.validOwner h.validReceiver h.positive
  rw [Indexed, h.indexes_eq]
  split
  · next hg =>
    obtain ⟨he, hn⟩ := hg
    have hno : ¬ Holds w'.delegatedResources .v2 c.ownerAddress c.receiverAddress := by
      rintro ⟨k, hp⟩
      rw [pairAmount, hu, rowAmount_of_rowEmpty he, amountAt, hl, hn] at hp
      exact absurd hp (lt_irrefl 0)
    exact (Lists.removeV2Indexes hi h.validOwner h.validReceiver).congr
      fun g s r hs hr => hm.holds_without hno hs hr
  · next hle =>
    have hh : Holds w'.delegatedResources .v2 c.ownerAddress c.receiverAddress := by
      rw [not_and_or] at hle
      rcases hle with hh | hso
      · obtain ⟨k, hp⟩ := exists_pos_of_not_rowEmpty (fun k => by
          rw [← hu]
          exact hr'.amountAt_nonneg _ k) hh
        have hnon := hr'.amountAt_nonneg
          (resourceV2Key c.ownerAddress c.receiverAddress true) k
        refine ⟨k, ?_⟩
        rw [pairAmount, hu]
        omega
      · rw [← hl] at hso
        obtain ⟨row, hro⟩ := Option.ne_none_iff_exists'.mp hso
        have hw := hr' _ _ hro
        obtain ⟨hse, hre⟩ := hw.v2_pair h.validOwner h.validReceiver
        have hk : resourceV2Key c.ownerAddress c.receiverAddress true ≠
            resourceV2Key row.sender row.receiver false := by
          rw [hse, hre]
          exact resourceV2Key_true_ne_false _ _
        obtain ⟨k, hp⟩ := exists_pos_of_not_rowEmpty hw.nonneg (hw.holds hk)
        exact (hr'.holds_iff _ _ _).mpr ⟨_, row, k, pairKey_v2 _ _ true, hro, hp⟩
    exact hi.congr fun g s r hs hr => hm.holds_same hb hh hs hr

theorem RowWell.holds_legacy {s r : Bytes} {row : DelegatedResource} (hs : validAddress s = true)
    (hr : validAddress r = true) (h : RowWell (legacyResourceKey s r) row) :
    ∃ kind, 0 < rowAmount row kind :=
  exists_pos_of_not_rowEmpty h.nonneg (h.holds
    (legacyResourceKey_ne_resourceV2Key hs hr h.validSender h.validReceiver))

theorem UnfreezesFor.indexed {c : UnfreezeBalance} {w w' : World} {owner owner' : Account}
    {kind : ResourceCode} {row : DelegatedResource}
    (h : UnfreezesFor c w w' owner owner' kind row)
    (hc : (∀ other, other ≠ lentKind kind → rowAmount row other = 0) →
      ¬ Present w.accountIndexes (fromIndexKey c.ownerAddress c.receiverAddress) ∧
        ¬ Present w.accountIndexes (toIndexKey c.receiverAddress c.ownerAddress))
    (hro : RowsWell w.delegatedResources) (hi : Indexed w) : Indexed w' := by
  obtain ⟨hm, hr'⟩ := h.moves hro
  have hse := rowAmount_setRow row 0 (rowExpire row (lentKind kind)) (lentKind_ne kind)
  have hk : PairKey c.ownerAddress c.receiverAddress
      (legacyResourceKey c.ownerAddress c.receiverAddress) .legacy := rfl
  rw [Indexed, h.indexes_eq]
  split
  · next he =>
    have ho : ∀ other, other ≠ lentKind kind → rowAmount row other = 0 := by
      intro other hne
      have := rowAmount_of_rowEmpty he other
      rwa [hse, if_neg hne] at this
    obtain ⟨hf, hto⟩ := hc ho
    have hn : ¬ Holds w'.delegatedResources .legacy c.ownerAddress c.receiverAddress := by
      rintro ⟨k, hp⟩
      rw [pairAmount, h.rows_eq, if_pos he, amountAt_erase_self] at hp
      exact absurd hp (lt_irrefl 0)
    exact (Lists.removeIndexes hi h.validOwner h.validReceiver h.distinct hf hto).congr
      fun g s r hs hr => hm.holds_without hn hs hr
  · next hle =>
    have hb : Holds w.delegatedResources .legacy c.ownerAddress c.receiverAddress := by
      obtain ⟨k, hp⟩ := (hro _ _ h.foundRow).holds_legacy h.validOwner h.validReceiver
      exact (hro.holds_iff _ _ _).mpr ⟨_, row, k, hk, h.foundRow, hp⟩
    have hl : w'.delegatedResources.lookup
        (legacyResourceKey c.ownerAddress c.receiverAddress) =
          some (setRow row (lentKind kind) 0 (rowExpire row (lentKind kind))) := by
      rw [h.rows_eq, if_neg hle, Finmap.lookup_insert]
    obtain ⟨k, hp⟩ := (hr' _ _ hl).holds_legacy h.validOwner h.validReceiver
    have hh := (hr'.holds_iff _ _ _).mpr ⟨_, _, k, hk, hl, hp⟩
    exact hi.congr fun g s r hs hr => hm.holds_same hb hh hs hr

/-- **An operation that clears its index** keeps the index. -/
theorem Indexed.execute {cfg : ExecutionConfig} {w w' : World} {op : Operation}
    {result : ActuatorResult} (h : Indexed w) (hr : RowsWell w.delegatedResources)
    (hc : ClearsIndex w op) (hexe : op.execute cfg w = .ok (w', result)) :
    Indexed w' := by
  cases op with
  | freezeBalance c =>
    rcases FreezeBalance.execute_effect hexe with ⟨-, owner, owner', kind, expire, he⟩ |
      ⟨-, owner, owner', taker, taker', kind, now, expire, he⟩
    · exact he.toSavesOwner.indexed h
    · exact he.indexed hr h
  | unfreezeBalance c =>
    rcases UnfreezeBalance.execute_effect hexe with
      ⟨-, owner, owner', kind, now, amount, he⟩ |
      ⟨hp, owner, owner', kind, row, he⟩
    · exact he.toSavesOwner.indexed h
    · exact he.indexed (hc hp kind row he.resource_eq he.foundRow) hr h
  | freezeBalanceV2 c =>
    obtain ⟨owner, owner', kind, items, he⟩ := FreezeBalanceV2.execute_effect hexe
    exact he.toSavesOwner.indexed h
  | unfreezeBalanceV2 c =>
    obtain ⟨owner, owner', kind, items, now, expire, he⟩ :=
      UnfreezeBalanceV2.execute_effect hexe
    exact he.toSavesOwner.indexed h
  | delegateResource c =>
    obtain ⟨owner, owner', taker, taker', kind, items, unlocked, now, expire, he⟩ :=
      DelegateResource.execute_effect hexe
    exact he.indexed hr h
  | unDelegateResource c =>
    obtain ⟨owner, owner', taker, taker', kind, items, unlocked, record, existed, now, he⟩ :=
      UnDelegateResource.execute_effect hexe
    exact he.indexed hr h
  | cancelAllUnfreezeV2 c =>
    obtain ⟨owner, owner', now, he⟩ := CancelAllUnfreezeV2.execute_effect hexe
    exact he.toSavesOwner.indexed h
  | withdrawExpireUnfreeze c =>
    obtain ⟨owner, owner', now, he⟩ := WithdrawExpireUnfreeze.execute_effect hexe
    exact he.toSavesOwner.indexed h

/-- **A run of operations that clear their index** keeps the index. -/
theorem Run.indexed {cfg : ExecutionConfig} {start w : World} (h : Run cfg ClearsIndex start w)
    (hl : Ledger start) (hst : Indexed start) : Indexed w := by
  induction h with
  | refl => exact hst
  | execute run hc hs ih =>
    exact ih.execute (run.ledger hl).rows hc hs
  | advance _ _ ih => exact ih

theorem indexed_of_empty {w : World} (hr : w.delegatedResources = ∅)
    (hi : w.accountIndexes = ∅) : Indexed w := by
  intro g s r _ _
  have hh : ¬ Holds w.delegatedResources g s r := by
    rintro ⟨kind, hp⟩
    rw [hr] at hp
    cases g <;> exact absurd hp (lt_irrefl 0)
  rw [hi]
  constructor
  · simp only [hh, iff_false]
    cases g <;> simp [fromListed, index, Present]
  · simp only [hh, iff_false]
    cases g <;> simp [toListed, index, Present]

/-! ## What the owner of a delegation owns -/

/-- The owner of an operation. -/
def Operation.ownerAddress : Operation → Bytes
  | .freezeBalance c => c.ownerAddress
  | .unfreezeBalance c => c.ownerAddress
  | .freezeBalanceV2 c => c.ownerAddress
  | .unfreezeBalanceV2 c => c.ownerAddress
  | .delegateResource c => c.ownerAddress
  | .unDelegateResource c => c.ownerAddress
  | .cancelAllUnfreezeV2 c => c.ownerAddress
  | .withdrawExpireUnfreeze c => c.ownerAddress

/-- An operation lends to a receiver or takes back from one. -/
def Operation.Delegates (w : World) : Operation → Prop
  | .freezeBalance c => receiverPresent w c.receiverAddress = true
  | .unfreezeBalance c => receiverPresent w c.receiverAddress = true
  | .delegateResource _ => True
  | .unDelegateResource _ => True
  | _ => False

/-- What is lent of the two resources that can be lent, after one of them has moved. -/
theorem sum_update {f : ResourceCode → Int} {kind : ResourceCode} (hk : kind ≠ .tronPower)
    (x : Int) : Function.update f kind (f kind + x) .bandwidth +
      Function.update f kind (f kind + x) .energy = f .bandwidth + f .energy + x := by
  rw [update_eq_add_onlyKind, update_eq_add_onlyKind]
  cases kind with
  | bandwidth =>
    rw [onlyKind_self, onlyKind_of_ne _ (by decide)]
    omega
  | energy =>
    rw [onlyKind_self, onlyKind_of_ne _ (by decide)]
    omega
  | tronPower => exact absurd rfl hk

theorem get_owner {accounts : Accounts} {owner' : Account} {s : Bytes}
    (ha : owner'.address = s) : (accounts.put owner').get s = some owner' := by
  rw [← ha, Accounts.get_put_self]

theorem get_owner_of_pair {accounts : Accounts} {owner' b : Account} {s r : Bytes}
    (ha : owner'.address = s) (hb : b.address = r) (hne : s ≠ r) :
    ((accounts.put owner').put b).get s = some owner' := by
  rw [Accounts.get_put_of_ne _ (by rw [hb]; exact hne), ← ha, Accounts.get_put_self]

/-- **A delegation** and the end of one keep what the owner owns. -/
theorem funds_of_delegates {cfg : ExecutionConfig} {w w' : World} {op : Operation}
    {result : ActuatorResult} (hd : op.Delegates w)
    (he : op.execute cfg w = .ok (w', result)) :
    ∃ owner owner', w.accounts.get op.ownerAddress = some owner ∧
      w'.accounts.get op.ownerAddress = some owner' ∧
      owner'.position.funds = owner.position.funds := by
  cases op with
  | freezeBalance c =>
    rcases FreezeBalance.execute_effect he with ⟨hn, -⟩ |
      ⟨-, owner, owner', taker, taker', kind, now, expire, h⟩
    · exact absurd (hn.symm.trans hd) (by decide)
    refine ⟨owner, owner', h.foundOwner, ?_, ?_⟩
    · rw [h.accounts_eq]
      exact get_owner_of_pair h.ownerAddress_eq h.receiverAddress_eq h.distinct
    · -- what leaves the balance is lent
      have hs := sum_update (f := owner.position.lentLegacy) h.lendable c.frozenBalance
      rw [funds, funds, h.owner_eq]
      dsimp only
      rw [hs, balance_position]
      omega
  | unfreezeBalance c =>
    rcases UnfreezeBalance.execute_effect he with ⟨hn, -⟩ |
      ⟨-, owner, owner', kind, row, h⟩
    · exact absurd (hn.symm.trans hd) (by decide)
    refine ⟨owner, owner', h.foundOwner, ?_, ?_⟩
    · have ht := h.taker_eq
      cases hf : w.accounts.get c.receiverAddress with
      | none =>
        rw [hf] at ht
        rw [ht]
        exact get_owner h.ownerAddress_eq
      | some a =>
        rw [hf] at ht
        obtain ⟨b, had, -, -, ha⟩ := ht
        rw [ha]
        exact get_owner_of_pair h.ownerAddress_eq had h.distinct
    · -- what was lent is balance again
      have hs := sum_update (f := owner.position.lentLegacy) (lentKind_ne kind)
        (-rowAmount row (lentKind kind))
      rw [funds, funds, h.owner_eq, Int.sub_eq_add_neg]
      dsimp only
      rw [hs, balance_position]
      omega
  | delegateResource c =>
    obtain ⟨owner, owner', taker, taker', kind, items, unlocked, now, expire, h⟩ :=
      DelegateResource.execute_effect he
    refine ⟨owner, owner', h.foundOwner, ?_, ?_⟩
    · rw [h.accounts_eq]
      exact get_owner_of_pair h.ownerAddress_eq h.receiverAddress_eq h.distinct
    · -- what leaves the stake is lent
      have hs := sum_update (f := owner.position.lent) h.lendable c.balance
      have hi := sum_addFrozenV2Items h.items_eq
      rw [funds, funds, h.owner_eq]
      dsimp only
      rw [hs, hi]
      dsimp only [Account.position]
      omega
  | unDelegateResource c =>
    obtain ⟨owner, owner', taker, taker', kind, items, unlocked, record, existed, now, h⟩ :=
      UnDelegateResource.execute_effect he
    refine ⟨owner, owner', h.foundOwner, ?_, ?_⟩
    · have ht := h.taker_eq
      cases taker with
      | none =>
        rw [ht.2]
        exact get_owner h.ownerAddress_eq
      | some a =>
        obtain ⟨b, -, had, -, ha⟩ := ht
        rw [ha]
        exact get_owner_of_pair h.ownerAddress_eq had h.distinct
    · -- what was lent is stake again
      have hs := sum_update (f := owner.position.lent) h.lendable (-c.balance)
      have hi := sum_addFrozenV2Items h.items_eq
      rw [funds, funds, h.owner_eq, Int.sub_eq_add_neg]
      dsimp only
      rw [hs, hi]
      dsimp only [Account.position]
      omega
  | freezeBalanceV2 c => exact hd.elim
  | unfreezeBalanceV2 c => exact hd.elim
  | cancelAllUnfreezeV2 c => exact hd.elim
  | withdrawExpireUnfreeze c => exact hd.elim

/-! ## The four records together -/

/-- **The ledger of delegations.** After every run that clears its index, each account has lent and
holds what the rows say, the index lists a pair exactly while a row of it has a positive amount, and
the next delegation keeps what its owner owns. -/
theorem delegation_ledger_of_run {cfg : ExecutionConfig} {start w : World}
    (hrun : Run cfg ClearsIndex start w) (hstart : Undelegated start)
    (hindexes : start.accountIndexes = ∅) :
    (∀ address a, w.accounts.get address = some a → ∀ g kind,
      a.position.lentOf g kind = lentIn g w.delegatedResources address kind ∧
        a.position.heldOf g kind = heldIn g w.delegatedResources address kind) ∧
    (∀ g s r, validAddress s = true → validAddress r = true →
      (fromListed w.accountIndexes g s r ↔ ∃ key row kind, PairKey s r key g ∧
        w.delegatedResources.lookup key = some row ∧ 0 < rowAmount row kind) ∧
      (toListed w.accountIndexes g s r ↔ ∃ key row kind, PairKey s r key g ∧
        w.delegatedResources.lookup key = some row ∧ 0 < rowAmount row kind)) ∧
    ∀ (op : Operation) (w' : World) (result : ActuatorResult), op.Delegates w →
      op.execute cfg w = .ok (w', result) → ∃ owner owner', w.accounts.get op.ownerAddress = some owner ∧
        w'.accounts.get op.ownerAddress = some owner' ∧
        owner'.position.funds = owner.position.funds := by
  have hledger := hrun.ledger hstart.ledger
  have hindexed := hrun.indexed hstart.ledger (indexed_of_empty hstart.rows_eq hindexes)
  refine ⟨fun address a ha g kind => ⟨hledger.lent address a ha g kind,
    hledger.held address a ha g kind⟩, fun g s r hs hr => ?_, fun op w' result hdelegates hexecute =>
    funds_of_delegates hdelegates hexecute⟩
  rw [← hledger.rows.holds_iff]
  exact hindexed g s r hs hr

/-- A freeze for a receiver: the rows, the index and what the owner owns agree. -/
theorem delegation_ledger_sample :
    fromListed Sample.frozen.accountIndexes .legacy Sample.alice Sample.bob ↔
      ∃ key row kind, PairKey Sample.alice Sample.bob key .legacy ∧
        Sample.frozen.delegatedResources.lookup key = some row ∧ 0 < rowAmount row kind :=
  ((delegation_ledger_of_run (Sample.run_frozen trivial) Sample.undelegated_world rfl).2.1 .legacy
    Sample.alice Sample.bob (by decide) (by decide)).1

/-- Taking back what was frozen for a receiver leaves the pair in the index, with no row. -/
theorem stale_index_after_unfreeze :
    ∃ cfg start w s r, Undelegated start ∧ start.accountIndexes = ∅ ∧
      Run cfg (fun _ _ => True) start w ∧ validAddress s = true ∧ validAddress r = true ∧
      fromListed w.accountIndexes .legacy s r ∧ w.delegatedResources = ∅ := by
  have hfrozen : Run Sample.config (fun _ _ => True) Sample.world Sample.frozen :=
    Sample.run_frozen trivial
  refine ⟨Sample.config, Sample.world, Sample.unfreeze.after Sample.config Sample.frozen,
    Sample.alice, Sample.bob, Sample.undelegated_world, rfl,
    hfrozen.after trivial (by decide), by decide, by decide, .inr ?_, ?_⟩
  · unfold Present
    decide
  · decide

end RustTron.Actuator
