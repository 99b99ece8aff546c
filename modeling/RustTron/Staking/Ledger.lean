import RustTron.Staking.Effects

/-!
# The ledger of delegated stake

What an account has lent and what it holds is recorded twice: in the account, and in one row for
each pair of accounts and generation. The two records agree in every state that the staking
operations reach.

## Main definitions

* `Generation`, `InGeneration`: the legacy rows and the rows of the second generation
* `lentIn`, `heldIn`: what the rows say that an account has lent and holds
* `RowsWell`: the rows stand under the keys of their pairs and hold no negative amount
* `Moves`: the rows have moved an amount of one resource onto one pair
* `Ledger`: the accounts and the rows agree

## Main results

* `Ledger.moves`: a move of the rows that the two accounts follow keeps the ledger
* `unlockExpired_still`: moving expired amounts to the unlocked row moves nothing
-/

namespace RustTron.Actuator

/-! ## Keys -/

theorem length_of_validAddress {a : Bytes} (h : validAddress a = true) : a.length = 21 := by
  simp only [validAddress, Bool.decide_and, Bool.and_eq_true, decide_eq_true_eq] at h
  exact h.1

theorem append_inj_of_valid {s r s' r' : Bytes} (hs : validAddress s = true)
    (hs' : validAddress s' = true) (h : s ++ r = s' ++ r') : s = s' ∧ r = r' :=
  List.append_inj h ((length_of_validAddress hs).trans (length_of_validAddress hs').symm)

theorem prefixedPair_inj {tag tag' : UInt8} {s r s' r' : Bytes} (hs : validAddress s = true)
    (hs' : validAddress s' = true) (h : prefixedPair tag s r = prefixedPair tag' s' r') :
    tag = tag' ∧ s = s' ∧ r = r' := by
  simp only [prefixedPair, List.cons.injEq] at h
  exact ⟨h.1, append_inj_of_valid hs hs' h.2⟩

theorem resourceV2Key_inj {s r s' r' : Bytes} {locked locked' : Bool} (hs : validAddress s = true)
    (hs' : validAddress s' = true) (h : resourceV2Key s r locked = resourceV2Key s' r' locked') :
    locked = locked' ∧ s = s' ∧ r = r' := by
  obtain ⟨ht, hp⟩ := prefixedPair_inj hs hs' h
  refine ⟨?_, hp⟩
  cases locked <;> cases locked' <;> first | rfl | exact absurd ht (by decide)

theorem legacyResourceKey_ne_resourceV2Key {s r s' r' : Bytes} {locked : Bool}
    (hs : validAddress s = true) (hr : validAddress r = true) (hs' : validAddress s' = true)
    (hr' : validAddress r' = true) : legacyResourceKey s r ≠ resourceV2Key s' r' locked := by
  intro h
  have := congrArg List.length h
  simp only [legacyResourceKey, resourceV2Key, prefixedPair, List.length_append, List.length_cons,
    length_of_validAddress hs, length_of_validAddress hr, length_of_validAddress hs',
    length_of_validAddress hr'] at this
  omega

/-! ## Rows -/

/-- The two generations of delegation. -/
inductive Generation where
  | legacy
  | v2
  deriving DecidableEq

/-- A row stands under a key of its own pair. -/
def InGeneration (key : Bytes) (row : DelegatedResource) : Generation → Prop
  | .legacy => key = legacyResourceKey row.sender row.receiver
  | .v2 => key = resourceV2Key row.sender row.receiver true ∨
      key = resourceV2Key row.sender row.receiver false

instance (key : Bytes) (row : DelegatedResource) : DecidablePred (InGeneration key row)
  | .legacy => inferInstanceAs (Decidable (key = _))
  | .v2 => inferInstanceAs (Decidable (_ ∨ _))

/-- What the rows say that `sender` has lent. -/
def lentIn (g : Generation) (rows : FMap Bytes DelegatedResource) (sender : Bytes)
    (kind : ResourceCode) : Int :=
  rows.total fun key row => if InGeneration key row g ∧ row.sender = sender then rowAmount row kind
    else 0

/-- What the rows say that `receiver` holds. -/
def heldIn (g : Generation) (rows : FMap Bytes DelegatedResource) (receiver : Bytes)
    (kind : ResourceCode) : Int :=
  rows.total fun key row => if InGeneration key row g ∧ row.receiver = receiver then
    rowAmount row kind else 0

/-- A row of the delegation store as the code writes it. Only an unlocked row may hold nothing. -/
structure RowWell (key : Bytes) (row : DelegatedResource) : Prop where
  validSender : validAddress row.sender = true
  validReceiver : validAddress row.receiver = true
  distinct : row.sender ≠ row.receiver
  keyed : ∃ g, InGeneration key row g
  nonneg : ∀ kind, 0 ≤ rowAmount row kind
  holds : key ≠ resourceV2Key row.sender row.receiver false → ¬ rowEmpty row

/-- Every row is as the code writes it. -/
def RowsWell (rows : FMap Bytes DelegatedResource) : Prop :=
  ∀ key row, rows.lookup key = some row → RowWell key row

/-- A row under a legacy key is the row of that pair. -/
theorem RowWell.legacy_pair {s r : Bytes} {row : DelegatedResource} (hs : validAddress s = true)
    (hr : validAddress r = true) (h : RowWell (legacyResourceKey s r) row) :
    row.sender = s ∧ row.receiver = r := by
  obtain ⟨g, hg⟩ := h.keyed
  cases g with
  | legacy =>
    obtain ⟨rfl, rfl⟩ := append_inj_of_valid hs h.validSender hg
    exact ⟨rfl, rfl⟩
  | v2 =>
    exfalso
    rcases hg with hg | hg <;>
      exact legacyResourceKey_ne_resourceV2Key hs hr h.validSender h.validReceiver hg

/-- A row under a key of the second generation is a row of that pair. -/
theorem RowWell.v2_pair {s r : Bytes} {locked : Bool} {row : DelegatedResource}
    (hs : validAddress s = true) (hr : validAddress r = true)
    (h : RowWell (resourceV2Key s r locked) row) : row.sender = s ∧ row.receiver = r := by
  obtain ⟨g, hg⟩ := h.keyed
  cases g with
  | legacy =>
    exact absurd hg.symm (legacyResourceKey_ne_resourceV2Key h.validSender h.validReceiver hs hr)
  | v2 =>
    rcases hg with hg | hg <;> obtain ⟨-, rfl, rfl⟩ := resourceV2Key_inj hs h.validSender hg <;>
      exact ⟨rfl, rfl⟩

/-- The key of a pair in a generation; in the second one there are two. -/
def PairKey (s r key : Bytes) : Generation → Prop
  | .legacy => key = legacyResourceKey s r
  | .v2 => ∃ locked, key = resourceV2Key s r locked

theorem pairKey_v2 (s r : Bytes) (locked : Bool) : PairKey s r (resourceV2Key s r locked) .v2 :=
  ⟨locked, rfl⟩

theorem RowWell.pair {s r key : Bytes} {g : Generation} {row : DelegatedResource}
    (hs : validAddress s = true) (hr : validAddress r = true) (hkey : PairKey s r key g)
    (h : RowWell key row) : row.sender = s ∧ row.receiver = r := by
  cases g with
  | legacy =>
    subst hkey
    exact h.legacy_pair hs hr
  | v2 =>
    obtain ⟨locked, rfl⟩ := hkey
    exact h.v2_pair hs hr

/-- A row under the key of its own pair is in the generation of the key, and in no other. -/
theorem inGeneration_iff {s r key : Bytes} {g g' : Generation} {row : DelegatedResource}
    (hs : validAddress s = true) (hr : validAddress r = true) (hkey : PairKey s r key g)
    (hse : row.sender = s) (hre : row.receiver = r) :
    InGeneration key row g' ↔ g' = g := by
  subst hse hre
  cases g with
  | legacy =>
    have hkey : key = legacyResourceKey row.sender row.receiver := hkey
    subst hkey
    cases g' with
    | legacy => simp [InGeneration]
    | v2 =>
      simp only [InGeneration, reduceCtorEq, iff_false, not_or]
      exact ⟨legacyResourceKey_ne_resourceV2Key hs hr hs hr,
        legacyResourceKey_ne_resourceV2Key hs hr hs hr⟩
  | v2 =>
    obtain ⟨locked, rfl⟩ := hkey
    cases g' with
    | legacy =>
      simp only [InGeneration, reduceCtorEq, iff_false]
      exact (legacyResourceKey_ne_resourceV2Key hs hr hs hr).symm
    | v2 => cases locked <;> simp [InGeneration]

theorem PairKey.inj {s r s' r' key : Bytes} {g g' : Generation} (hs : validAddress s = true)
    (hr : validAddress r = true) (hs' : validAddress s' = true) (hr' : validAddress r' = true)
    (hkey : PairKey s r key g) (hk' : PairKey s' r' key g') : g' = g ∧ s' = s ∧ r' = r := by
  cases g <;> cases g'
  · obtain ⟨rfl, rfl⟩ := append_inj_of_valid hs hs' (hkey.symm.trans hk')
    exact ⟨rfl, rfl, rfl⟩
  · obtain ⟨locked, hk'⟩ := hk'
    exact absurd (hkey.symm.trans hk') (legacyResourceKey_ne_resourceV2Key hs hr hs' hr')
  · obtain ⟨locked, hkey⟩ := hkey
    exact absurd (hk'.symm.trans hkey) (legacyResourceKey_ne_resourceV2Key hs' hr' hs hr)
  · obtain ⟨locked, rfl⟩ := hkey
    obtain ⟨locked', hk'⟩ := hk'
    obtain ⟨-, rfl, rfl⟩ := resourceV2Key_inj hs hs' hk'
    exact ⟨rfl, rfl, rfl⟩

/-- The amount of a resource under a key. -/
def amountAt (rows : FMap Bytes DelegatedResource) (key : Bytes) (kind : ResourceCode) : Int :=
  ((rows.lookup key).map (rowAmount · kind)).getD 0

/-- What `s` has lent to `r`, locked and unlocked together. -/
def pairAmount (g : Generation) (rows : FMap Bytes DelegatedResource) (s r : Bytes)
    (kind : ResourceCode) : Int :=
  match g with
  | .legacy => amountAt rows (legacyResourceKey s r) kind
  | .v2 => amountAt rows (resourceV2Key s r true) kind + amountAt rows (resourceV2Key s r false) kind

theorem amountAt_insert_self (rows : FMap Bytes DelegatedResource) (key : Bytes)
    (row : DelegatedResource) (kind : ResourceCode) :
    amountAt (rows.insert key row) key kind = rowAmount row kind := by simp [amountAt]

theorem amountAt_insert_of_ne (rows : FMap Bytes DelegatedResource) {key key' : Bytes}
    (row : DelegatedResource) (kind : ResourceCode) (h : key' ≠ key) :
    amountAt (rows.insert key row) key' kind = amountAt rows key' kind := by
  rw [amountAt, Finmap.lookup_insert_of_ne _ h, amountAt]

theorem amountAt_erase_self (rows : FMap Bytes DelegatedResource) (key : Bytes)
    (kind : ResourceCode) : amountAt (rows.erase key) key kind = 0 := by simp [amountAt]

theorem amountAt_erase_of_ne (rows : FMap Bytes DelegatedResource) {key key' : Bytes}
    (kind : ResourceCode) (h : key' ≠ key) :
    amountAt (rows.erase key) key' kind = amountAt rows key' kind := by
  rw [amountAt, Finmap.lookup_erase_ne h, amountAt]

theorem RowsWell.amountAt_nonneg {rows : FMap Bytes DelegatedResource} (h : RowsWell rows)
    (key : Bytes) (kind : ResourceCode) : 0 ≤ amountAt rows key kind := by
  unfold amountAt
  cases hro : rows.lookup key with
  | none => simp
  | some row => exact (h key row hro).nonneg kind

theorem resourceV2Key_true_ne_false (s r : Bytes) :
    resourceV2Key s r true ≠ resourceV2Key s r false := by
  simp [resourceV2Key, prefixedPair]

/-- A change of the amounts under one key of a pair changes what the pair has lent by as much. -/
theorem pairAmount_of_change {g : Generation} {s r key : Bytes}
    {rows rows' : FMap Bytes DelegatedResource} {kind : ResourceCode} {delta : Int}
    (hs : validAddress s = true) (hr : validAddress r = true) (hkey : PairKey s r key g)
    (hse : amountAt rows' key kind = amountAt rows key kind + delta)
    (ho : ∀ key', key' ≠ key → amountAt rows' key' kind = amountAt rows key' kind)
    {g' : Generation} {s' r' : Bytes} (hs' : validAddress s' = true)
    (hr' : validAddress r' = true) :
    pairAmount g' rows' s' r' kind =
      pairAmount g' rows s' r' kind + if g' = g ∧ s' = s ∧ r' = r then delta else 0 := by
  by_cases hsa : g' = g ∧ s' = s ∧ r' = r
  · obtain ⟨rfl, rfl, rfl⟩ := hsa
    rw [if_pos ⟨rfl, rfl, rfl⟩]
    cases g' with
    | legacy =>
      have hkey : key = legacyResourceKey s' r' := hkey
      subst hkey
      exact hse
    | v2 =>
      obtain ⟨locked, rfl⟩ := hkey
      have hne := resourceV2Key_true_ne_false s' r'
      cases locked
      · have := ho _ hne
        simp only [pairAmount]
        omega
      · have := ho _ hne.symm
        simp only [pairAmount]
        omega
  · rw [if_neg hsa, add_zero]
    have hne : ∀ key', PairKey s' r' key' g' → key' ≠ key := by
      rintro key' hk' rfl
      exact hsa (PairKey.inj hs hr hs' hr' hkey hk')
    cases g' with
    | legacy => exact ho _ (hne _ rfl)
    | v2 =>
      simp only [pairAmount]
      rw [ho _ (hne _ (pairKey_v2 s' r' true)), ho _ (hne _ (pairKey_v2 s' r' false))]

/-! ## Moves -/

/-- The rows have moved the amounts `delta` onto the pair of `s` and `r` in the generation `g`. -/
structure Moves (g : Generation) (s r : Bytes) (delta : ResourceCode → Int)
    (rows rows' : FMap Bytes DelegatedResource) : Prop where
  lent : ∀ g' s' kind, lentIn g' rows' s' kind =
    lentIn g' rows s' kind + if g' = g ∧ s' = s then delta kind else 0
  held : ∀ g' r' kind, heldIn g' rows' r' kind =
    heldIn g' rows r' kind + if g' = g ∧ r' = r then delta kind else 0
  pair : ∀ g' s' r' kind, validAddress s' = true → validAddress r' = true →
    pairAmount g' rows' s' r' kind =
      pairAmount g' rows s' r' kind + if g' = g ∧ s' = s ∧ r' = r then delta kind else 0

theorem Moves.trans {g : Generation} {s r : Bytes} {delta delta' : ResourceCode → Int}
    {rows rows' rows'' : FMap Bytes DelegatedResource} (h : Moves g s r delta rows rows')
    (h' : Moves g s r delta' rows' rows'') :
    Moves g s r (fun kind => delta kind + delta' kind) rows rows'' := by
  constructor
  · intro g' s' kind
    rw [h'.lent, h.lent]
    split_ifs <;> omega
  · intro g' r' kind
    rw [h'.held, h.held]
    split_ifs <;> omega
  · intro g' s' r' kind hs' hr'
    rw [h'.pair _ _ _ _ hs' hr', h.pair _ _ _ _ hs' hr']
    split_ifs <;> omega

theorem Moves.refl (g : Generation) (s r : Bytes) (rows : FMap Bytes DelegatedResource) :
    Moves g s r (fun _ => 0) rows rows := by
  constructor <;> intros <;> simp

theorem Moves.congr {g : Generation} {s r : Bytes} {delta delta' : ResourceCode → Int}
    {rows rows' : FMap Bytes DelegatedResource} (h : Moves g s r delta rows rows')
    (hd : ∀ kind, delta kind = delta' kind) : Moves g s r delta' rows rows' := by
  obtain rfl : delta = delta' := funext hd
  exact h

section Rows

variable {g : Generation} {s r key : Bytes} {rows : FMap Bytes DelegatedResource}
  (hs : validAddress s = true) (hr : validAddress r = true) (hkey : PairKey s r key g)
  (hrows : RowsWell rows)

include hs hr hkey hrows

/-- The part of the row of a pair in what its sender has lent. -/
theorem valueAt_sender (g' : Generation) (s' : Bytes) (kind : ResourceCode) :
    FMap.valueAt (fun key row => if InGeneration key row g' ∧ row.sender = s' then
      rowAmount row kind else 0) rows key =
        if g' = g ∧ s' = s then amountAt rows key kind else 0 := by
  unfold FMap.valueAt amountAt
  cases hro : rows.lookup key with
  | none => simp
  | some row =>
    obtain ⟨hse, hre⟩ := (hrows key row hro).pair hs hr hkey
    simp only [inGeneration_iff hs hr hkey hse hre, hse, eq_comm (a := s)]
    rfl

theorem valueAt_receiver (g' : Generation) (r' : Bytes) (kind : ResourceCode) :
    FMap.valueAt (fun key row => if InGeneration key row g' ∧ row.receiver = r' then
      rowAmount row kind else 0) rows key =
        if g' = g ∧ r' = r then amountAt rows key kind else 0 := by
  unfold FMap.valueAt amountAt
  cases hro : rows.lookup key with
  | none => simp
  | some row =>
    obtain ⟨hse, hre⟩ := (hrows key row hro).pair hs hr hkey
    simp only [inGeneration_iff hs hr hkey hse hre, hre, eq_comm (a := r)]
    rfl

/-- Putting the row of a pair moves its amounts onto the pair. -/
theorem moves_insert {row : DelegatedResource} (hse : row.sender = s)
    (hre : row.receiver = r) :
    Moves g s r (fun kind => rowAmount row kind - amountAt rows key kind) rows
      (rows.insert key row) := by
  constructor
  · intro g' s' kind
    rw [lentIn, FMap.total_insert_int, valueAt_sender hs hr hkey hrows, lentIn]
    simp only [inGeneration_iff hs hr hkey hse hre, hse, eq_comm (a := s)]
    split_ifs <;> omega
  · intro g' r' kind
    rw [heldIn, FMap.total_insert_int, valueAt_receiver hs hr hkey hrows, heldIn]
    simp only [inGeneration_iff hs hr hkey hse hre, hre, eq_comm (a := r)]
    split_ifs <;> omega
  · intro g' s' r' kind hs' hr'
    refine pairAmount_of_change hs hr hkey ?_
      (fun key' hne => amountAt_insert_of_ne rows row kind hne) hs' hr'
    rw [amountAt_insert_self]
    omega

/-- Deleting the row of a pair takes its amounts off the pair. -/
theorem moves_erase :
    Moves g s r (fun kind => -amountAt rows key kind) rows (rows.erase key) := by
  constructor
  · intro g' s' kind
    rw [lentIn, FMap.total_erase_int, valueAt_sender hs hr hkey hrows, lentIn]
    split_ifs <;> omega
  · intro g' r' kind
    rw [heldIn, FMap.total_erase_int, valueAt_receiver hs hr hkey hrows, heldIn]
    split_ifs <;> omega
  · intro g' s' r' kind hs' hr'
    refine pairAmount_of_change hs hr hkey ?_
      (fun key' hne => amountAt_erase_of_ne rows kind hne) hs' hr'
    rw [amountAt_erase_self]
    omega

end Rows

theorem RowsWell.insert {rows : FMap Bytes DelegatedResource} {key : Bytes}
    {row : DelegatedResource} (h : RowsWell rows) (hro : RowWell key row) :
    RowsWell (rows.insert key row) := by
  intro key' row' hl
  by_cases hkey : key' = key
  · subst hkey
    rw [Finmap.lookup_insert, Option.some.injEq] at hl
    exact hl ▸ hro
  · rw [Finmap.lookup_insert_of_ne _ hkey] at hl
    exact h key' row' hl

theorem RowsWell.erase {rows : FMap Bytes DelegatedResource} (h : RowsWell rows) (key : Bytes) :
    RowsWell (rows.erase key) := by
  intro key' row' hl
  by_cases hkey : key' = key
  · subst hkey
    rw [Finmap.lookup_erase] at hl
    simp at hl
  · rw [Finmap.lookup_erase_ne hkey] at hl
    exact h key' row' hl

/-- The row of a pair, or the one that stands for a missing one, belongs to the pair. -/
theorem delegated_pair {w : World} {s r key : Bytes} {g : Generation} (hs : validAddress s = true)
    (hr : validAddress r = true) (hkey : PairKey s r key g) (hrows : RowsWell w.delegatedResources) :
    (delegated w key s r).sender = s ∧ (delegated w key s r).receiver = r ∧
      ∀ kind, rowAmount (delegated w key s r) kind = amountAt w.delegatedResources key kind := by
  unfold delegated amountAt
  cases hro : w.delegatedResources.lookup key with
  | none => exact ⟨rfl, rfl, fun kind => by cases kind <;> rfl⟩
  | some row =>
    obtain ⟨hse, hre⟩ := (hrows key row hro).pair hs hr hkey
    exact ⟨hse, hre, fun _ => rfl⟩

theorem setRow_pair (row : DelegatedResource) (kind : ResourceCode) (amount expire : Int) :
    (setRow row kind amount expire).sender = row.sender ∧
      (setRow row kind amount expire).receiver = row.receiver := by
  cases kind <;> exact ⟨rfl, rfl⟩

theorem rowAmount_setRow (row : DelegatedResource) {kind : ResourceCode} (amount expire : Int)
    (hk : kind ≠ .tronPower) (k : ResourceCode) :
    rowAmount (setRow row kind amount expire) k = if k = kind then amount else rowAmount row k := by
  cases kind <;> cases k <;> first | rfl | exact absurd rfl hk

theorem rowAmount_of_rowEmpty {row : DelegatedResource} (h : rowEmpty row) (k : ResourceCode) :
    rowAmount row k = 0 := by
  cases k with
  | bandwidth => exact h.1
  | energy => exact h.2
  | tronPower => rfl

theorem not_rowEmpty_of_pos {row : DelegatedResource} {k : ResourceCode}
    (h : 0 < rowAmount row k) : ¬ rowEmpty row := by
  intro he
  rw [rowAmount_of_rowEmpty he] at h
  omega

/-- A row that is not empty and holds no negative amount holds a positive one. -/
theorem exists_pos_of_not_rowEmpty {row : DelegatedResource} (hn : ∀ k, 0 ≤ rowAmount row k)
    (h : ¬ rowEmpty row) : ∃ kind, 0 < rowAmount row kind := by
  by_contra hno
  have hz : ∀ k, rowAmount row k = 0 := by
    intro k
    have h₁ := hn k
    have h₂ : ¬ 0 < rowAmount row k := fun hp => hno ⟨k, hp⟩
    omega
  exact h ⟨hz .bandwidth, hz .energy⟩

/-! ## The rows after each operation -/

theorem moveExpired_ok {expired : ResourceCode → Bool} {locked unlocked l u : DelegatedResource}
    (h : moveExpired expired locked unlocked = .ok (l, u)) :
    (l.sender = locked.sender ∧ l.receiver = locked.receiver) ∧
      (u.sender = unlocked.sender ∧ u.receiver = unlocked.receiver) ∧
      (∀ k, rowAmount l k = if expired k then 0 else rowAmount locked k) ∧
      ∀ k, rowAmount u k = rowAmount unlocked k + if expired k then rowAmount locked k else 0 := by
  simp only [moveExpired, bind_eq_ok_iff, pure_eq_ok_iff, Prod.mk.injEq] at h
  obtain ⟨bandwidth, hb, energy, he, rfl, rfl⟩ := h
  have hb' : bandwidth = unlocked.frozenBalanceForBandwidth +
      if expired .bandwidth then locked.frozenBalanceForBandwidth else 0 := by
    split at hb <;> simp_all [checkedAdd_eq_ok_iff, pure_eq_ok_iff]
  have he' : energy = unlocked.frozenBalanceForEnergy +
      if expired .energy then locked.frozenBalanceForEnergy else 0 := by
    split at he <;> simp_all [checkedAdd_eq_ok_iff, pure_eq_ok_iff]
  refine ⟨?_, ⟨rfl, rfl⟩, fun k => ?_, fun k => ?_⟩
  · split <;> split <;> exact ⟨rfl, rfl⟩
  · cases hbx : expired .bandwidth <;> cases hex : expired .energy <;> cases k <;>
      simp [rowAmount, setRow, hbx, hex]
  · cases k <;> simp [rowAmount, hb', he']

section Unlock

variable {s r : Bytes} {rows : FMap Bytes DelegatedResource} (hs : validAddress s = true)
  (hr : validAddress r = true) (hne : s ≠ r) (hrows : RowsWell rows)

include hs hr hne in
theorem rowWell_v2 {locked : Bool} {row : DelegatedResource} (hse : row.sender = s)
    (hre : row.receiver = r) (hn : ∀ k, 0 ≤ rowAmount row k)
    (hh : locked = true → ¬ rowEmpty row) : RowWell (resourceV2Key s r locked) row := by
  subst hse hre
  refine ⟨hs, hr, hne, ⟨.v2, by cases locked <;> simp [InGeneration]⟩, hn, fun hkey => ?_⟩
  cases locked
  · exact absurd rfl hkey
  · exact hh rfl

include hs hr hne hrows in
/-- The locked row of a pair becomes `l`, or is deleted when that holds nothing. -/
theorem moves_putOrDelete {w : World} (hw : w.delegatedResources = rows) {l : DelegatedResource}
    (hse : l.sender = s) (hre : l.receiver = r) (hn : ∀ k, 0 ≤ rowAmount l k) :
    Moves .v2 s r (fun k => rowAmount l k - amountAt rows (resourceV2Key s r true) k) rows
        (putOrDelete w (resourceV2Key s r true) l).delegatedResources ∧
      RowsWell (putOrDelete w (resourceV2Key s r true) l).delegatedResources := by
  subst hw
  unfold putOrDelete
  split
  · next he =>
    refine ⟨(moves_erase hs hr (pairKey_v2 s r true) hrows).congr fun k => ?_, hrows.erase _⟩
    rw [rowAmount_of_rowEmpty he, zero_sub]
  · next hh =>
    exact ⟨moves_insert hs hr (pairKey_v2 s r true) hrows hse hre,
      hrows.insert (rowWell_v2 hs hr hne hse hre hn fun _ => hh)⟩

end Unlock

/-- Moving expired amounts to the unlocked row moves nothing onto a pair. -/
theorem unlockExpired_still {w w' : World} {s r : Bytes} {now : Int} (hs : validAddress s = true)
    (hr : validAddress r = true) (hne : s ≠ r) (hrows : RowsWell w.delegatedResources)
    (h : unlockExpired w s r now = .ok w') :
    Moves .v2 s r (fun _ => 0) w.delegatedResources w'.delegatedResources ∧
      RowsWell w'.delegatedResources := by
  unfold unlockExpired at h
  dsimp only at h
  split at h
  · rw [pure_eq_ok_iff] at h
    subst h
    exact ⟨.refl _ _ _ _, hrows⟩
  next locked hlo =>
  split at h
  · rw [pure_eq_ok_iff] at h
    subst h
    exact ⟨.refl _ _ _ _, hrows⟩
  simp only [bind_eq_ok_iff, pure_eq_ok_iff] at h
  obtain ⟨⟨l, u⟩, hm, rfl⟩ := h
  obtain ⟨⟨hls, hlr⟩, ⟨hus, hur⟩, hl, hu⟩ := moveExpired_ok hm
  have hw := hrows _ _ hlo
  obtain ⟨hlocked_s, hlocked_r⟩ := hw.v2_pair hs hr
  obtain ⟨hds, hdr, hd⟩ := delegated_pair (w := w) hs hr (pairKey_v2 s r false) hrows
  have ha : ∀ k, amountAt w.delegatedResources (resourceV2Key s r true) k =
      rowAmount locked k := fun k => by simp [amountAt, hlo]
  have hnonneg_u : ∀ k, 0 ≤ rowAmount u k := by
    intro k
    have h₁ := hrows.amountAt_nonneg (resourceV2Key s r false) k
    have h₂ := hw.nonneg k
    rw [hu, hd]
    split <;> omega
  have hnonneg_l : ∀ k, 0 ≤ rowAmount l k := by
    intro k
    have := hw.nonneg k
    rw [hl]
    split <;> omega
  have hp := moves_insert hs hr (pairKey_v2 s r false) hrows (hus.trans hds) (hur.trans hdr)
  have hro : RowWell (resourceV2Key s r false) u :=
    rowWell_v2 hs hr hne (hus.trans hds) (hur.trans hdr) hnonneg_u nofun
  have hr' := hrows.insert hro
  obtain ⟨hde, hw'⟩ := moves_putOrDelete hs hr hne hr'
    (w := putDelegated w (resourceV2Key s r false) u) rfl (hls.trans hlocked_s)
    (hlr.trans hlocked_r) hnonneg_l
  refine ⟨(hp.trans hde).congr fun k => ?_, hw'⟩
  rw [amountAt_insert_of_ne _ _ _ (resourceV2Key_true_ne_false s r), ha, hu, hl, hd]
  split <;> omega

/-! ## Adding to a row and taking from it -/

/-- An amount of one resource. -/
def onlyKind (kind : ResourceCode) (amount : Int) (k : ResourceCode) : Int :=
  if k = kind then amount else 0

@[simp] theorem onlyKind_self (kind : ResourceCode) (amount : Int) :
    onlyKind kind amount kind = amount := if_pos rfl

theorem onlyKind_of_ne {kind k : ResourceCode} (amount : Int) (h : k ≠ kind) :
    onlyKind kind amount k = 0 := if_neg h

theorem rowWell_of_holds {s r key : Bytes} {g : Generation} {row : DelegatedResource}
    (hs : validAddress s = true) (hr : validAddress r = true) (hne : s ≠ r)
    (hkey : PairKey s r key g) (hse : row.sender = s) (hre : row.receiver = r)
    (hn : ∀ k, 0 ≤ rowAmount row k) (hh : ¬ rowEmpty row) : RowWell key row := by
  have hg := (inGeneration_iff hs hr hkey hse hre).mpr rfl
  subst hse hre
  exact ⟨hs, hr, hne, ⟨g, hg⟩, hn, fun _ => hh⟩

/-- Adding to the row of a pair moves what is added. -/
theorem moves_add {w : World} {s r key : Bytes} {g : Generation} {kind : ResourceCode}
    {amount : Int} (expire : Int) (hs : validAddress s = true) (hr : validAddress r = true)
    (hne : s ≠ r) (hkey : PairKey s r key g) (hrows : RowsWell w.delegatedResources) (hki : kind ≠ .tronPower)
    (ha : 0 < amount) :
    Moves g s r (onlyKind kind amount) w.delegatedResources
        (w.delegatedResources.insert key (setRow (delegated w key s r) kind
          (rowAmount (delegated w key s r) kind + amount) expire)) ∧
      RowsWell (w.delegatedResources.insert key (setRow (delegated w key s r) kind
        (rowAmount (delegated w key s r) kind + amount) expire)) := by
  obtain ⟨hds, hdr, hd⟩ := delegated_pair hs hr hkey hrows
  obtain ⟨hse, hre⟩ := setRow_pair (delegated w key s r) kind
    (rowAmount (delegated w key s r) kind + amount) expire
  have hset := rowAmount_setRow (delegated w key s r)
    (rowAmount (delegated w key s r) kind + amount) expire hki
  have hn : ∀ k, 0 ≤ rowAmount (delegated w key s r) k := by
    intro k
    rw [hd]
    exact hrows.amountAt_nonneg key k
  refine ⟨(moves_insert hs hr hkey hrows (hse.trans hds) (hre.trans hdr)).congr
    fun k => ?_, hrows.insert (rowWell_of_holds hs hr hne hkey (hse.trans hds)
      (hre.trans hdr) (fun k => ?_) (not_rowEmpty_of_pos (k := kind) ?_))⟩
  · rw [hset, ← hd, onlyKind]
    split
    · next hk =>
      subst hk
      omega
    · omega
  · have h₁ := hn k
    have h₂ := hn kind
    rw [hset]
    split <;> omega
  · have := hn kind
    rw [hset, if_pos rfl]
    omega

/-- The effect of `DelegateResource` on the rows. -/
theorem Lends.moves {c : DelegateResource} {w w' unlocked : World}
    {owner owner' taker taker' : Account} {kind : ResourceCode} {items : List FreezeV2}
    {now expire : Int}
    (h : Lends c w w' owner owner' taker taker' kind items unlocked now expire)
    (hrows : RowsWell w.delegatedResources) :
    Moves .v2 c.ownerAddress c.receiverAddress (onlyKind kind c.balance) w.delegatedResources
        w'.delegatedResources ∧ RowsWell w'.delegatedResources := by
  obtain ⟨hst, hr₁⟩ := unlockExpired_still h.validOwner h.validReceiver h.distinct hrows
    h.unlocked_eq
  have hp : 0 < c.balance := lt_of_lt_of_le (by decide) h.enough
  obtain ⟨ha, hr'⟩ := moves_add expire h.validOwner h.validReceiver h.distinct
    (pairKey_v2 _ _ c.lock) hr₁ h.lendable hp
  rw [h.rows_eq]
  exact ⟨(hst.trans ha).congr fun k => zero_add _, hr'⟩

/-- The effect of `FreezeBalance` with a receiver on the rows. -/
theorem FreezesFor.moves {c : FreezeBalance} {w w' : World} {owner owner' taker taker' : Account}
    {kind : ResourceCode} {now expire : Int}
    (h : FreezesFor c w w' owner owner' taker taker' kind now expire)
    (hrows : RowsWell w.delegatedResources) :
    Moves .legacy c.ownerAddress c.receiverAddress (onlyKind kind c.frozenBalance)
        w.delegatedResources w'.delegatedResources ∧ RowsWell w'.delegatedResources := by
  have hp : 0 < c.frozenBalance := lt_of_lt_of_le (by decide) h.enough
  rw [h.rows_eq]
  exact moves_add expire h.validOwner h.validReceiver h.distinct rfl hrows h.lendable hp

/-- The effect of `UnfreezeBalance` with a receiver on the rows. -/
theorem UnfreezesFor.moves {c : UnfreezeBalance} {w w' : World} {owner owner' : Account}
    {kind : ResourceCode} {row : DelegatedResource}
    (h : UnfreezesFor c w w' owner owner' kind row) (hrows : RowsWell w.delegatedResources) :
    Moves .legacy c.ownerAddress c.receiverAddress
        (onlyKind (lentKind kind) (-rowAmount row (lentKind kind))) w.delegatedResources
        w'.delegatedResources ∧ RowsWell w'.delegatedResources := by
  have hw := hrows _ _ h.foundRow
  have hkey : PairKey c.ownerAddress c.receiverAddress
      (legacyResourceKey c.ownerAddress c.receiverAddress) .legacy := rfl
  obtain ⟨hrs, hrr⟩ := hw.legacy_pair h.validOwner h.validReceiver
  obtain ⟨hse, hre⟩ := setRow_pair row (lentKind kind) 0 (rowExpire row (lentKind kind))
  have hset := rowAmount_setRow row 0 (rowExpire row (lentKind kind)) (lentKind_ne kind)
  have ha : ∀ k, amountAt w.delegatedResources
      (legacyResourceKey c.ownerAddress c.receiverAddress) k = rowAmount row k := fun k => by
    simp [amountAt, h.foundRow]
  rw [h.rows_eq]
  split
  · next he =>
    refine ⟨(moves_erase h.validOwner h.validReceiver hkey hrows).congr fun k => ?_,
      hrows.erase _⟩
    have hz := rowAmount_of_rowEmpty he k
    rw [hset] at hz
    rw [ha, onlyKind]
    split
    · next hk => rw [hk]
    · next hk =>
      rw [if_neg hk] at hz
      omega
  · next hh =>
    refine ⟨(moves_insert h.validOwner h.validReceiver hkey hrows (hse.trans hrs)
      (hre.trans hrr)).congr fun k => ?_, hrows.insert (rowWell_of_holds h.validOwner
        h.validReceiver h.distinct hkey (hse.trans hrs) (hre.trans hrr) (fun k => ?_)
        hh)⟩
    · rw [hset, ha, onlyKind]
      split
      · next hk => rw [hk, zero_sub]
      · omega
    · have := hw.nonneg k
      rw [hset]
      split <;> omega

/-- What `unlockRow` gives: the row with the amounts that have been taken off the locked one. -/
structure UnlocksRow (rows rows' : FMap Bytes DelegatedResource) (s r : Bytes)
    (record : DelegatedResource) (moved : ResourceCode → Int) : Prop where
  moves : Moves .v2 s r (fun k => -moved k) rows rows'
  rowsWell : RowsWell rows'
  sender_eq : record.sender = s
  receiver_eq : record.receiver = r
  amount_eq : ∀ k, rowAmount record k = amountAt rows (resourceV2Key s r false) k + moved k
  nonneg : ∀ k, 0 ≤ rowAmount record k
  lookup_eq : rows'.lookup (resourceV2Key s r false) = rows.lookup (resourceV2Key s r false)

theorem unlockRow_ok {w w' : World} {s r : Bytes} {now : Int} {record : DelegatedResource}
    {existed : Bool} (hs : validAddress s = true) (hr : validAddress r = true) (hne : s ≠ r)
    (hrows : RowsWell w.delegatedResources)
    (h : unlockRow w s r now = .ok (w', record, existed)) :
    ∃ moved, UnlocksRow w.delegatedResources w'.delegatedResources s r record moved ∧
      (∀ k, rowAmount record k = available w s r k now) ∧
      (existed = false → rowEmpty record) := by
  obtain ⟨hds, hdr, hd⟩ := delegated_pair hs hr (pairKey_v2 s r false) hrows
  have hn : ∀ k, 0 ≤ rowAmount (delegated w (resourceV2Key s r false) s r) k := by
    intro k
    rw [hd]
    exact hrows.amountAt_nonneg _ k
  have hm : (w.delegatedResources.lookup (resourceV2Key s r false)).isSome = false →
      ∀ k, amountAt w.delegatedResources (resourceV2Key s r false) k = 0 := by
    intro hno k
    rw [amountAt, Option.isSome_eq_false_iff.mp hno |> Option.isNone_iff_eq_none.mp]
    rfl
  unfold unlockRow at h
  dsimp only at h
  split at h
  · -- there is no locked row, so nothing moves
    next hlo =>
    rw [pure_eq_ok_iff] at h
    simp only [Prod.mk.injEq] at h
    obtain ⟨rfl, rfl, rfl⟩ := h
    refine ⟨fun _ => 0, ⟨(Moves.refl _ _ _ _).congr fun _ => rfl, hrows, hds, hdr, fun k => ?_,
      hn, rfl⟩, fun k => ?_, fun hexi => ?_⟩
    · rw [hd, add_zero]
    · rw [hd, available, hlo, add_zero]
      rfl
    · have hz := hm hexi
      exact ⟨(hd .bandwidth).trans (hz _), (hd .energy).trans (hz _)⟩
  · next locked hlo =>
    simp only [bind_eq_ok_iff, pure_eq_ok_iff, Prod.mk.injEq] at h
    obtain ⟨⟨l, u⟩, hmov, rfl, rfl, rfl⟩ := h
    obtain ⟨⟨hls, hlr⟩, ⟨hus, hur⟩, hl, hu⟩ := moveExpired_ok hmov
    have hw := hrows _ _ hlo
    obtain ⟨hlocked_s, hlocked_r⟩ := hw.v2_pair hs hr
    have ha : ∀ k, amountAt w.delegatedResources (resourceV2Key s r true) k =
        rowAmount locked k := fun k => by simp [amountAt, hlo]
    have hnonneg_l : ∀ k, 0 ≤ rowAmount l k := by
      intro k
      have := hw.nonneg k
      rw [hl]
      split <;> omega
    have hnonneg_u : ∀ k, 0 ≤ rowAmount u k := by
      intro k
      have h₁ := hn k
      have h₂ := hw.nonneg k
      rw [hu]
      split <;> omega
    -- the locked row is written back, or dropped where nothing is left of it
    obtain ⟨hmo, hr'⟩ := moves_putOrDelete (w := w) hs hr hne hrows rfl (hls.trans hlocked_s)
      (hlr.trans hlocked_r) hnonneg_l
    refine ⟨fun k => if decide (rowAmount locked k > 0 ∧ rowExpire locked k < now) then
      rowAmount locked k else 0, ⟨hmo.congr fun k => ?_, hr', hus.trans hds, hur.trans hdr,
        fun k => ?_, hnonneg_u, ?_⟩, fun k => ?_, fun hexi => ?_⟩
    · rw [hl, ha]
      split <;> omega
    · rw [hu, hd]
    · have hk := (resourceV2Key_true_ne_false s r).symm
      unfold putOrDelete
      split
      · exact Finmap.lookup_erase_ne hk
      · exact Finmap.lookup_insert_of_ne _ hk
    · have := hw.nonneg k
      rw [hu, hd, available, hlo]
      refine congrArg _ ?_
      simp only [decide_eq_true_eq]
      split_ifs <;> omega
    · simp only [Bool.or_eq_false_iff] at hexi
      obtain ⟨⟨hexi, hb⟩, he⟩ := hexi
      have hz := hm hexi
      constructor
      · refine (hu .bandwidth).trans ?_
        rw [hd, hz, hb]
        rfl
      · refine (hu .energy).trans ?_
        rw [hd, hz, he]
        rfl

/-- The effect of `UnDelegateResource` on the rows. -/
theorem Returns.moves {c : UnDelegateResource} {w w' unlocked : World} {owner owner' : Account}
    {taker taker' : Option Account} {kind : ResourceCode} {items : List FreezeV2}
    {record : DelegatedResource} {existed : Bool} {now : Int}
    (h : Returns c w w' owner owner' taker taker' kind items unlocked record existed now)
    (hrows : RowsWell w.delegatedResources) :
    Moves .v2 c.ownerAddress c.receiverAddress (onlyKind kind (-c.balance)) w.delegatedResources
        w'.delegatedResources ∧ RowsWell w'.delegatedResources ∧
      (w'.delegatedResources.lookup (resourceV2Key c.ownerAddress c.receiverAddress true) =
        unlocked.delegatedResources.lookup
          (resourceV2Key c.ownerAddress c.receiverAddress true)) ∧
      ∀ k, amountAt w'.delegatedResources (resourceV2Key c.ownerAddress c.receiverAddress false) k =
        rowAmount (setRow record kind (rowAmount record kind - c.balance) (rowExpire record kind))
          k := by
  obtain ⟨moved, hu, ha, hexi⟩ := unlockRow_ok h.validOwner h.validReceiver
    h.distinct hrows h.unlocked_eq
  have hkey := pairKey_v2 c.ownerAddress c.receiverAddress false
  have hke := resourceV2Key_true_ne_false c.ownerAddress c.receiverAddress
  have hc : c.balance ≤ rowAmount record kind := by
    rw [ha]
    exact h.covered
  have hp := h.positive
  -- an absent record is empty, and the balance is covered
  obtain rfl : existed = true := by
    by_contra hn
    have he := hexi (by simpa using hn)
    exact not_rowEmpty_of_pos (k := kind) (by omega) he
  obtain ⟨hse, hre⟩ := setRow_pair record kind (rowAmount record kind - c.balance)
    (rowExpire record kind)
  have hset := rowAmount_setRow record (rowAmount record kind - c.balance) (rowExpire record kind)
    h.lendable
  have hl : ∀ k, amountAt unlocked.delegatedResources
      (resourceV2Key c.ownerAddress c.receiverAddress false) k =
        amountAt w.delegatedResources (resourceV2Key c.ownerAddress c.receiverAddress false) k :=
    fun k => by rw [amountAt, hu.lookup_eq, amountAt]
  have hd : ∀ k, rowAmount
      (setRow record kind (rowAmount record kind - c.balance) (rowExpire record kind)) k =
        rowAmount record k + onlyKind kind (-c.balance) k := by
    intro k
    rw [hset, onlyKind]
    split
    · next hk => rw [hk, Int.sub_eq_add_neg]
    · rw [add_zero]
  -- the record is dropped if it is empty then, and written back otherwise
  rw [h.rows_eq]
  unfold rowsAfter
  split
  · next he =>
    have hz : ∀ k, rowAmount
        (setRow record kind (rowAmount record kind - c.balance) (rowExpire record kind)) k = 0 :=
      rowAmount_of_rowEmpty he
    simp only [if_true]
    refine ⟨(hu.moves.trans (moves_erase h.validOwner h.validReceiver hkey
      hu.rowsWell)).congr fun k => ?_, hu.rowsWell.erase _,
      Finmap.lookup_erase_ne hke, fun k => ?_⟩
    · have h₁ := hu.amount_eq k
      have h₂ := hd k
      rw [hz] at h₂
      rw [hl]
      omega
    · rw [amountAt_erase_self, hz]
  · refine ⟨(hu.moves.trans (moves_insert h.validOwner h.validReceiver hkey hu.rowsWell
      (hse.trans hu.sender_eq) (hre.trans hu.receiver_eq))).congr fun k => ?_,
      hu.rowsWell.insert (rowWell_v2 h.validOwner h.validReceiver h.distinct
        (hse.trans hu.sender_eq) (hre.trans hu.receiver_eq) (fun k => ?_)
        nofun), Finmap.lookup_insert_of_ne _ hke, fun k => amountAt_insert_self _ _ _ k⟩
    · have h₁ := hu.amount_eq k
      have h₂ := hd k
      rw [hl]
      omega
    · have := hu.nonneg k
      rw [hset]
      split <;> omega

end RustTron.Actuator
