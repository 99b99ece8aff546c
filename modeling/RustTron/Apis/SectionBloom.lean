import RustTron.Library.Bitmap
import RustTron.Library.FMap
import RustTron.Apis.LogFilter

/-!
# The section bloom index

Every block has a bloom of 2048 bits over the addresses and topics of its logs.  The index turns
2048 blooms of a section of blocks by a quarter: for each bit it keeps the row of the blocks of
the section whose bloom has it.  A query meets the rows of the bits of one bloom, joins over the
alternatives of one position, meets over the positions, and reads off the blocks that are left.

A bloom may have bits no log accounts for, so a query may answer with too many blocks.  What is
shown here is that it never answers with too few: as long as each block is indexed under a bloom
that covers its logs, no block with a matching log is missed.

Block numbers are unbounded here; the source's are `u64`, and `section * 2048 + offset` stays
below `2 ^ 64` for every section it visits.

## Main definitions

* `Bloom`, `Bloom.forHash`, `Bloom.forValue`
* `SectionBloom`, `SectionBloom.indexBlock`, `SectionBloom.candidates`
* `IndexedBlock`, `IndexedBlock.Covers`: a block as it was indexed, and that its bloom covers its
  logs

## Main results

* `SectionBloom.mem_candidates`: exactly which blocks a query answers with
* `SectionBloom.candidates_complete`: no false negatives, in order and within the range
-/

namespace RustTron.Apis

def blocksPerSection : Nat := 2048

/-- `Bloom`: 2048 bits in 256 bytes. -/
abbrev Bloom : Type := Bitmap 8 256

namespace Bloom

/-- `chunks_exact(2)`. -/
def pairs : Bytes → List (UInt8 × UInt8)
  | a :: b :: rest => (a, b) :: pairs rest
  | _ => []

/-- The bit of a pair of bytes: the low three bits of the first over the second. -/
def bitOf (pair : UInt8 × UInt8) : Nat := ((pair.1.toNat &&& 7) <<< 8) ||| pair.2.toNat

def forHash (hash : Hash32) : Bloom :=
  ((pairs (hash.bytes.take 6)).map bitOf).foldl Bitmap.set Bitmap.empty

def forValue (keccak : Bytes → Hash32) (value : Bytes) : Bloom := forHash (keccak value)

end Bloom

/-- `LogFilter::bloom_groups`: the alternatives of each topic position and of the address. -/
def LogFilter.bloomGroups (keccak : Bytes → Hash32) (f : LogFilter) : List (List Bloom) :=
  f.topics.map (fun t => (t.getD []).map fun x => Bloom.forValue keccak x.bytes) ++
    [f.addresses.map (Bloom.forValue keccak)]

/-- The blocks of one section, a bit each. -/
abbrev SectionRow : Type := Bitmap 64 32

/-- `SectionBloom`: for a section and a bit, the blocks of the section whose bloom has the
bit. -/
structure SectionBloom where
  sections : FMap (Nat × Nat) SectionRow := ∅

namespace SectionBloom

def indexBlock (s : SectionBloom) (blockNumber : Nat) (bloom : Bloom) : SectionBloom where
  sections := (Bitmap.setBits bloom).foldl (fun sections bit =>
    let row := (sections.lookup (blockNumber / blocksPerSection, bit)).getD Bitmap.empty
    sections.insert (blockNumber / blocksPerSection, bit)
      (Bitmap.set row (blockNumber % blocksPerSection))) s.sections

/-- The row of a bit in a section; a bit no block has set has no row. -/
def row (s : SectionBloom) (sec bit : Nat) : SectionRow :=
  (s.sections.lookup (sec, bit)).getD Bitmap.empty

/-- The blocks of a section whose bloom has every bit of `bloom`. -/
def all (s : SectionBloom) (sec : Nat) (bloom : Bloom) : SectionRow :=
  (Bitmap.setBits bloom).foldl (fun all bit => Bitmap.and all (s.row sec bit)) Bitmap.full

/-- The blocks of a section that one of the alternatives leaves. -/
def any (s : SectionBloom) (sec : Nat) (alternatives : List Bloom) : SectionRow :=
  alternatives.foldl (fun any bloom => Bitmap.or any (s.all sec bloom)) Bitmap.empty

/-- The blocks of a section that every group leaves; a group without alternatives leaves
all. -/
def possible (s : SectionBloom) (sec : Nat) (groups : List (List Bloom)) : SectionRow :=
  groups.foldl (fun possible alternatives =>
    if alternatives.isEmpty then possible
    else Bitmap.and possible (s.any sec alternatives)) Bitmap.full

def candidates (keccak : Bytes → Hash32) (s : SectionBloom) (from_ to_ : Nat) (f : LogFilter) :
    List Nat :=
  if to_ < from_ then []
  else
    let first := from_ / blocksPerSection
    let last := to_ / blocksPerSection
    let groups := f.bloomGroups keccak
    (List.range' first (last + 1 - first)).flatMap fun sec =>
      let possible := s.possible sec groups
      (List.range blocksPerSection).filterMap fun offset =>
        let n := sec * blocksPerSection + offset
        if from_ ≤ n ∧ n ≤ to_ ∧ Bitmap.test possible offset = true then some n else none

/-! ### What the index holds -/

section Index

variable (s : SectionBloom)

/-- Block `n` is marked with `bit`. -/
def Marked (n bit : Nat) : Prop :=
  Bitmap.test (s.row (n / blocksPerSection) bit) (n % blocksPerSection) = true

theorem mod_lt (n : Nat) : n % blocksPerSection < 64 * 32 := Nat.mod_lt n (by decide)

/-- Setting the bits of a block one after the other marks the block with them, and takes no mark
away. -/
theorem marked_foldl (bits : List Nat) (number : Nat) (sections : FMap (Nat × Nat) SectionRow)
    (n bit : Nat) :
    Marked ⟨bits.foldl (fun sections bit =>
        let row := (sections.lookup (number / blocksPerSection, bit)).getD Bitmap.empty
        sections.insert (number / blocksPerSection, bit)
          (Bitmap.set row (number % blocksPerSection))) sections⟩ n bit ↔
      n = number ∧ bit ∈ bits ∨ Marked ⟨sections⟩ n bit := by
  induction bits generalizing sections with
  | nil => simp
  | cons b bits ih =>
    rw [List.foldl_cons, ih]
    have hst : Marked ⟨sections.insert (number / blocksPerSection, b)
          (Bitmap.set ((sections.lookup (number / blocksPerSection, b)).getD Bitmap.empty)
            (number % blocksPerSection))⟩ n bit ↔
        n = number ∧ bit = b ∨ Marked ⟨sections⟩ n bit := by
      simp only [Marked, row]
      by_cases hk : (n / blocksPerSection, bit) = (number / blocksPerSection, b)
      · obtain ⟨hs, rfl⟩ := Prod.mk.inj hk
        have hsa : n % blocksPerSection = number % blocksPerSection ↔ n = number := by
          refine ⟨fun hm => ?_, fun hn => by rw [hn]⟩
          rw [← Nat.div_add_mod n blocksPerSection, hs, hm, Nat.div_add_mod]
        rw [hs, Finmap.lookup_insert, Option.getD_some, Bitmap.test_set (mod_lt number),
          Bool.or_eq_true, decide_eq_true_eq, hsa]
        simp
      · rw [Finmap.lookup_insert_of_ne _ hk]
        have hne : ¬ (n = number ∧ bit = b) := fun h => hk (by rw [h.1, h.2])
        simp only [hne, false_or]
    rw [hst, List.mem_cons]
    tauto

theorem marked_indexBlock (number : Nat) (bloom : Bloom) (n bit : Nat) :
    (s.indexBlock number bloom).Marked n bit ↔
      n = number ∧ bit ∈ Bitmap.setBits bloom ∨ s.Marked n bit :=
  marked_foldl _ number s.sections n bit

end Index

/-! ### What a query answers with -/

section Queries

variable (s : SectionBloom)

theorem test_all {sec offset : Nat} (h : offset < 64 * 32) (bloom : Bloom) :
    Bitmap.test (s.all sec bloom) offset = true ↔
      ∀ bit ∈ Bitmap.setBits bloom, Bitmap.test (s.row sec bit) offset = true := by
  rw [all, Bitmap.test_foldl_and, Bitmap.test_full h]
  simp only [true_and]

theorem test_any {sec offset : Nat} (h : offset < 64 * 32) (alternatives : List Bloom) :
    Bitmap.test (s.any sec alternatives) offset = true ↔
      ∃ bloom ∈ alternatives, ∀ bit ∈ Bitmap.setBits bloom,
        Bitmap.test (s.row sec bit) offset = true := by
  simp only [any, Bitmap.test_foldl_or, Bitmap.test_empty, Bool.false_eq_true, false_or,
    s.test_all h]

theorem test_possible {sec offset : Nat} (h : offset < 64 * 32) (groups : List (List Bloom)) :
    Bitmap.test (s.possible sec groups) offset = true ↔
      ∀ alternatives ∈ groups, alternatives = [] ∨ ∃ bloom ∈ alternatives,
        ∀ bit ∈ Bitmap.setBits bloom, Bitmap.test (s.row sec bit) offset = true := by
  suffices hf : ∀ row : SectionRow, Bitmap.test (groups.foldl (fun possible alternatives =>
        if alternatives.isEmpty then possible
        else Bitmap.and possible (s.any sec alternatives)) row) offset = true ↔
      Bitmap.test row offset = true ∧ ∀ alternatives ∈ groups, alternatives = [] ∨
        ∃ bloom ∈ alternatives, ∀ bit ∈ Bitmap.setBits bloom,
          Bitmap.test (s.row sec bit) offset = true by
    rw [possible, hf, Bitmap.test_full h]
    simp only [true_and]
  induction groups with
  | nil => simp
  | cons alternatives groups ih =>
    intro row
    rw [List.foldl_cons, ih, List.forall_mem_cons]
    cases alternatives with
    | nil => simp
    | cons bloom rest =>
      simp only [List.isEmpty_cons, Bool.false_eq_true, if_false, Bitmap.test_and,
        Bool.and_eq_true, s.test_any h, reduceCtorEq, false_or, and_assoc]

variable (keccak : Bytes → Hash32)

/-- A query answers with exactly the blocks of the range that are marked, for every group that
has alternatives, with all the bits of one of them. -/
theorem mem_candidates (a b : Nat) (f : LogFilter) (n : Nat) :
    n ∈ s.candidates keccak a b f ↔ a ≤ n ∧ n ≤ b ∧ ∀ alternatives ∈ f.bloomGroups keccak,
      alternatives = [] ∨ ∃ bloom ∈ alternatives, ∀ bit ∈ Bitmap.setBits bloom,
        s.Marked n bit := by
  have hB : 0 < blocksPerSection := by decide
  unfold candidates
  split
  next hlt =>
    simp only [List.not_mem_nil, false_iff]
    omega
  next hle =>
    simp only [List.mem_flatMap, List.mem_range'_1, List.mem_filterMap, List.mem_range,
      Option.ite_none_right_eq_some, Option.some.injEq]
    constructor
    · rintro ⟨sec, -, offset, ho, ⟨ha, hb, hp⟩, rfl⟩
      refine ⟨ha, hb, ?_⟩
      have hd : (sec * blocksPerSection + offset) / blocksPerSection = sec := by
        rw [Nat.mul_comm, Nat.mul_add_div hB, Nat.div_eq_of_lt ho, Nat.add_zero]
      have hmo : (sec * blocksPerSection + offset) % blocksPerSection = offset := by
        rw [Nat.mul_comm, Nat.mul_add_mod, Nat.mod_eq_of_lt ho]
      simpa only [Marked, hd, hmo] using (s.test_possible ho _).mp hp
    · rintro ⟨ha, hb, hm⟩
      have hf : a / blocksPerSection ≤ n / blocksPerSection := Nat.div_le_div_right ha
      have hl : n / blocksPerSection ≤ b / blocksPerSection := Nat.div_le_div_right hb
      refine ⟨n / blocksPerSection, ⟨hf, by omega⟩, n % blocksPerSection,
        Nat.mod_lt n hB, ?_, ?_⟩
      · rw [Nat.div_add_mod']
        exact ⟨ha, hb, (s.test_possible (mod_lt n) _).mpr hm⟩
      · rw [Nat.div_add_mod']

theorem sorted_candidates (a b : Nat) (f : LogFilter) :
    (s.candidates keccak a b f).Pairwise (· < ·) := by
  have hme : ∀ {sec : Nat} {row : SectionRow} {n : Nat},
      n ∈ (List.range blocksPerSection).filterMap (fun offset =>
        if a ≤ sec * blocksPerSection + offset ∧ sec * blocksPerSection + offset ≤ b ∧
          Bitmap.test row offset = true then some (sec * blocksPerSection + offset) else none) →
      n / blocksPerSection = sec := by
    intro sec row n hn
    simp only [List.mem_filterMap, List.mem_range, Option.ite_none_right_eq_some,
      Option.some.injEq] at hn
    obtain ⟨offset, ho, -, rfl⟩ := hn
    rw [Nat.mul_comm, Nat.mul_add_div (by decide), Nat.div_eq_of_lt ho, Nat.add_zero]
  unfold candidates
  split
  · exact List.Pairwise.nil
  · refine List.pairwise_flatMap.mpr ⟨fun sec _ => ?_, ?_⟩
    · refine List.pairwise_filterMap.mpr (List.pairwise_lt_range.imp fun {o o'} hlt n hn m hm => ?_)
      simp only [Option.ite_none_right_eq_some, Option.some.injEq] at hn hm
      omega
    · have hs := List.pairwise_lt_range' (s := a / blocksPerSection)
        (n := b / blocksPerSection + 1 - a / blocksPerSection)
      refine hs.imp fun {i j} hij n hn m hm => ?_
      have hi := hme hn
      have hj := hme hm
      rw [← hi, ← hj] at hij
      exact lt_of_not_ge fun hge => absurd (Nat.div_le_div_right hge) (not_le.mpr hij)

end Queries

end SectionBloom

/-! ### Blocks as they are indexed -/

/-- A block as it is indexed: its number, its bloom and the logs in it. -/
structure IndexedBlock where
  number : Nat
  bloom : Bloom
  logs : List RpcLog

namespace IndexedBlock

variable (keccak : Bytes → Hash32)

/-- The bloom has the address and every topic of every log of the block. -/
def Covers (block : IndexedBlock) : Prop :=
  ∀ log ∈ block.logs, Bitmap.contains block.bloom (Bloom.forValue keccak log.address) = true ∧
    ∀ topic ∈ log.topics, Bitmap.contains block.bloom (Bloom.forValue keccak topic.bytes) = true

end IndexedBlock

namespace SectionBloom

variable {keccak : Bytes → Hash32}

/-- The index after a sequence of calls. -/
def indexed (blocks : List IndexedBlock) : SectionBloom :=
  blocks.foldl (fun s block => s.indexBlock block.number block.bloom) {}

theorem marked_indexed (blocks : List IndexedBlock) (n bit : Nat) :
    (indexed blocks).Marked n bit ↔
      ∃ block ∈ blocks, n = block.number ∧ bit ∈ Bitmap.setBits block.bloom := by
  induction blocks using List.reverseRecOn with
  | nil => simp [indexed, Marked, row]
  | append_singleton blocks block ih =>
    have hl : indexed (blocks ++ [block]) =
        (indexed blocks).indexBlock block.number block.bloom := by
      simp only [indexed, List.foldl_append, List.foldl_cons, List.foldl_nil]
    rw [hl, marked_indexBlock, ih]
    simp only [List.mem_append, List.mem_singleton, or_and_right, exists_or, exists_eq_left]
    exact or_comm

theorem topic_alternative {wants : List (Option (List Hash32))} {topics : List Hash32}
    (h : LogFilter.topicsMatch wants topics = true) :
    ∀ want ∈ wants, want.getD [] = [] ∨ ∃ topic ∈ topics, topic ∈ want.getD [] := by
  obtain ⟨hl, hz⟩ := (LogFilter.topicsMatch_iff wants topics).mp h
  intro want hwa
  obtain ⟨i, hi, rfl⟩ := List.getElem_of_mem hwa
  have hi' : i < topics.length := lt_of_lt_of_le hi hl
  cases hw : wants[i] with
  | none => exact .inl rfl
  | some values =>
    have hm : (wants[i], topics[i]) ∈ wants.zip topics := by
      rw [← List.getElem_zip (h := by simpa using ⟨hi, hi'⟩)]
      exact List.getElem_mem _
    rcases hz _ hm values hw with h | h
    · exact .inl h
    · exact .inr ⟨topics[i], List.getElem_mem hi', h⟩

/-- Every group of a filter that matches a log has no alternatives, or one for the address or a
topic of the log. -/
theorem group_alternative {f : LogFilter} {log : RpcLog} (h : f.matchesLog log = true) :
    ∀ alternatives ∈ f.bloomGroups keccak, alternatives = [] ∨ ∃ value,
      Bloom.forValue keccak value ∈ alternatives ∧
        (value = log.address ∨ ∃ topic ∈ log.topics, value = topic.bytes) := by
  obtain ⟨-, -, ha, ht⟩ := (f.matchesLog_iff log).mp h
  intro alternatives hg
  rcases List.mem_append.mp hg with hg | hg
  · obtain ⟨want, hw, rfl⟩ := List.mem_map.mp hg
    rcases topic_alternative ht want hw with hn | ⟨topic, hto, hm⟩
    · exact .inl (by rw [hn, List.map_nil])
    · exact .inr ⟨topic.bytes, List.mem_map.mpr ⟨topic, hm, rfl⟩, .inr ⟨topic, hto, rfl⟩⟩
  · rw [List.mem_singleton.mp hg]
    rcases ha with hn | hm
    · exact .inl (by rw [hn, List.map_nil])
    · exact .inr ⟨log.address, List.mem_map.mpr ⟨log.address, hm, rfl⟩, .inl rfl⟩

/-- An index whose blooms cover the logs of their blocks has no false negatives: a block of the
range with a log the filter matches is a candidate.  The candidates are strictly increasing and
within the range. -/
theorem candidates_complete (blocks : List IndexedBlock)
    (hcovers : ∀ block ∈ blocks, block.Covers keccak) (f : LogFilter) (a b : Nat) :
    (∀ block ∈ blocks, a ≤ block.number → block.number ≤ b →
        (∃ log ∈ block.logs, f.matchesLog log = true) →
        block.number ∈ (indexed blocks).candidates keccak a b f) ∧
      ((indexed blocks).candidates keccak a b f).Pairwise (· < ·) ∧
      ∀ n ∈ (indexed blocks).candidates keccak a b f, a ≤ n ∧ n ≤ b := by
  refine ⟨?_, sorted_candidates _ _ a b f, ?_⟩
  · rintro block hblock ha hb ⟨log, hlog, hmatch⟩
    refine (mem_candidates _ keccak a b f block.number).mpr ⟨ha, hb, fun alternatives hgroup => ?_⟩
    rcases group_alternative hmatch alternatives hgroup with hnil | ⟨value, hmem, hvalue⟩
    · exact .inl hnil
    obtain ⟨haddress, htopics⟩ := hcovers block hblock log hlog
    have hcontains : Bitmap.contains block.bloom (Bloom.forValue keccak value) = true := by
      rcases hvalue with rfl | ⟨topic, htopic, rfl⟩
      · exact haddress
      · exact htopics topic htopic
    refine .inr ⟨_, hmem, fun bit hbit => (marked_indexed blocks _ bit).mpr ?_⟩
    have hset := Bitmap.contains_iff.mp hcontains bit hbit
    exact ⟨block, hblock, rfl, Bitmap.mem_setBits.mpr ⟨(Bitmap.mem_setBits.mp hbit).1, hset⟩⟩
  · intro n hn
    obtain ⟨ha, hb, -⟩ := (mem_candidates _ keccak a b f n).mp hn
    exact ⟨ha, hb⟩

/-- The digest of the empty string. -/
def emptyDigest : Hash32 where
  bytes := [0xc5, 0xd2, 0x46, 0x01, 0x86, 0xf7, 0x23, 0x3c, 0x92, 0x7e, 0x7d, 0xb2, 0xdc,
    0xc7, 0x03, 0xc0, 0xe5, 0x00, 0xb6, 0x53, 0xca, 0x82, 0x27, 0x3b, 0x7b, 0xfa, 0xd8,
    0x04, 0x5d, 0x85, 0xa4, 0x70]
  length_eq := rfl

/-- A block of the second section with one log, from the empty address, under the bloom of that
address. -/
def sampleBlock : IndexedBlock where
  number := 2050
  bloom := Bloom.forHash emptyDigest
  logs := [⟨[], [], [], emptyDigest, 2050, emptyDigest, 0, 0, false⟩]

theorem sampleBlock_candidate :
    sampleBlock.Covers (fun _ => emptyDigest) ∧
      2050 ∈ (indexed [sampleBlock]).candidates (fun _ => emptyDigest) 100 4095
        { addresses := [[]] } := by
  have hcovers : sampleBlock.Covers fun _ => emptyDigest := by
    intro log hlog
    rw [List.mem_singleton.mp hlog]
    exact ⟨Bitmap.contains_self _, nofun⟩
  have hall : ∀ block ∈ [sampleBlock], block.Covers fun _ => emptyDigest := by
    intro block hblock
    rwa [List.mem_singleton.mp hblock]
  exact ⟨hcovers, (candidates_complete [sampleBlock] hall { addresses := [[]] } 100 4095).1
    sampleBlock (List.mem_singleton.mpr rfl) (by decide) (by decide) ⟨_, List.mem_cons_self, rfl⟩⟩

end SectionBloom

end RustTron.Apis
