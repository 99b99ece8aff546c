import RustTron.Storage.Texts

/-!
# The manifest read back

What `decode` makes of an encoded manifest is the manifest with each of its texts taken byte by
byte, if its features are still in order then.  So a manifest survives encoding iff its texts are
ASCII: the format carries any line end, percent, sign or checksum in any field, but not a single
character of more than one byte.

## Main definitions

* `Manifest.WellFormed`: what `decode` asks of a manifest
* `Manifest.AsciiTexts`: the texts are ASCII

## Main results

* `Manifest.decode_encode`: what `decode` makes of an encoded manifest
* `Manifest.wellFormed_of_decode`: what `decode` accepts is well-formed
* `Manifest.decode_encode_iff`: which manifests survive encoding
-/

namespace RustTron.Storage.Manifest

/-- A manifest of the current version, with numbers of their types, whose features are sorted,
distinct, not empty and free of commas. -/
structure WellFormed (m : Manifest) : Prop where
  version : m.manifestVersion = Storage.manifestVersion
  schemaVersion : m.schemaVersion < 2 ^ 32
  generation : m.generation < 2 ^ 64
  parentGeneration : ∀ parent, m.parentGeneration = some parent → parent < 2 ^ 64
  sorted : m.features.IsChain (· < ·)
  feature_ne : ∀ f ∈ m.features, f.toList ≠ []
  feature_comma : ∀ f ∈ m.features, ',' ∉ f.toList

/-- The texts of a manifest. -/
def texts (m : Manifest) : List String :=
  [m.network, m.genesis, m.backend, m.backendFormat, m.stateRoot] ++ m.features

/-- All texts of a manifest are ASCII. -/
def AsciiTexts (m : Manifest) : Prop := ∀ text ∈ m.texts, Ascii text

/-- The manifest with its texts taken byte by byte. -/
def bytewise (m : Manifest) : Manifest :=
  { m with
    network := bytewiseString m.network
    genesis := bytewiseString m.genesis
    backend := bytewiseString m.backend
    backendFormat := bytewiseString m.backendFormat
    features := m.features.map bytewiseString
    stateRoot := bytewiseString m.stateRoot }

theorem bytewise_eq_iff (m : Manifest) : m.bytewise = m ↔ m.AsciiTexts := by
  have hf : m.features.map bytewiseString = m.features ↔ ∀ f ∈ m.features, Ascii f := by
    have hm := List.map_inj_left (l := m.features) (f := bytewiseString) (g := id)
    rw [List.map_id] at hm
    exact hm.trans (forall₂_congr fun f _ => Storage.bytewise_eq_iff f)
  cases m
  simp only [bytewise, mk.injEq, true_and, AsciiTexts, texts, List.forall_mem_append,
    List.forall_mem_cons, List.not_mem_nil, false_implies, implies_true, and_true,
    Storage.bytewise_eq_iff] at hf ⊢
  tauto

/-! ### The fields of an encoded manifest -/

section Fields

theorem bytewiseString_of_ascii {text : String} (h : Ascii text) : bytewiseString text = text :=
  (Storage.bytewise_eq_iff text).mpr h

theorem ascii_toString (n : Nat) : Ascii (toString n) := by
  intro c hc
  rw [Nat.toString_eq_ofList_toDigits, String.toList_ofList] at hc
  have hd := Nat.isDigit_of_mem_toDigits (by decide) (le_refl 10) hc
  simp only [Char.isDigit, Bool.and_eq_true, decide_eq_true_eq] at hd
  exact lt_of_le_of_lt (UInt32.le_iff_toNat_le.mp hd.2) (by decide)

theorem bytewise_intercalate (ls : List (List Char)) :
    Storage.bytewise ([','].intercalate ls) = [','].intercalate (ls.map Storage.bytewise) := by
  induction ls with
  | nil => rfl
  | cons l ls ih =>
    cases ls with
    | nil => simp
    | cons l' ls =>
      have hc : Storage.bytewise [','] = [','] :=
        bytewise_of_ascii (List.forall_mem_singleton.mpr (by decide))
      rw [List.intercalate_cons_cons, bytewise_append, bytewise_append, ih, List.map_cons,
        List.map_cons, List.map_cons, List.intercalate_cons_cons, hc]

theorem comma_of_mem_bytewise {text : List Char} (h : ',' ∈ Storage.bytewise text) :
    ',' ∈ text := by
  obtain ⟨b, hb, hco⟩ := List.mem_map.mp h
  obtain ⟨c, hc, hbc⟩ := List.mem_flatMap.mp hb
  have hb44 : b.toNat = 44 := by
    rw [← toNat_ofNat_byte, hco]
    rfl
  rcases Nat.lt_or_ge c.toNat 128 with hlt | hge
  · rw [utf8EncodeChar_of_lt hlt, List.mem_singleton] at hbc
    rw [hbc, toNat_ofNat_of_lt (by omega)] at hb44
    have hcc : c = ',' := by
      rw [← Char.ofNat_toNat c, hb44]
    exact hcc ▸ hc
  · have := le_of_mem_utf8EncodeChar hge hbc
    omega

theorem bytewise_ne_nil {text : List Char} (h : text ≠ []) : Storage.bytewise text ≠ [] := by
  intro hn
  have := (length_le_bytewise text).1
  rw [hn, List.length_nil, Nat.le_zero, List.length_eq_zero_iff] at this
  exact h this

theorem features_bytewise {features : List String} (hne : ∀ f ∈ features, f.toList ≠ [])
    (hc : ∀ f ∈ features, ',' ∉ f.toList) :
    (((bytewiseString (",".intercalate features)).toList.splitOn ',').filter (· ≠ [])).map
      String.ofList = features.map bytewiseString := by
  rw [bytewiseString, String.toList_ofList, String.toList_intercalate]
  change (((Storage.bytewise ([','].intercalate (features.map String.toList))).splitOn ',').filter
    (· ≠ [])).map String.ofList = _
  rw [bytewise_intercalate]
  cases features with
  | nil => rfl
  | cons f features =>
    have hf : ∀ l ∈ ((f :: features).map String.toList).map Storage.bytewise, ',' ∉ l := by
      intro l hl
      obtain ⟨t, ht, rfl⟩ := List.mem_map.mp hl
      obtain ⟨g, hg, rfl⟩ := List.mem_map.mp ht
      exact fun h => hc g hg (comma_of_mem_bytewise h)
    have hfu : ∀ l ∈ ((f :: features).map String.toList).map Storage.bytewise,
        decide (l ≠ []) = true := by
      intro l hl
      obtain ⟨t, ht, rfl⟩ := List.mem_map.mp hl
      obtain ⟨g, hg, rfl⟩ := List.mem_map.mp ht
      exact decide_eq_true (bytewise_ne_nil (hne g hg))
    rw [List.splitOn_intercalate ',' hf (by simp), List.filter_eq_self.mpr hfu,
      List.map_map, List.map_map]
    rfl

end Fields

/-! ### Decoding -/

section Decode

variable {m : Manifest}

theorem names_eq (m : Manifest) : m.fields.map Prod.fst = manifestFields := rfl

theorem mem_manifestFields {f : String × String} (hf : f ∈ m.fields) : f.1 ∈ manifestFields :=
  m.names_eq ▸ List.mem_map_of_mem hf

theorem encode_eq (m : Manifest) : m.encode =
    sealBody ((manifestMagic.toList ::
      m.fields.map fun f => f.1.toList ++ '=' :: escape f.2).flatMap (· ++ ['\n'])) := by
  rw [encode, List.flatMap_cons, List.flatMap_map]
  simp only [List.append_assoc, List.cons_append, List.nil_append]

theorem lookup_of_mem {α : Type} {l : List (String × α)} (hn : (l.map Prod.fst).Nodup)
    {key : String} {value : α} (h : (key, value) ∈ l) : l.lookup key = some value := by
  induction l with
  | nil => cases h
  | cons f l ih =>
    obtain ⟨ho, hn⟩ := List.nodup_cons.mp hn
    rcases List.mem_cons.mp h with rfl | h
    · simp [List.lookup]
    · have hne : key ≠ f.1 := fun he => ho (he ▸ List.mem_map_of_mem h)
      rw [List.lookup, beq_false_of_ne hne]
      exact ih hn h

/-- The fields as they are read back. -/
def readBack (m : Manifest) : List (String × String) :=
  m.fields.map fun f => (f.1, bytewiseString f.2)

theorem nodup_names : manifestFields.Nodup := by decide

theorem required_readBack {key value : String} (h : (key, value) ∈ m.fields) :
    required m.readBack key = .ok (bytewiseString value) := by
  have hn : m.readBack.map Prod.fst = manifestFields := by
    rw [readBack, List.map_map]
    exact m.names_eq
  have hm : (key, bytewiseString value) ∈ m.readBack := List.mem_map.mpr ⟨_, h, rfl⟩
  rw [required, lookup_of_mem (hn ▸ nodup_names) hm]
  rfl

theorem parse_toString {max n : Nat} (h : n ≤ max) :
    parseRadix 10 max (bytewiseString (toString n)).toList = some n := by
  rw [bytewiseString_of_ascii (ascii_toString n), Nat.toString_eq_ofList_toDigits,
    String.toList_ofList]
  exact parseRadix_toDigits (by decide) (by decide) h

theorem number_readBack {parse : List Char → Option Nat} {key : String} {n : Nat}
    (h : (key, toString n) ∈ m.fields)
    (hp : parse (bytewiseString (toString n)).toList = some n) :
    number parse m.readBack key = .ok n := by
  rw [number, required_readBack h, ok_bind, hp]
  rfl

theorem readFields_encoded (m : Manifest) :
    readFields (corrupt "malformed field") (corrupt "duplicate field")
      (fun key value =>
        if String.ofList key ∉ manifestFields then
          .error (corrupt s!"unknown field {String.ofList key}")
        else (unescape value).elim (.error (corrupt "invalid escaping")) .ok)
      (m.fields.map fun f => f.1.toList ++ '=' :: escape f.2) [] = .ok m.readBack := by
  refine readFields_map (fun f hf => ?_) (fun f hf => ?_) [] (fun _ _ => rfl)
    (m.names_eq ▸ nodup_names)
  · exact (by decide : ∀ name ∈ manifestFields, '=' ∉ name.toList) f.1 (mem_manifestFields hf)
  · rw [String.ofList_toList, if_neg (not_not.mpr (mem_manifestFields hf)), unescape_escape]
    rfl

theorem lines_encoded (m : Manifest) : ∀ l ∈ manifestMagic.toList ::
    m.fields.map (fun f => f.1.toList ++ '=' :: escape f.2), '\n' ∉ l ∧ '\r' ∉ l := by
  refine List.forall_mem_cons.mpr ⟨by decide, fun l hl => ?_⟩
  obtain ⟨f, hf, rfl⟩ := List.mem_map.mp hl
  have hna := (by decide : ∀ name ∈ manifestFields, '\n' ∉ name.toList ∧ '\r' ∉ name.toList)
    f.1 (mem_manifestFields hf)
  obtain ⟨hn, hr, -⟩ := notMem_escape f.2
  simp only [List.mem_append, List.mem_cons, not_or]
  exact ⟨⟨hna.1, by decide, hn⟩, hna.2, by decide, hr⟩

/-- The state of an encoded manifest is read back. -/
theorem state_readBack {α : Type} (m : Manifest) (f : ManifestState → Except FormatError α) :
    (required m.readBack "state" >>= fun value => match value with
      | "clean" => .ok .clean >>= f
      | "dirty" => .ok .dirty >>= f
      | _ => .error (corrupt "invalid state") >>= f) = f m.state := by
  cases hs : m.state with
  | clean =>
    have hm : ("state", "clean") ∈ m.fields := by simp [fields, hs]
    rw [required_readBack hm]
    rfl
  | dirty =>
    have hm : ("state", "dirty") ∈ m.fields := by simp [fields, hs]
    rw [required_readBack hm]
    rfl

/-- The parent of an encoded manifest is read back: no number is spelled `none`. -/
theorem parent_readBack {α : Type} (h : m.WellFormed) (f : Option Nat → Except FormatError α) :
    (required m.readBack "parent_generation" >>= fun value => match value with
      | "none" => .ok none >>= f
      | value => match parseU64 value.toList with
        | none => .error (corrupt "invalid parent generation") >>= f
        | some parent => .ok (some parent) >>= f) = f m.parentGeneration := by
  cases hp : m.parentGeneration with
  | none =>
    have hm : ("parent_generation", "none") ∈ m.fields := by simp [fields, hp]
    rw [required_readBack hm]
    rfl
  | some parent =>
    have hm : ("parent_generation", toString parent) ∈ m.fields := by simp [fields, hp]
    have hpar : parseU64 (bytewiseString (toString parent)).toList = some parent :=
      parse_toString (Nat.le_pred_of_lt (h.parentGeneration parent hp))
    rw [required_readBack hm, ok_bind]
    split
    next hn =>
      rw [hn] at hpar
      cases hpar
    next =>
      rw [hpar]
      rfl

/-- What `decode` makes of an encoded manifest: the manifest byte by byte, if its features are in
order then. -/
theorem decode_encode (h : m.WellFormed) : decode m.encode =
    if (m.features.map bytewiseString).IsChain (· < ·) then .ok m.bytewise
    else .error (corrupt "features must be sorted and unique") := by
  have hv : number parseU32 m.readBack "manifest_version" = .ok Storage.manifestVersion := by
    rw [← h.version]
    refine number_readBack (by simp [fields]) (parse_toString ?_)
    rw [h.version]
    decide
  have hsc : number parseU32 m.readBack "schema_version" = .ok m.schemaVersion :=
    number_readBack (by simp [fields]) (parse_toString (Nat.le_pred_of_lt h.schemaVersion))
  have hg : number parseU64 m.readBack "generation" = .ok m.generation :=
    number_readBack (by simp [fields]) (parse_toString (Nat.le_pred_of_lt h.generation))
  have hf : required m.readBack "features" =
      .ok (bytewiseString (",".intercalate m.features)) := required_readBack (by simp [fields])
  have hnet : required m.readBack "network" = .ok (bytewiseString m.network) :=
    required_readBack (by simp [fields])
  have hge : required m.readBack "genesis" = .ok (bytewiseString m.genesis) :=
    required_readBack (by simp [fields])
  have hb : required m.readBack "backend" = .ok (bytewiseString m.backend) :=
    required_readBack (by simp [fields])
  have hfo : required m.readBack "backend_format" = .ok (bytewiseString m.backendFormat) :=
    required_readBack (by simp [fields])
  have hro : required m.readBack "state_root" = .ok (bytewiseString m.stateRoot) :=
    required_readBack (by simp [fields])
  have hl : ¬ m.readBack.length ≠ manifestFields.length := by
    rw [readBack, List.length_map, ← m.names_eq, List.length_map]
    exact fun h => h rfl
  rw [decode, encode_eq, unsealBody_sealBody, ok_bind, lines_flatMap m.lines_encoded]
  dsimp only
  rw [if_pos rfl, ok_bind, m.readFields_encoded, ok_bind, if_neg hl, hv, ok_bind,
    if_neg (lt_irrefl _), if_neg (fun h => h rfl)]
  refine (m.state_readBack _).trans ((parent_readBack h _).trans ?_)
  rw [hf, ok_bind, features_bytewise h.feature_ne h.feature_comma]
  by_cases hc : (m.features.map bytewiseString).IsChain (· < ·)
  · rw [if_neg (not_not.mpr hc), if_pos hc, hsc, ok_bind, hnet, ok_bind, hge, ok_bind, hb, ok_bind,
      hfo, ok_bind, hg, ok_bind, hro, ok_bind, ← h.version]
    rfl
  · rw [if_pos hc, if_neg hc]
    rfl

theorem parseRadix_le {radix max n : Nat} {text : List Char}
    (h : parseRadix radix max text = some n) : n ≤ max := by
  have hd : ∀ digits : List Char, (if digits = [] then (do
        none
        let values ← digits.mapM (digitValue radix)
        if values.foldl (fun acc d => acc * radix + d) 0 ≤ max then
          some (values.foldl (fun acc d => acc * radix + d) 0) else none)
      else do
        let values ← digits.mapM (digitValue radix)
        if values.foldl (fun acc d => acc * radix + d) 0 ≤ max then
          some (values.foldl (fun acc d => acc * radix + d) 0) else none) = some n → n ≤ max := by
    intro digits h
    split at h
    · cases h
    · obtain ⟨values, -, h⟩ := Option.bind_eq_some_iff.mp h
      split at h
      next hle =>
        cases h
        exact hle
      next => cases h
  unfold parseRadix at h
  split at h
  · exact hd _ h
  · exact hd _ h

theorem number_le {radix max n : Nat} {fields : List (String × String)} {key : String}
    (h : number (parseRadix radix max) fields key = .ok n) : n ≤ max := by
  obtain ⟨value, -, h⟩ := bind_eq_ok_iff.mp h
  cases hp : parseRadix radix max value.toList with
  | none =>
    rw [hp] at h
    cases h
  | some k =>
    rw [hp] at h
    cases h
    exact parseRadix_le hp

theorem feature_of_splitOn {text : List Char} {f : String}
    (h : f ∈ ((text.splitOn ',').filter (· ≠ [])).map String.ofList) :
    f.toList ≠ [] ∧ ',' ∉ f.toList := by
  have hf : ∀ text : List Char, ∀ l ∈ text.splitOn ',', ',' ∉ l := by
    intro text
    induction text with
    | nil => simp
    | cons c text ih =>
      rw [List.splitOn_cons_eq_if_modifyHead]
      split
      · exact List.forall_mem_cons.mpr ⟨by simp, ih⟩
      next hc =>
        obtain ⟨l, ls, hls⟩ := List.exists_cons_of_ne_nil (List.splitOn_ne_nil ',' text)
        rw [hls] at ih ⊢
        obtain ⟨hl, hr⟩ := List.forall_mem_cons.mp ih
        rw [List.modifyHead_cons]
        refine List.forall_mem_cons.mpr ⟨fun hm => ?_, hr⟩
        rcases List.mem_cons.mp hm with h | h
        · exact hc (beq_iff_eq.mpr h.symm)
        · exact hl h
  obtain ⟨l, hl, rfl⟩ := List.mem_map.mp h
  obtain ⟨hm, hne⟩ := List.mem_filter.mp hl
  rw [String.toList_ofList]
  exact ⟨of_decide_eq_true hne, hf text l hm⟩

theorem wellFormed_of_decode {bytes : Bytes} (h : decode bytes = .ok m) : m.WellFormed := by
  unfold decode at h
  obtain ⟨body, -, h⟩ := bind_eq_ok_iff.mp h
  -- each continuation gets a name, so that the checks come off one by one
  extract_lets -underBinder readRest at h
  have hr : ∃ rest, readRest rest = .ok m := by
    split at h
    · split at h
      · exact ⟨_, h⟩
      · cases h
    · cases h
  obtain ⟨rest, h⟩ := hr
  obtain ⟨fields, -, h⟩ := bind_eq_ok_iff.mp h
  extract_lets -underBinder readVersion at h
  have hve : readVersion () = .ok m := by
    split at h
    · cases h
    · exact h
  obtain ⟨version, hn, h⟩ := bind_eq_ok_iff.mp hve
  extract_lets -underBinder checkVersion at h
  have hc : checkVersion () = .ok m := by
    split at h
    · cases h
    · exact h
  unfold checkVersion at hc
  extract_lets -underBinder readState at hc
  obtain ⟨hcu, h⟩ : version = Storage.manifestVersion ∧ readState () = .ok m := by
    split at hc
    · cases hc
    next hv => exact ⟨not_not.mp hv, hc⟩
  obtain ⟨stateText, -, h⟩ := bind_eq_ok_iff.mp h
  extract_lets -underBinder readParent at h
  have hpa : ∃ state, readParent state = .ok m := by
    split at h
    · exact ⟨_, h⟩
    · exact ⟨_, h⟩
    · cases h
  obtain ⟨state, h⟩ := hpa
  obtain ⟨parentText, -, h⟩ := bind_eq_ok_iff.mp h
  extract_lets -underBinder readFeatures at h
  have hfe : ∃ parent, (∀ p, parent = some p → p < 2 ^ 64) ∧ readFeatures parent = .ok m := by
    split at h
    · exact ⟨none, fun p hp => (by cases hp), h⟩
    · split at h
      · cases h
      next p hp =>
        refine ⟨_, fun q hq => ?_, h⟩
        cases hq
        exact Nat.lt_succ_of_le (parseRadix_le hp)
  obtain ⟨parent, hb, h⟩ := hfe
  obtain ⟨featureText, -, h⟩ := bind_eq_ok_iff.mp h
  extract_lets -underBinder features readNumbers at h
  obtain ⟨hch, h⟩ : features.IsChain (· < ·) ∧ readNumbers () = .ok m := by
    split at h
    · cases h
    next hch => exact ⟨not_not.mp hch, h⟩
  simp only [readNumbers, bind_eq_ok_iff, Except.ok.injEq] at h
  obtain ⟨schemaVersion, hs, network, -, genesis, -, backend, -, backendFormat, -, generation,
    hg, stateRoot, -, rfl⟩ := h
  exact {
    version := hcu
    schemaVersion := Nat.lt_succ_of_le (number_le hs)
    generation := Nat.lt_succ_of_le (number_le hg)
    parentGeneration := hb
    sorted := hch
    feature_ne := fun f hf => (feature_of_splitOn hf).1
    feature_comma := fun f hf => (feature_of_splitOn hf).2 }

end Decode

/-- A well-formed manifest survives encoding iff its texts are ASCII, and so does a manifest that
was decoded. -/
theorem decode_encode_iff (m : Manifest) :
    (m.WellFormed → (decode m.encode = .ok m ↔ m.AsciiTexts)) ∧
      ∀ bytes : Bytes, decode bytes = .ok m → (decode m.encode = .ok m ↔ m.AsciiTexts) := by
  have hiff : m.WellFormed → (decode m.encode = .ok m ↔ m.AsciiTexts) := by
    intro h
    rw [decode_encode h, ← bytewise_eq_iff]
    constructor
    · intro hm
      split at hm
      · exact Except.ok.inj hm
      · cases hm
    · intro hm
      have hfeatures : m.features.map bytewiseString = m.features := congrArg features hm
      rw [hfeatures, if_pos h.sorted, hm]
  exact ⟨hiff, fun bytes hm => hiff (wellFormed_of_decode hm)⟩

/-- The manifest of a store of two features, in the middle of its seventh generation. -/
def dirtied : Manifest where
  manifestVersion := 1
  schemaVersion := 1
  network := "mainnet"
  genesis := ""
  backend := "rust=log"
  backendFormat := "1"
  features := ["market", "shielded"]
  generation := 7
  state := .dirty
  parentGeneration := some 6
  stateRoot := ""

theorem dirtied_roundTrip : decode dirtied.encode = .ok dirtied := by
  refine ((decode_encode_iff dirtied).1 ⟨rfl, by decide, by decide, ?_, by decide, by decide,
    by decide⟩).mpr (by simp [AsciiTexts, texts, dirtied, Ascii])
  intro parent hp
  cases hp
  decide

/-- A manifest of a network whose name has a character of two bytes. -/
def accented : Manifest where
  manifestVersion := 1
  schemaVersion := 1
  network := "réseau"
  genesis := ""
  backend := ""
  backendFormat := ""
  features := []
  generation := 0
  state := .clean
  parentGeneration := none
  stateRoot := ""

theorem accented_not_roundTrip : ¬ ∀ m : Manifest, m.WellFormed → decode m.encode = .ok m := by
  intro h
  have hformed : accented.WellFormed :=
    ⟨rfl, by decide, by decide, nofun, .nil, nofun, nofun⟩
  have hdecode := decode_encode hformed
  rw [h accented hformed] at hdecode
  have hbytewise : accented.bytewise = accented := by
    split at hdecode
    · exact (Except.ok.inj hdecode).symm
    · cases hdecode
  exact absurd (congrArg network hbytewise) (by decide)

end RustTron.Storage.Manifest
