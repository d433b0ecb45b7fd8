import CondMarkup.Batch.Load
import CondMarkup.Proofs.FileTree
import Mathlib

/-!
Which files are configurations, whatever reads their documents. The rules are stated for the value of the
document in the file: it is nothing, or it is a mapping that has only the three known keys, each with a
value that is fit for it. A file that follows the rules is loaded as what it says, and any other should be
refused as a wrong configuration. That is so except in three cases: a file that is no text and a mapping
with an unknown key that is no text are refused for another reason, and a value that is empty or zero, but
not nothing, is taken for nothing.
-/

namespace CondMarkup

/-! ### The rules -/

/-- The patterns that what is under a key stands for: a text or a list of texts, or else the `fallback`
if there is nothing. -/
inductive StandsForPatterns (fallback : List String) : Option Value → List String → Prop
  | missing : StandsForPatterns fallback none fallback
  | null : StandsForPatterns fallback (some .null) fallback
  | text (s : String) : StandsForPatterns fallback (some (.text s)) [s]
  | list (texts : List String) :
      StandsForPatterns fallback (some (.list (texts.map .text))) texts

/-- The marker that what is under its key stands for. -/
inductive StandsForMarker : Option Value → String → Prop
  | missing : StandsForMarker none defaultMarker
  | text (s : String) (h : s ≠ "") : StandsForMarker (some (.text s)) s

/-- The mapping has no other keys than the known ones, and what is under them stands for the parts of the
configuration. -/
structure Describes (v : Value) (c : Config) : Prop where
  keys : ∀ k ∈ v.keys, ∃ name ∈ Config.knownKeys, k = .text name
  marker : StandsForMarker (v.get? "marker_module") c.marker
  included : StandsForPatterns ({} : Config).included (v.get? "include") c.included
  excluded : StandsForPatterns ({} : Config).excluded (v.get? "exclude") c.excluded

/-- The configuration that a document stands for. -/
inductive StandsForConfig : Value → Config → Prop
  | nothing : StandsForConfig .null {}
  | mapping {entries : List (Value × Value)} {c : Config} (h : Describes (.map entries) c) :
      StandsForConfig (.map entries) c

namespace FileTree

/-- The file of a configuration: the one that is named, or the one in the root of the project. -/
def configPath (root : Path) (named : Option Path) : Path :=
  named.getD (root.join { parts := [configFileName] })

/-- The file is a text, and the value is read from it. -/
def HoldsValue (tree : FileTree) (read : DocumentReader) (p : Path) (v : Value) : Prop :=
  ∃ t, tree.readText p = .ok t ∧ read t = .ok v

/-- By the rules, the project has the configuration. -/
inductive HasConfig (tree : FileTree) (read : DocumentReader) (root : Path) :
    Option Path → Config → Prop
  | absent (h : tree.isFile (configPath root none) = false) : HasConfig tree read root none {}
  | file {named : Option Path} {v : Value} {c : Config}
      (h : tree.HoldsValue read (configPath root named) v) (hv : StandsForConfig v c) :
      HasConfig tree read root named c

/-- Loading follows the rules: it yields the configuration that the project has, and if it has none, the
error says what is wrong with it. -/
def LoadsByRules (tree : FileTree) (read : DocumentReader) (root : Path) (named : Option Path) :
    Prop :=
  (∀ c, tree.loadConfig read root named = .ok c ↔ tree.HasConfig read root named c) ∧
    ∀ e, tree.loadConfig read root named = .error e → ∃ error, e = .config error

/-- The files for which loading does not follow the rules, with what it comes to. -/
inductive Irregular (tree : FileTree) (read : DocumentReader) (p : Path) :
    Except LoadError Config → Prop
  | notText {bytes : List UInt8} {e : Utf8.DecodeError} (hbytes : tree.read p = .ok bytes)
      (h : Utf8.decode bytes = .error e) : Irregular tree read p (.error (.decode e))
  | emptyValue {v : Value} (h : tree.HoldsValue read p v) (hnothing : v.isNothing = true)
      (hnull : v ≠ .null) (hmap : ∀ entries, v ≠ .map entries) : Irregular tree read p (.ok {})
  | unnamedKey {entries : List (Value × Value)} {k : Value}
      (h : tree.HoldsValue read p (.map entries)) (hk : k ∈ entries.map Prod.fst)
      (htext : k.text? = none) : Irregular tree read p (.error .keyNotText)

end FileTree

/-! ### Values -/

namespace Value

theorem sameKey_text_iff {k : Value} {s : String} : k.sameKey (.text s) = true ↔ k = .text s := by
  cases k <;> simp [sameKey, number?]

theorem text?_eq_some_iff {v : Value} {s : String} : v.text? = some s ↔ v = .text s := by
  cases v <;> simp [text?]

theorem mapM_text?_eq_some_iff {vs : List Value} {texts : List String} :
    vs.mapM text? = some texts ↔ vs = texts.map text := by
  induction vs generalizing texts with
  | nil =>
    rw [List.mapM_nil, eq_comm (a := []), List.map_eq_nil_iff, eq_comm (a := texts)]
    exact Option.some_inj
  | cons v rest ih =>
    rw [List.mapM_cons]
    constructor
    · intro h
      obtain ⟨s, hs, h⟩ := Option.bind_eq_some_iff.mp h
      obtain ⟨others, hothers, h⟩ := Option.bind_eq_some_iff.mp h
      rw [← Option.some.inj h, List.map_cons, text?_eq_some_iff.mp hs, ih.mp hothers]
    · intro h
      obtain ⟨s, others, rfl, rfl, hothers⟩ := List.map_eq_cons_iff.mp h.symm
      rw [ih.mpr hothers.symm]
      rfl

theorem mapM_text?_eq_none {vs : List Value} {v : Value} (hv : v ∈ vs) (h : v.text? = none) :
    vs.mapM text? = none := by
  rw [Option.eq_none_iff_forall_ne_some]
  intro texts htexts
  rw [mapM_text?_eq_some_iff.mp htexts] at hv
  obtain ⟨s, _, rfl⟩ := List.mem_map.mp hv
  cases h

theorem exists_mapM_text? {vs : List Value} (h : ∀ v ∈ vs, v.text? ≠ none) :
    ∃ texts, vs.mapM text? = some texts := by
  induction vs with
  | nil => exact ⟨[], rfl⟩
  | cons v rest ih =>
    obtain ⟨hv, hrest⟩ := List.forall_mem_cons.mp h
    obtain ⟨s, hs⟩ := Option.ne_none_iff_exists'.mp hv
    obtain ⟨texts, htexts⟩ := ih hrest
    exact ⟨s :: texts, by rw [List.mapM_cons, hs, htexts]; rfl⟩

end Value

namespace Config

variable {v : Value} {c : Config} {e : LoadError}

/-- A key that is no text is an unknown one that cannot be named. -/
theorem unknownKeys_eq_keyNotText {k : Value} (hk : k ∈ v.keys) (h : k.text? = none) :
    unknownKeys v = .error .keyNotText := by
  have hunknown : k ∈ v.keys.filter fun k => !knownKeys.any fun known => k.sameKey (.text known) := by
    rw [List.mem_filter]
    refine ⟨hk, ?_⟩
    rw [Bool.not_eq_true', List.any_eq_false]
    intro name _ hsame
    rw [Value.sameKey_text_iff.mp hsame] at h
    cases h
  rw [unknownKeys, Value.mapM_text?_eq_none hunknown h]

/-- If all keys are texts, the unknown ones are named. -/
theorem exists_unknownKeys (h : ∀ k ∈ v.keys, k.text? ≠ none) : ∃ keys, unknownKeys v = .ok keys := by
  have hunknown : ∀ k ∈ v.keys.filter fun k => !knownKeys.any fun known => k.sameKey (.text known),
      k.text? ≠ none := fun k hk => h k (List.mem_filter.mp hk).1
  obtain ⟨texts, htexts⟩ := Value.exists_mapM_text? hunknown
  exact ⟨texts.mergeSort textLe, by rw [unknownKeys, htexts]⟩

theorem unknownKeys_eq_nil_iff :
    unknownKeys v = .ok [] ↔ ∀ k ∈ v.keys, ∃ name ∈ knownKeys, k = .text name := by
  have hfilter : (v.keys.filter fun k => !knownKeys.any fun known => k.sameKey (.text known)) = [] ↔
      ∀ k ∈ v.keys, ∃ name ∈ knownKeys, k = .text name := by
    simp only [List.filter_eq_nil_iff, Bool.not_eq_true', Bool.not_eq_false, List.any_eq_true,
      Value.sameKey_text_iff]
  rw [← hfilter, unknownKeys]
  split
  · rename_i keys hkeys
    rw [Value.mapM_text?_eq_some_iff.mp hkeys, Except.ok.injEq, List.map_eq_nil_iff,
      ← List.length_eq_zero_iff, List.length_mergeSort, List.length_eq_zero_iff]
  · rename_i hnone
    refine iff_of_false (fun h => by cases h) fun hnil => ?_
    rw [hnil] at hnone
    cases hnone

theorem markerOf_eq_ok_iff {marker : String} :
    markerOf v = .ok marker ↔ StandsForMarker (v.get? "marker_module") marker := by
  rw [markerOf]
  constructor
  · intro h
    split at h
    · rename_i hnone
      rw [hnone, ← Except.ok.inj h]
      exact .missing
    · rename_i s hs
      split at h
      · cases h
      · rename_i hne
        rw [hs, ← Except.ok.inj h]
        exact .text s hne
    · cases h
  · intro h
    generalize v.get? "marker_module" = found at h
    cases h with
    | missing => rfl
    | text _ hne => simp only [if_neg hne]

theorem config_of_markerOf (h : markerOf v = .error e) : e = .config .badMarker := by
  rw [markerOf] at h
  split at h
  · cases h
  · split at h
    · exact (Except.error.inj h).symm
    · cases h
  · exact (Except.error.inj h).symm

theorem patternsOf_eq_ok_iff {key : String} {fallback patterns : List String} :
    patternsOf v key fallback = .ok patterns ↔
      StandsForPatterns fallback (v.get? key) patterns := by
  rw [patternsOf]
  constructor
  · intro h
    split at h
    · rename_i hnone
      rw [hnone, ← Except.ok.inj h]
      exact .missing
    · rename_i hnull
      rw [hnull, ← Except.ok.inj h]
      exact .null
    · rename_i s hs
      rw [hs, ← Except.ok.inj h]
      exact .text s
    · rename_i vs hvs
      split at h
      · rename_i texts htexts
        rw [hvs, Value.mapM_text?_eq_some_iff.mp htexts, ← Except.ok.inj h]
        exact .list texts
      · cases h
    · cases h
  · intro h
    generalize v.get? key = found at h
    cases h with
    | missing => rfl
    | null => rfl
    | text => rfl
    | list =>
      have htexts := Value.mapM_text?_eq_some_iff.mpr (Eq.refl (patterns.map Value.text))
      simp only [htexts]

theorem config_of_patternsOf {key : String} {fallback : List String}
    (h : patternsOf v key fallback = .error e) : e = .config (.badPatterns key) := by
  rw [patternsOf] at h
  split at h
  · cases h
  · cases h
  · cases h
  · split at h
    · cases h
    · exact (Except.error.inj h).symm
  · exact (Except.error.inj h).symm

/-- A mapping is accepted exactly if it describes a configuration, and as that one. -/
theorem ofMapping_eq_ok_iff : ofMapping v = .ok c ↔ Describes v c := by
  rw [ofMapping, bind_eq_ok_iff]
  constructor
  · rintro ⟨keys, hkeys, h⟩
    split at h
    · obtain ⟨marker, hmarker, h⟩ := bind_eq_ok_iff.mp h
      obtain ⟨included, hincluded, h⟩ := bind_eq_ok_iff.mp h
      obtain ⟨excluded, hexcluded, h⟩ := bind_eq_ok_iff.mp h
      rw [← pure_eq_ok_iff.mp h]
      exact ⟨unknownKeys_eq_nil_iff.mp hkeys, markerOf_eq_ok_iff.mp hmarker,
        patternsOf_eq_ok_iff.mp hincluded, patternsOf_eq_ok_iff.mp hexcluded⟩
    · cases h
  · rintro ⟨hkeys, hmarker, hincluded, hexcluded⟩
    refine ⟨[], unknownKeys_eq_nil_iff.mpr hkeys, ?_⟩
    simp only [markerOf_eq_ok_iff.mpr hmarker, patternsOf_eq_ok_iff.mpr hincluded,
      patternsOf_eq_ok_iff.mpr hexcluded]
    rfl

theorem ofMapping_eq_keyNotText {k : Value} (hk : k ∈ v.keys) (h : k.text? = none) :
    ofMapping v = .error .keyNotText := by
  rw [ofMapping, unknownKeys_eq_keyNotText hk h]
  rfl

/-- A mapping whose keys are texts is refused only as a wrong configuration. -/
theorem config_of_ofMapping (hkeys : ∀ k ∈ v.keys, k.text? ≠ none) (h : ofMapping v = .error e) :
    ∃ error, e = .config error := by
  obtain ⟨keys, hknown⟩ := exists_unknownKeys hkeys
  rw [ofMapping, bind_eq_error_iff, hknown] at h
  rcases h with h | ⟨_, hkeys', h⟩
  · cases h
  · obtain rfl := Except.ok.inj hkeys'
    split at h
    · rcases bind_eq_error_iff.mp h with h | ⟨_, _, h⟩
      · exact ⟨_, config_of_markerOf h⟩
      rcases bind_eq_error_iff.mp h with h | ⟨_, _, h⟩
      · exact ⟨_, config_of_patternsOf h⟩
      rcases bind_eq_error_iff.mp h with h | ⟨_, _, h⟩
      · exact ⟨_, config_of_patternsOf h⟩
      · cases h
    · exact ⟨_, (Except.error.inj h).symm⟩

/-- The configuration in a document. -/
def ofDocument (path : String) (v : Value) : Except LoadError Config :=
  if v.isNothing then .ok {}
  else match v with
    | .map _ => ofMapping v
    | _ => .error (.config (.notMapping path))

theorem ofText_of_read {read : DocumentReader} {path : String} {t : Text} (h : read t = .ok v) :
    ofText read path t = ofDocument path v := by
  simp only [ofText, h]
  rfl

/-- The shortcut for an empty mapping changes nothing. -/
theorem ofDocument_map (path : String) (entries : List (Value × Value)) :
    ofDocument path (.map entries) = ofMapping (.map entries) := by
  cases entries with
  | nil =>
    have hempty : Describes (.map []) {} :=
      ⟨fun _ h => absurd h List.not_mem_nil, .missing, .missing, .missing⟩
    exact (ofMapping_eq_ok_iff.mpr hempty).symm
  | cons => rfl

/-- Besides mappings, only what counts as nothing is accepted. -/
theorem ofDocument_of_not_map {path : String} (h : ∀ entries, v ≠ .map entries) :
    ofDocument path v =
      if v.isNothing then .ok {} else .error (.config (.notMapping path)) := by
  cases v with
  | map entries => exact absurd rfl (h entries)
  | _ => rfl

/-- A document that counts as nothing only if it is empty is accepted by the rules. -/
theorem ofDocument_eq_ok_iff {path : String}
    (h : v.isNothing = true → v ≠ .null → ∃ entries, v = .map entries) :
    ofDocument path v = .ok c ↔ StandsForConfig v c := by
  by_cases hmap : ∃ entries, v = .map entries
  · obtain ⟨entries, rfl⟩ := hmap
    rw [ofDocument_map, ofMapping_eq_ok_iff]
    refine ⟨.mapping, fun hv => ?_⟩
    cases hv with
    | mapping hdescribes => exact hdescribes
  rw [ofDocument_of_not_map fun entries hv => hmap ⟨entries, hv⟩]
  by_cases hnull : v = .null
  · subst hnull
    rw [if_pos (show Value.null.isNothing = true from rfl), Except.ok.injEq]
    refine ⟨fun hc => hc ▸ .nothing, fun hv => ?_⟩
    cases hv
    rfl
  · rw [if_neg fun hnothing => hmap (h hnothing hnull)]
    refine iff_of_false (fun hok => by cases hok) fun hv => ?_
    cases hv with
    | nothing => exact hnull rfl
    | mapping => exact hmap ⟨_, rfl⟩

/-- A document is refused as a wrong configuration, unless it has a key that is no text. -/
theorem config_of_ofDocument {path : String} (hkeys : ∀ k ∈ v.keys, k.text? ≠ none)
    (h : ofDocument path v = .error e) : ∃ error, e = .config error := by
  by_cases hmap : ∃ entries, v = .map entries
  · obtain ⟨entries, rfl⟩ := hmap
    rw [ofDocument_map] at h
    exact config_of_ofMapping hkeys h
  · rw [ofDocument_of_not_map fun entries hv => hmap ⟨entries, hv⟩] at h
    split at h
    · cases h
    · exact ⟨_, (Except.error.inj h).symm⟩

end Config

/-! ### Loading -/

namespace FileTree

variable {tree : FileTree} {read : DocumentReader} {root : Path} {named : Option Path}

/-- The configuration is read from its file, if there is one. -/
theorem loadConfig_of_isFile (h : tree.isFile (configPath root named) = true) :
    tree.loadConfig read root named = tree.configAt read (configPath root named) := by
  cases named with
  | none => rfl
  | some p => exact if_pos h

theorem loadConfig_of_not_isFile (h : tree.isFile (configPath root named) = false) :
    tree.loadConfig read root named = match named with
      | none => .ok {}
      | some p => .error (.config (.fileNotFound p.text)) := by
  cases named with
  | none => exact if_neg (by rw [configPath, Option.getD_none] at h; rw [h]; simp)
  | some p => exact if_neg (by rw [configPath, Option.getD_some] at h; rw [h]; simp)

theorem HoldsValue.isFile {p : Path} {v : Value} (h : tree.HoldsValue read p v) :
    tree.isFile p = true := by
  obtain ⟨t, ht, _⟩ := h
  obtain ⟨_, _, hread, _⟩ := readText_eq_ok_iff.mp ht
  exact isFile_of_read hread

theorem HoldsValue.unique {p : Path} {v w : Value} (hv : tree.HoldsValue read p v)
    (hw : tree.HoldsValue read p w) : v = w := by
  obtain ⟨t, ht, hv⟩ := hv
  obtain ⟨u, hu, hw⟩ := hw
  obtain rfl := Except.ok.inj (ht.symm.trans hu)
  exact Except.ok.inj (hv.symm.trans hw)

/-- What is loaded from a file of which the document is known. -/
theorem loadConfig_of_holdsValue {v : Value} (h : tree.HoldsValue read (configPath root named) v) :
    tree.loadConfig read root named = Config.ofDocument (configPath root named).text v := by
  have hfile := h.isFile
  obtain ⟨t, ht, hv⟩ := h
  rw [loadConfig_of_isFile hfile, configAt, if_pos hfile, ht]
  exact Config.ofText_of_read hv

theorem readText_of_decode_error {p : Path} {bytes : List UInt8} {e : Utf8.DecodeError}
    (hread : tree.read p = .ok bytes) (h : Utf8.decode bytes = .error e) :
    tree.readText p = .error (.decode e) := by
  rw [readText, hread]
  exact congrArg (fun x : Except Utf8.DecodeError Text => do
    return unifyLineEnds (← x.mapError ReadError.decode)) h

theorem loadConfig_of_irregular {outcome : Except LoadError Config}
    (h : tree.Irregular read (configPath root named) outcome) :
    tree.loadConfig read root named = outcome := by
  cases h with
  | notText hbytes h =>
    have hfile := isFile_of_read hbytes
    rw [loadConfig_of_isFile hfile, configAt, if_pos hfile, readText_of_decode_error hbytes h]
  | emptyValue h hnothing _ hmap =>
    rw [loadConfig_of_holdsValue h, Config.ofDocument_of_not_map hmap, if_pos hnothing]
  | unnamedKey h hk htext =>
    rw [loadConfig_of_holdsValue h, Config.ofDocument_map]
    exact Config.ofMapping_eq_keyNotText hk htext

/-- By the rules, a project whose configuration file holds a value has what the value stands for. -/
theorem hasConfig_iff_of_holdsValue {v : Value} {c : Config}
    (h : tree.HoldsValue read (configPath root named) v) :
    tree.HasConfig read root named c ↔ StandsForConfig v c := by
  refine ⟨fun hc => ?_, .file h⟩
  cases hc with
  | absent habsent =>
    rw [h.isFile] at habsent
    cases habsent
  | file hw hc => exact h.unique hw ▸ hc

theorem exists_holdsValue {c : Config} (h : tree.HasConfig read root named c)
    (hfile : tree.isFile (configPath root named) = true) :
    ∃ v, tree.HoldsValue read (configPath root named) v ∧ StandsForConfig v c := by
  cases h with
  | absent habsent =>
    rw [hfile] at habsent
    cases habsent
  | file hv hc => exact ⟨_, hv, hc⟩

/-- Where loading follows the rules, the file is not one of the irregular ones. -/
theorem LoadsByRules.not_irregular (h : tree.LoadsByRules read root named)
    {outcome : Except LoadError Config} : ¬ tree.Irregular read (configPath root named) outcome := by
  intro hirregular
  have hload := loadConfig_of_irregular hirregular
  cases hirregular with
  | notText =>
    obtain ⟨_, herror⟩ := h.2 _ hload
    cases herror
  | emptyValue hv _ hnull hmap =>
    have hstands := (hasConfig_iff_of_holdsValue hv).mp ((h.1 {}).mp hload)
    cases hstands with
    | nothing => exact hnull rfl
    | mapping => exact hmap _ rfl
  | unnamedKey =>
    obtain ⟨_, herror⟩ := h.2 _ hload
    cases herror

/-- Loading follows the rules if there is no file. -/
theorem loadsByRules_of_not_isFile (h : tree.isFile (configPath root named) = false) :
    tree.LoadsByRules read root named := by
  have hload : tree.loadConfig read root named = _ := loadConfig_of_not_isFile h
  have hnoValue : ∀ v, ¬ tree.HoldsValue read (configPath root named) v := fun v hv => by
    rw [hv.isFile] at h
    cases h
  cases named with
  | none =>
    refine ⟨fun c => ⟨fun hc => ?_, fun hc => ?_⟩, fun e he => ?_⟩
    · rw [← Except.ok.inj (hload.symm.trans hc)]
      exact .absent h
    · cases hc with
      | absent => exact hload
      | file hv => exact absurd hv (hnoValue _)
    · cases hload.symm.trans he
  | some p =>
    refine ⟨fun c => ⟨fun hc => ?_, fun hc => ?_⟩, fun e he => ?_⟩
    · cases hload.symm.trans hc
    · cases hc with
      | file hv => exact absurd hv (hnoValue _)
    · exact ⟨_, (Except.error.inj (hload.symm.trans he)).symm⟩

/-- Loading follows the rules if the document is malformed. -/
theorem loadsByRules_of_malformed {t : Text} {report : String}
    (hfile : tree.isFile (configPath root named) = true)
    (ht : tree.readText (configPath root named) = .ok t) (h : read t = .error (.malformed report)) :
    tree.LoadsByRules read root named := by
  have hload : tree.loadConfig read root named =
      .error (.config (.malformed (configPath root named).text report)) := by
    rw [loadConfig_of_isFile hfile, configAt, if_pos hfile, ht]
    simp only [Config.ofText, h]
  refine ⟨fun c => ⟨fun hc => ?_, fun hc => ?_⟩, fun e he => ?_⟩
  · cases hload.symm.trans hc
  · obtain ⟨_, ⟨u, hu, hv⟩, _⟩ := exists_holdsValue hc hfile
    obtain rfl := Except.ok.inj (ht.symm.trans hu)
    cases h.symm.trans hv
  · exact ⟨_, (Except.error.inj (hload.symm.trans he)).symm⟩

/-- Loading follows the rules if the file is regular and holds a value. -/
theorem loadsByRules_of_holdsValue {v : Value} (hv : tree.HoldsValue read (configPath root named) v)
    (hregular : ∀ outcome, ¬ tree.Irregular read (configPath root named) outcome) :
    tree.LoadsByRules read root named := by
  have hload := loadConfig_of_holdsValue hv
  constructor
  · intro c
    rw [hload, hasConfig_iff_of_holdsValue hv]
    apply Config.ofDocument_eq_ok_iff
    intro hnothing hnull
    by_contra hmap
    exact hregular _ (.emptyValue hv hnothing hnull fun entries h => hmap ⟨entries, h⟩)
  · intro e he
    rw [hload] at he
    refine Config.config_of_ofDocument (fun k hk htext => ?_) he
    cases v with
    | map entries => exact hregular _ (.unnamedKey hv hk htext)
    | _ => exact absurd hk List.not_mem_nil

/-- Loading a configuration follows the rules exactly if its file is not one of the irregular ones, for
every reader that comes to a value or finds the document malformed; and it is said what an irregular file
is taken for. -/
theorem loadsByRules_iff (hread : ∀ t fault, tree.readText (configPath root named) = .ok t →
      read t = .error fault → ∃ report, fault = .malformed report) :
    (tree.LoadsByRules read root named ↔
      ∀ outcome, ¬ tree.Irregular read (configPath root named) outcome) ∧
    ∀ outcome, tree.Irregular read (configPath root named) outcome →
      tree.loadConfig read root named = outcome := by
  refine ⟨⟨fun h outcome => h.not_irregular, fun hregular => ?_⟩, fun _ => loadConfig_of_irregular⟩
  cases hfile : tree.isFile (configPath root named) with
  | false => exact loadsByRules_of_not_isFile hfile
  | true =>
    obtain ⟨bytes, hfind⟩ := isFile_iff.mp hfile
    have hbytes := read_eq_ok_iff.mpr hfind
    cases hdecode : Utf8.decode bytes with
    | error e => exact absurd (.notText hbytes hdecode) (hregular _)
    | ok raw =>
      have ht := readText_eq_ok_iff.mpr ⟨bytes, raw, hbytes, hdecode, rfl⟩
      cases hv : read (unifyLineEnds raw) with
      | error fault =>
        obtain ⟨report, rfl⟩ := hread _ fault ht hv
        exact loadsByRules_of_malformed hfile ht hv
      | ok v => exact loadsByRules_of_holdsValue ⟨_, ht, hv⟩ hregular

end FileTree

namespace ConfigFolder

/-- A project with nothing in it but a configuration file. -/
def tree (bytes : List UInt8) : FileTree := { entries := [([configFileName], .file bytes)] }

/-- The configuration file is in the working directory. -/
def root : Path := { parts := [] }

/-- With a file that names the marker. -/
def namesMarker : FileTree := tree (Utf8.encode "marker_module: m".toList)

/-- With a file whose only key is a number. -/
def numberedKey : FileTree := tree (Utf8.encode "1: a".toList)

/-- With a file that holds a list of nothing. -/
def emptyList : FileTree := tree (Utf8.encode "[]".toList)

/-- With a byte that is in no text. -/
def strayByte : FileTree := tree [0xFF]

/-- A reader that knows the documents of these files. -/
def read : DocumentReader := fun t =>
  if t = "marker_module: m".toList then .ok (.map [(.text "marker_module", .text "m")])
  else if t = "1: a".toList then .ok (.map [(.int 1, .text "a")])
  else if t = "[]".toList then .ok (.list [])
  else .error (.malformed "")

end ConfigFolder

namespace FileTree

open ConfigFolder

/-- Loading follows the rules for the file that names the marker. -/
theorem loadsByRules_namesMarker :
    (namesMarker.LoadsByRules ConfigFolder.read root none ↔
      ∀ outcome, ¬ namesMarker.Irregular ConfigFolder.read (configPath root none) outcome) ∧
    namesMarker.LoadsByRules ConfigFolder.read root none ∧
    namesMarker.loadConfig ConfigFolder.read root none = .ok { marker := "m" } := by
  have htext : namesMarker.readText (configPath root none) = .ok "marker_module: m".toList := by cbv
  have hvalue : ConfigFolder.read "marker_module: m".toList =
      .ok (.map [(.text "marker_module", .text "m")]) := rfl
  have hload : namesMarker.loadConfig ConfigFolder.read root none = .ok { marker := "m" } :=
    (loadConfig_of_holdsValue ⟨_, htext, hvalue⟩).trans (by cbv)
  obtain ⟨hiff, hirregular⟩ :=
    @loadsByRules_iff namesMarker ConfigFolder.read root none fun t fault ht hfault => by
      obtain rfl := Except.ok.inj (htext.symm.trans ht)
      cases hvalue.symm.trans hfault
  refine ⟨hiff, hiff.mpr fun outcome h => ?_, hload⟩
  have houtcome := hload.symm.trans (hirregular _ h)
  cases h with
  | notText => cases houtcome
  | emptyValue => exact absurd (Except.ok.inj houtcome) (by decide)
  | unnamedKey => cases houtcome

/-- The key that is a number and the stray byte are not refused as wrong configurations, and the list is
not refused at all. -/
theorem not_loadsByRules_configFolder :
    (numberedKey.loadConfig ConfigFolder.read root none = .error .keyNotText ∧
      ¬ numberedKey.LoadsByRules ConfigFolder.read root none) ∧
    (emptyList.loadConfig ConfigFolder.read root none = .ok {} ∧
      ¬ emptyList.LoadsByRules ConfigFolder.read root none) ∧
    (strayByte.loadConfig ConfigFolder.read root none = .error (.decode ⟨.start, 0xFF, 0, 1⟩) ∧
      ¬ strayByte.LoadsByRules ConfigFolder.read root none) := by
  have hkey : numberedKey.HoldsValue ConfigFolder.read (configPath root none)
      (.map [(.int 1, .text "a")]) := ⟨"1: a".toList, by cbv, rfl⟩
  have hnumber : numberedKey.loadConfig ConfigFolder.read root none = .error .keyNotText :=
    (loadConfig_of_holdsValue hkey).trans (by cbv)
  have hbyte : strayByte.loadConfig ConfigFolder.read root none =
      .error (.decode ⟨.start, 0xFF, 0, 1⟩) := by cbv
  have hvalue : emptyList.HoldsValue ConfigFolder.read (configPath root none) (.list []) :=
    ⟨"[]".toList, by cbv, rfl⟩
  have hlist : emptyList.loadConfig ConfigFolder.read root none = .ok {} :=
    loadConfig_of_holdsValue hvalue
  refine ⟨⟨hnumber, fun h => ?_⟩, ⟨hlist, fun h => ?_⟩, ⟨hbyte, fun h => ?_⟩⟩
  · obtain ⟨_, herror⟩ := h.2 _ hnumber
    cases herror
  · cases (hasConfig_iff_of_holdsValue hvalue).mp ((h.1 {}).mp hlist)
  · obtain ⟨_, herror⟩ := h.2 _ hbyte
    cases herror

end FileTree

end CondMarkup
