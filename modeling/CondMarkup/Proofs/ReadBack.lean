import CondMarkup.Proofs.BatchRun
import CondMarkup.Proofs.CopyText
import CondMarkup.Proofs.Utf8

/-!
Reading back what was written. A printed text has no characters but those of the source text and the
few that made nodes print. A text that was read has no carriage return, so neither has the one that it
is expanded to; for this reason nothing is lost of it when its bytes are read again.
-/

namespace CondMarkup

/-- The characters that made nodes print beside those of their parts. -/
def punctuation : Text := "{}()<>/ ?:null".toList

/-- The characters of these edits: those of their text and of all replacements. -/
def Edits.DrawnFrom (edits : Edits) (s : Text) : Prop :=
  edits.text ⊆ s ∧ ∀ e ∈ edits.accepted, e.replacement ⊆ s

section Printing

variable {s text t : Text}

theorem window_subset {start stop : Int} : window text start stop ⊆ text :=
  List.Subset.trans (List.take_subset _ _) (List.drop_subset _ _)

namespace Edits

theorem DrawnFrom.replace {edits edits' : Edits} {start stop : Int} (hedits : edits.DrawnFrom s)
    (ht : t ⊆ s) (h : edits.replace start stop t = .ok edits') : edits'.DrawnFrom s := by
  obtain ⟨span, _, h⟩ := bind_eq_ok_iff.mp h
  dsimp only at h
  split at h
  · obtain ⟨_, hthrow, _⟩ := bind_eq_ok_iff.mp h
    cases hthrow
  · split at h
    · cases h
    · obtain rfl := pure_eq_ok_iff.mp h
      refine ⟨hedits.1, fun e he => ?_⟩
      rcases List.mem_append.mp he with he | he
      · exact hedits.2 e he
      · rw [List.mem_singleton.mp he]
        exact ht

theorem applyFrom_subset (htext : text ⊆ s) {edits : List Edit} {cursor : Int}
    (hedits : ∀ e ∈ edits, e.replacement ⊆ s) : applyFrom text cursor edits ⊆ s := by
  induction edits generalizing cursor with
  | nil => exact List.Subset.trans window_subset htext
  | cons e rest ih =>
    rw [applyFrom, List.append_subset, List.append_subset]
    exact ⟨⟨List.Subset.trans window_subset htext, hedits e List.mem_cons_self⟩,
      ih fun e' he' => hedits e' (List.mem_cons_of_mem e he')⟩

theorem DrawnFrom.apply_subset {edits : Edits} (h : edits.DrawnFrom s) : edits.apply ⊆ s :=
  applyFrom_subset h.1 fun e he => h.2 e (List.mem_mergeSort.mp he)

end Edits

/-- A made node prints the texts of its parts and characters of its own. -/
theorem printParts_subset {kind : Kind} {parts : List Text} (hown : punctuation ⊆ s)
    (hparts : ∀ part ∈ parts, part ⊆ s) (h : printParts kind parts = .ok t) : t ⊆ s := by
  have hchar : ∀ {own : Text}, own ⊆ punctuation → own ⊆ s := fun hp => List.Subset.trans hp hown
  have hflatten : parts.flatten ⊆ s := by
    intro c hc
    obtain ⟨part, hpart, hc⟩ := List.mem_flatten.mp hc
    exact hparts part hpart hc
  have hbetween : ∀ {before after : Char}, before ∈ punctuation → after ∈ punctuation →
      before :: parts.flatten ++ [after] ⊆ s := by
    intro before after hbefore hafter
    rw [List.append_subset, List.cons_subset]
    exact ⟨⟨hown hbefore, hflatten⟩, hchar (by simpa using hafter)⟩
  unfold printParts at h
  split at h
  · rw [← Except.ok.inj h]
    exact hbetween (by decide) (by decide)
  · rw [← Except.ok.inj h]
    exact hbetween (by decide) (by decide)
  · split at h
    · rename_i condition whenTrue whenFalse
      rw [← Except.ok.inj h]
      simp only [List.append_subset]
      exact ⟨⟨⟨⟨hparts _ (by simp), hchar (by decide)⟩, hparts _ (by simp)⟩, hchar (by decide)⟩,
        hparts _ (by simp)⟩
    · cases h
  · rw [← Except.ok.inj h]
    exact hchar (by decide)
  · rw [← Except.ok.inj h]
    exact hchar (by decide)
  · rw [← Except.ok.inj h]
    exact hchar (by decide)
  · rw [← Except.ok.inj h]
    exact hflatten

theorem editsOfCopy_drawnFrom {source : Node} {kids : List (Node × Except PrintError Text)}
    (hkids : ∀ kid ∈ kids, ∀ t, kid.2 = .ok t → t ⊆ s) {olds : List Node} {edits edits' : Edits}
    (hedits : edits.DrawnFrom s) (h : editsOfCopy source kids edits olds = .ok edits') :
    edits'.DrawnFrom s := by
  induction olds generalizing edits with
  | nil =>
    rw [editsOfCopy, Except.ok.injEq] at h
    exact h ▸ hedits
  | cons old rest ih =>
    rw [editsOfCopy] at h
    split at h
    · obtain ⟨edits₁, hdelete, h⟩ := bind_eq_ok_iff.mp h
      exact ih (hedits.replace (List.nil_subset s) (mapError_eq_ok_iff.mp hdelete)) h
    · rename_i new written hstand
      have hmem : (new, written) ∈ kids := List.mem_reverse.mp (List.mem_of_find?_eq_some hstand)
      split at h
      · exact ih hedits h
      · obtain ⟨t, ht, h⟩ := bind_eq_ok_iff.mp h
        obtain ⟨edits₁, hreplace, h⟩ := bind_eq_ok_iff.mp h
        exact ih (hedits.replace (hkids _ hmem t ht) (mapError_eq_ok_iff.mp hreplace)) h

/-- A node prints characters of the source text and of made nodes only. -/
theorem Node.print_subset (htext : text ⊆ s) (hown : punctuation ⊆ s) {n : Node} :
    ∀ {t : Text}, n.print text = .ok t → t ⊆ s := by
  induction n using treeInduction with
  | step n ih =>
    intro t h
    cases n with
    | mk i p o info cs =>
      have hkids : ∀ kid ∈ printAll text cs, ∀ t, kid.2 = .ok t → t ⊆ s := by
        intro kid hkid t ht
        rw [printAll_eq] at hkid
        obtain ⟨c, hc, rfl⟩ := List.mem_map.mp hkid
        exact ih c hc ht
      rw [print] at h
      split at h
      · obtain ⟨parts, hparts, h⟩ := bind_eq_ok_iff.mp h
        refine printParts_subset hown (fun part hpart => ?_) h
        obtain ⟨pairs, hfst, rfl, hall⟩ := exists_pairs_of_mapM hparts
        obtain ⟨pair, hpair, rfl⟩ := List.mem_map.mp hpart
        exact hkids pair.1 (hfst ▸ List.mem_map_of_mem hpair) _ (hall pair hpair)
      · split at h
        · rw [← Except.ok.inj h]
          exact List.Subset.trans window_subset htext
        · obtain ⟨edits, hedits, h⟩ := bind_eq_ok_iff.mp h
          rw [← pure_eq_ok_iff.mp h]
          refine (editsOfCopy_drawnFrom hkids ⟨?_, by simp⟩ hedits).apply_subset
          exact List.Subset.trans window_subset htext

end Printing

/-! ### Expanded files -/

/-- A file that was parsed is that of the given tree, with or without a warning. -/
theorem SourceFile.ofGrammar_of_parsed {name : String} {text : Text} {tree : GrammarTree}
    {file : SourceFile} (h : (parsed name text tree).outcome = .ok file) :
    ofGrammar name text tree = .ok file := by
  rw [parsed] at h
  split at h
  · obtain ⟨_, _, h⟩ := Journaled.outcome_bind_eq_ok_iff.mp h
    exact mapError_eq_ok_iff.mp h
  · exact mapError_eq_ok_iff.mp h

/-- An expanded text has no characters but those of the source text and of made nodes. -/
theorem transformText_subset {parse : SourceParser} {fileName marker : String} {text t : Text}
    (h : (transformText parse fileName text marker).outcome = .ok t) : t ⊆ text ++ punctuation := by
  rw [transformText, transformTree] at h
  obtain ⟨file, hfile, h⟩ := Journaled.outcome_bind_eq_ok_iff.mp h
  obtain ⟨expanded, hexpanded, h⟩ := Journaled.outcome_bind_eq_ok_iff.mp h
  have hprint : expanded.root.print expanded.text = .ok t := mapError_eq_ok_iff.mp h
  obtain ⟨changes, _, _, rfl⟩ :=
    SourceFile.outcome_expand_eq_ok_iff.mp (mapError_eq_ok_iff.mp hexpanded)
  rw [SourceFile.withRoot, SourceFile.text_of_ofGrammar (SourceFile.ofGrammar_of_parsed hfile)]
    at hprint
  exact Node.print_subset (List.subset_append_left _ _) (List.subset_append_right _ _) hprint

namespace FileTree

variable {tree : FileTree} {parse : SourceParser} {marker : String} {p : Path} {r : Expanded}
  {t : Text}

/-- An expanded text has no carriage return. -/
theorem not_mem_result (h : (tree.transformFile parse marker p).outcome = .ok r) : '\r' ∉ r.result := by
  obtain ⟨hread, hresult⟩ := transformFile_eq_ok_iff.mp h
  obtain ⟨_, raw, _, _, hunified⟩ := readText_eq_ok_iff.mp hread
  intro hmem
  rcases List.mem_append.mp (transformText_subset hresult hmem) with hsource | hown
  · rw [← hunified] at hsource
    exact not_mem_unifyLineEnds raw hsource
  · revert hown
    decide

/-- The bytes of a text without carriage returns are read as this text. -/
theorem readText_of_read (h : tree.read p = .ok (Utf8.encode t)) (ht : '\r' ∉ t) :
    tree.readText p = .ok t :=
  readText_eq_ok_iff.mpr ⟨_, t, h, Utf8.decode_encode t, unifyLineEnds_of_not_mem ht⟩

/-- The bytes of an expanded text are read as this text. -/
theorem readText_of_expanded {after : FileTree} {q : Path}
    (h : (tree.transformFile parse marker p).outcome = .ok r)
    (hread : after.read q = .ok (Utf8.encode r.result)) : after.readText q = .ok r.result :=
  readText_of_read hread (not_mem_result h)

end FileTree

end CondMarkup
