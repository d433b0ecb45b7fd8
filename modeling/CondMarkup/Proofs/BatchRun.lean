import CondMarkup.Batch.Run
import CondMarkup.Proofs.Conversion
import CondMarkup.Proofs.FileTree
import CondMarkup.Proofs.Success
import Mathlib

/-!
A run over a list of files, whatever the parser. What becomes of a file is read off the tree that the
run starts with, as long as no file before it is written to its place; then the outcomes of the run are
those of the files, one after another, and a file that was written stays written unless a later one goes
to the same place.
-/

namespace CondMarkup

namespace FileTree

/-- What becomes of one file, if it does not end the run. -/
def outcomeOf (tree : FileTree) (parse : SourceParser) (marker : String) (p : Path) :
    Except RunError FileOutcome :=
  match (tree.transformFile parse marker p).outcome with
  | .ok r => .ok ⟨p, .ok r.changed⟩
  | .error (.ok f) => .ok ⟨p, .error f⟩
  | .error (.error e) => .error e

/-- Where an expanded file is written. -/
def target? (tree : FileTree) (base : Path) (d : Destination) (p : Path) (r : Expanded) :
    Option Path :=
  match d with
  | .nowhere => none
  | .inPlace => if r.changed then some p else none
  | .below directory => some (tree.destination base directory p)

/-- The place that is written to for a file, if there is one. -/
def writtenFor (tree : FileTree) (parse : SourceParser) (marker : String) (base : Path)
    (d : Destination) (p : Path) : Set Location :=
  {l | ∃ r, (tree.transformFile parse marker p).outcome = .ok r ∧
    ∃ target, tree.target? base d p r = some target ∧ l = tree.place target}

/-- The bytes are the text that one of the files is expanded to, and the place is written to for it. -/
def IsWrittenTo (tree : FileTree) (parse : SourceParser) (marker : String) (base : Path)
    (d : Destination) (files : List Path) (l : Location) (bytes : List UInt8) : Prop :=
  ∃ p ∈ files, ∃ r, (tree.transformFile parse marker p).outcome = .ok r ∧
    bytes = Utf8.encode r.result ∧
      ∃ target, tree.target? base d p r = some target ∧ l = tree.place target

/-- The places where directories may be made. -/
def madeFor (tree : FileTree) (d : Destination) : Set Location :=
  {l | (∃ directory, d = .below directory) ∧ l ∈ tree.missing}

/-- The places that a run may change. -/
def touched (tree : FileTree) (parse : SourceParser) (marker : String) (base : Path)
    (d : Destination) (files : List Path) : Set Location :=
  {l | ∃ p ∈ files, l ∈ tree.writtenFor parse marker base d p} ∪ tree.madeFor d

/-- The files are there, and none is written to the place of one that comes after it. -/
structure Apart (tree : FileTree) (parse : SourceParser) (marker : String) (base : Path)
    (d : Destination) (files : List Path) : Prop where
  areFiles : ∀ p ∈ files, tree.isFile p = true
  apart : files.Pairwise fun p q => tree.place q ∉ tree.writtenFor parse marker base d p
  start : (∃ directory, d = .below directory) → tree.StartsAtPlace

variable {S : Set Location} {tree before after : FileTree} {parse : SourceParser} {marker : String}
  {base p : Path} {d : Destination} {r : Expanded}

theorem transformFile_congr (h : after.readText p = before.readText p) :
    after.transformFile parse marker p = before.transformFile parse marker p := by
  rw [transformFile, transformFile, h]

/-- A file is expanded if it can be read and its text can be expanded. -/
theorem transformFile_eq_ok_iff : (tree.transformFile parse marker p).outcome = .ok r ↔
    tree.readText p = .ok r.source ∧
      (transformText parse p.text r.source marker).outcome = .ok r.result := by
  rw [transformFile]
  cases tree.readText p with
  | error e => exact ⟨nofun, nofun⟩
  | ok source =>
    simp only [Journaled.outcome_bind_eq_ok_iff, Journaled.outcome_pure_eq_ok_iff, Except.ok.injEq]
    constructor
    · rintro ⟨result, hresult, rfl⟩
      exact ⟨rfl, mapError_eq_ok_iff.mp hresult⟩
    · rintro ⟨rfl, hresult⟩
      exact ⟨r.result, mapError_eq_ok_iff.mpr hresult, rfl⟩

theorem outcomeOf_congr (h : after.transformFile parse marker p = before.transformFile parse marker p) :
    after.outcomeOf parse marker p = before.outcomeOf parse marker p := by
  rw [outcomeOf, outcomeOf, h]

theorem place_not_mem_madeFor (h : tree.isFile p = true) : tree.place p ∉ tree.madeFor d := by
  rintro ⟨_, hmissing⟩
  obtain ⟨bytes, hentry⟩ := entryAt?_of_isFile h
  rw [missing, Set.mem_ofPred_eq, hentry] at hmissing
  cases hmissing

namespace ChangedAt

theorem madeFor_subset (h : ChangedAt S before after) : after.madeFor d ⊆ before.madeFor d :=
  fun _ hl => ⟨hl.1, h.missing_subset hl.2⟩

variable (h : ChangedAt S before after)
include h

theorem destination {directory : Path} :
    after.destination base directory p = before.destination base directory p := by
  rw [FileTree.destination, FileTree.destination, h.resolve, h.resolve]

theorem target? : after.target? base d p r = before.target? base d p r := by
  cases d with
  | nowhere => rfl
  | inPlace => rfl
  | below directory => rw [FileTree.target?, FileTree.target?, h.destination]

theorem transformFile (hfile : before.isFile p = true) (hp : before.place p ∉ S) :
    after.transformFile parse marker p = before.transformFile parse marker p :=
  transformFile_congr (h.readText hfile hp)

theorem writtenFor (hp : after.transformFile parse marker p = before.transformFile parse marker p) :
    after.writtenFor parse marker base d p = before.writtenFor parse marker base d p := by
  ext l
  simp only [FileTree.writtenFor, Set.mem_ofPred_eq, hp, h.target?, h.place]

end ChangedAt

/-- What is left of the files after the first is written is expanded as before. -/
theorem Apart.tail {rest : List Path} (h : Apart before parse marker base d (p :: rest))
    (hchanged : ChangedAt (before.touched parse marker base d [p]) before after) :
    Apart after parse marker base d rest ∧
      ∀ q ∈ rest, after.transformFile parse marker q = before.transformFile parse marker q := by
  obtain ⟨hfirst, hrest⟩ := List.pairwise_cons.mp h.apart
  have hfile : ∀ q ∈ rest, before.isFile q = true := fun q hq => h.areFiles q (List.mem_cons_of_mem p hq)
  have hsame : ∀ q ∈ rest, after.transformFile parse marker q = before.transformFile parse marker q := by
    intro q hq
    refine hchanged.transformFile (hfile q hq) ?_
    rintro (⟨p', hp', hl⟩ | hl)
    · rw [List.mem_singleton] at hp'
      exact hfirst q hq (hp' ▸ hl)
    · exact place_not_mem_madeFor (hfile q hq) hl
  refine ⟨⟨fun q hq => hchanged.isFile (hfile q hq), ?_, fun hd => hchanged.startsAtPlace (h.start hd)⟩,
    hsame⟩
  refine List.Pairwise.imp_of_mem (fun {q q'} hq _ hapart => ?_) hrest
  rw [hchanged.place, hchanged.writtenFor (hsame q hq)]
  exact hapart

/-- What is written for one of the files that are left was to be written for it before. -/
theorem IsWrittenTo.cons {rest : List Path} {l : Location} {bytes : List UInt8}
    (h : after.IsWrittenTo parse marker base d rest l bytes) (hchanged : ChangedAt S before after)
    (hsame : ∀ q ∈ rest, after.transformFile parse marker q = before.transformFile parse marker q) :
    before.IsWrittenTo parse marker base d (p :: rest) l bytes := by
  obtain ⟨q, hq, r, hr, hbytes, target, htarget, hl⟩ := h
  rw [hsame q hq] at hr
  rw [hchanged.target?] at htarget
  rw [hchanged.place] at hl
  exact ⟨q, List.mem_cons_of_mem p hq, r, hr, hbytes, target, htarget, hl⟩

/-- What an expanded file is written to holds its text, and nothing else is written to. -/
theorem changedAt_of_deliver (hfile : tree.isFile p = true)
    (hstart : (∃ directory, d = .below directory) → tree.StartsAtPlace)
    (h : tree.deliver base d p r = .ok after) :
    ChangedAt ({l | ∃ target, tree.target? base d p r = some target ∧ l = tree.place target} ∪
        tree.madeFor d) tree after ∧
      ∀ target, tree.target? base d p r = some target →
        after.read target = .ok (Utf8.encode r.result) := by
  cases d with
  | nowhere => exact ⟨Except.ok.inj h ▸ changedAt_self, nofun⟩
  | inPlace =>
    rw [deliver] at h
    split at h
    · rename_i hchanged
      obtain ⟨hat, hread⟩ := changedAt_of_write (Or.inr hfile) h
      have htarget : tree.target? base .inPlace p r = some p := if_pos hchanged
      rw [htarget]
      refine ⟨hat.mono fun l hl => Or.inl ⟨p, rfl, hl⟩, fun target h => ?_⟩
      rw [← Option.some.inj h, hread]
    · rename_i hchanged
      have htarget : tree.target? base .inPlace p r = none := if_neg hchanged
      rw [htarget]
      exact ⟨Except.ok.inj h ▸ changedAt_self, nofun⟩
  | below directory =>
    have hbelow : ∃ directory', Destination.below directory = .below directory' := ⟨directory, rfl⟩
    obtain ⟨middle, hmade, hwrite⟩ := bind_eq_ok_iff.mp h
    have hmiddle := changedAt_of_makeDirectories hmade
    obtain ⟨hat, hread⟩ :=
      changedAt_of_write (Or.inl (hmiddle.startsAtPlace (hstart hbelow))) hwrite
    rw [hmiddle.place] at hat
    constructor
    · refine (hmiddle.mono ?_).trans (hat.mono ?_)
      · exact fun l hl => Or.inr ⟨hbelow, hl⟩
      · exact fun l hl => Or.inl ⟨_, rfl, hl⟩
    · intro target htarget
      rw [← Option.some.inj htarget, hread]

/-- Only below a directory can it be impossible to write. -/
theorem exists_deliver (hfile : tree.isFile p = true) (hd : ∀ directory, d ≠ .below directory) :
    ∃ after, tree.deliver base d p r = .ok after := by
  cases d with
  | nowhere => exact ⟨tree, rfl⟩
  | inPlace =>
    rw [deliver]
    split
    · exact exists_write_of_isFile hfile _
    · exact ⟨tree, rfl⟩
  | below directory => exact absurd rfl (hd directory)

end FileTree

/-! ### Runs -/

/-- The run from one state to another over the files: the outcomes are those of the files in the tree
that it starts with, and where a file was written, its text is found or that of another one that was
written to the same place. -/
structure Ran (parse : SourceParser) (marker : String) (base : Path) (d : Destination)
    (s : RunState) (files : List Path) (s' : RunState) : Prop where
  outcomes : ∃ outcomes, files.mapM (s.tree.outcomeOf parse marker) = .ok outcomes ∧
    s'.outcomes = s.outcomes ++ outcomes
  changed : FileTree.ChangedAt (s.tree.touched parse marker base d files) s.tree s'.tree
  delivered : ∀ p ∈ files, ∀ r, (s.tree.transformFile parse marker p).outcome = .ok r → ∀ target,
    s.tree.target? base d p r = some target → ∃ bytes, s'.tree.read target = .ok bytes ∧
      s.tree.IsWrittenTo parse marker base d files (s.tree.place target) bytes

section Runs

variable {parse : SourceParser} {config : Config} {base : Path} {d : Destination}
  {s s₁ s' : RunState} {p : Path} {files : List Path}

open FileTree

theorem ran_nil : Ran parse config.marker base d s [] s where
  outcomes := ⟨[], rfl, (List.append_nil _).symm⟩
  changed := changedAt_self
  delivered _ h := absurd h List.not_mem_nil

/-- The run over a single file. -/
theorem ran_of_runFile (hfile : s.tree.isFile p = true)
    (hstart : (∃ directory, d = .below directory) → s.tree.StartsAtPlace)
    (h : runFile parse config base d s p = .ok s') : Ran parse config.marker base d s [p] s' := by
  have houtcomes : ∀ {o : FileOutcome}, s.tree.outcomeOf parse config.marker p = .ok o →
      [p].mapM (s.tree.outcomeOf parse config.marker) = .ok [o] := by
    intro o ho
    rw [List.mapM_cons, ho]
    rfl
  rw [runFile] at h
  dsimp only at h
  split at h
  · cases h
  · rename_i f hf
    obtain rfl := Except.ok.inj h
    refine ⟨⟨[⟨p, .error f⟩], houtcomes (by rw [outcomeOf, hf]), rfl⟩, changedAt_self, ?_⟩
    intro q hq r hr
    rw [List.mem_singleton.mp hq, hf] at hr
    cases hr
  · rename_i r hr
    split at h
    · cases h
    · rename_i tree hdeliver
      obtain rfl := Except.ok.inj h
      obtain ⟨hchanged, hread⟩ := changedAt_of_deliver hfile hstart hdeliver
      refine ⟨⟨[⟨p, .ok r.changed⟩], houtcomes (by rw [outcomeOf, hr]), rfl⟩, hchanged.mono ?_, ?_⟩
      · rintro l (⟨target, htarget, hl⟩ | hl)
        · exact Or.inl ⟨p, List.mem_singleton_self p, r, hr, target, htarget, hl⟩
        · exact Or.inr hl
      · intro q hq r' hr' target htarget
        obtain rfl := List.mem_singleton.mp hq
        rw [hr, Except.ok.injEq] at hr'
        subst hr'
        exact ⟨_, hread target htarget, q, hq, r, hr, rfl, target, htarget, rfl⟩

/-- What ends a run at a file: its expansion, or a failure to write it. -/
theorem runFile_eq_error {e : RunError} (h : runFile parse config base d s p = .error (e, s')) :
    s.tree.outcomeOf parse config.marker p = .error e ∨
      ∃ r failure, e = .write failure ∧ s.tree.deliver base d p r = .error failure := by
  rw [runFile] at h
  dsimp only at h
  split at h
  · rename_i e' he
    obtain ⟨rfl, _⟩ := Prod.mk.inj (Except.error.inj h)
    exact Or.inl (by rw [outcomeOf, he])
  · cases h
  · rename_i r hr
    split at h
    · rename_i failure hdeliver
      obtain ⟨rfl, _⟩ := Prod.mk.inj (Except.error.inj h)
      exact Or.inr ⟨r, failure, rfl, hdeliver⟩
    · cases h

/-- A file that is expanded and delivered is the next outcome of the run. -/
theorem exists_runFile {r : Expanded} {tree : FileTree}
    (hr : (s.tree.transformFile parse config.marker p).outcome = .ok r)
    (hdeliver : s.tree.deliver base d p r = .ok tree) :
    ∃ s', runFile parse config base d s p = .ok s' ∧ s'.tree = tree ∧
      s'.outcomes = s.outcomes ++ [⟨p, .ok r.changed⟩] := by
  rw [runFile]
  dsimp only
  rw [hr]
  simp only [RunState.write, hdeliver]
  exact ⟨_, rfl, rfl, rfl⟩

/-- What a path led to before a run is there afterwards, unless it is written to for one of the files. -/
theorem Ran.exists_read {marker : String} {target : Path} {bytes : List UInt8}
    (h : Ran parse marker base d s files s') (hread : s.tree.read target = .ok bytes) :
    ∃ bytes', s'.tree.read target = .ok bytes' ∧
      (bytes' = bytes ∨ s.tree.IsWrittenTo parse marker base d files (s.tree.place target) bytes') := by
  have hfile := isFile_of_read hread
  by_cases hover : ∃ q ∈ files, s.tree.place target ∈ s.tree.writtenFor parse marker base d q
  · obtain ⟨q, hq, r, hr, target', htarget', hplace⟩ := hover
    obtain ⟨bytes', hread', hwrite⟩ := h.delivered q hq r hr target' htarget'
    refine ⟨bytes', read_of_entryAt? (h.changed.isFile hfile) ?_, Or.inr (hplace ▸ hwrite)⟩
    rw [h.changed.place, hplace, ← h.changed.place]
    exact entryAt?_of_read hread'
  · refine ⟨bytes, ?_, Or.inl rfl⟩
    rw [h.changed.read hfile ?_, hread]
    rintro (hl | hl)
    · exact hover hl
    · exact place_not_mem_madeFor hfile hl

/-- A run over a file and a run over those after it make one run. -/
theorem Ran.cons {rest : List Path} (hapart : Apart s.tree parse config.marker base d (p :: rest))
    (hfirst : Ran parse config.marker base d s [p] s₁)
    (hrest : Ran parse config.marker base d s₁ rest s') :
    Ran parse config.marker base d s (p :: rest) s' := by
  obtain ⟨hapart₁, hsame⟩ := hapart.tail hfirst.changed
  constructor
  · obtain ⟨first, hmap, hfirstOutcomes⟩ := hfirst.outcomes
    obtain ⟨later, hlater, hlaterOutcomes⟩ := hrest.outcomes
    refine ⟨first ++ later, ?_, by rw [hlaterOutcomes, hfirstOutcomes, List.append_assoc]⟩
    rw [mapM_congr fun q hq => outcomeOf_congr (hsame q hq)] at hlater
    rw [← List.singleton_append, List.mapM_append, hmap, hlater]
    rfl
  · refine (hfirst.changed.mono ?_).trans (hrest.changed.mono ?_)
    · rintro l (⟨q, hq, hl⟩ | hl)
      · exact Or.inl ⟨q, List.mem_singleton.mp hq ▸ List.mem_cons_self, hl⟩
      · exact Or.inr hl
    · rintro l (⟨q, hq, hl⟩ | hl)
      · rw [hfirst.changed.writtenFor (hsame q hq)] at hl
        exact Or.inl ⟨q, List.mem_cons_of_mem p hq, hl⟩
      · exact Or.inr (hfirst.changed.madeFor_subset hl)
  · intro q hq r hr target htarget
    rw [← hfirst.changed.place]
    rcases List.mem_cons.mp hq with rfl | hq
    · obtain ⟨bytes, hread, q', hq', hwrite⟩ :=
        hfirst.delivered q (List.mem_singleton_self q) r hr target htarget
      obtain ⟨bytes', hread', rfl | hwrite'⟩ := hrest.exists_read hread
      · rw [hfirst.changed.place]
        exact ⟨bytes', hread', q', List.mem_singleton.mp hq' ▸ List.mem_cons_self, hwrite⟩
      · exact ⟨bytes', hread', hwrite'.cons hfirst.changed hsame⟩
    · obtain ⟨bytes, hread, hwrite⟩ := hrest.delivered q hq r (hsame q hq ▸ hr) target
        (by rw [hfirst.changed.target?, htarget])
      exact ⟨bytes, hread, hwrite.cons hfirst.changed hsame⟩

/-- How a run over files comes out that are apart: all of them have outcomes, or the run is ended by
one that has none or by one that cannot be written, which happens only below a directory. -/
theorem run_cases (hapart : Apart s.tree parse config.marker base d files) :
    (∃ s', runFiles parse config base d s files = .ok s' ∧ Ran parse config.marker base d s files s') ∨
    (∃ e s', runFiles parse config base d s files = .error (e, s') ∧
      files.mapM (s.tree.outcomeOf parse config.marker) = .error e) ∨
    ∃ failure s' directory, runFiles parse config base d s files = .error (.write failure, s') ∧
      d = .below directory := by
  induction files generalizing s with
  | nil => exact Or.inl ⟨s, rfl, ran_nil⟩
  | cons p rest ih =>
    have hfile := hapart.areFiles p List.mem_cons_self
    rw [runFiles, List.foldlM_cons]
    cases hrun : runFile parse config base d s p with
    | ok s₁ =>
      have hfirst := ran_of_runFile hfile hapart.start hrun
      obtain ⟨hapart₁, hsame⟩ := hapart.tail hfirst.changed
      rcases ih hapart₁ with ⟨s', hrest, hran⟩ | ⟨e, s', hrest, hnone⟩ | ⟨failure, s', dir, hrest, hd⟩
      · exact Or.inl ⟨s', hrest, hfirst.cons hapart hran⟩
      · refine Or.inr (Or.inl ⟨e, s', hrest, ?_⟩)
        obtain ⟨first, hmap, _⟩ := hfirst.outcomes
        rw [mapM_congr fun q hq => outcomeOf_congr (hsame q hq)] at hnone
        rw [← List.singleton_append, List.mapM_append, hmap, hnone]
        rfl
      · exact Or.inr (Or.inr ⟨failure, s', dir, hrest, hd⟩)
    | error failed =>
      obtain ⟨e, s'⟩ := failed
      rcases runFile_eq_error hrun with hnone | ⟨r, failure, rfl, hdeliver⟩
      · exact Or.inr (Or.inl ⟨e, s', rfl, by rw [List.mapM_cons, hnone]; rfl⟩)
      · refine Or.inr (Or.inr ⟨failure, s', ?_⟩)
        by_cases hd : ∃ directory, d = .below directory
        · obtain ⟨directory, hd⟩ := hd
          exact ⟨directory, rfl, hd⟩
        · obtain ⟨after, hafter⟩ := exists_deliver hfile fun directory h => hd ⟨directory, h⟩
          rw [hafter] at hdeliver
          cases hdeliver

theorem ran_of_run (hapart : Apart s.tree parse config.marker base d files)
    (h : runFiles parse config base d s files = .ok s') :
    Ran parse config.marker base d s files s' := by
  rcases run_cases hapart with ⟨s'', hrun, hran⟩ | ⟨_, _, hrun, _⟩ | ⟨_, _, _, hrun, _⟩
  · exact Except.ok.inj (hrun.symm.trans h) ▸ hran
  · rw [h] at hrun
    cases hrun
  · rw [h] at hrun
    cases hrun

end Runs

/-! ### A small folder -/

namespace SmallFolder

open SmallPage (leaf)

/-- A file with an `<If>` and one that is no text, in the working directory. -/
def tree : FileTree where
  entries := [(["p"], .directory), (["p", "a"], .file (Utf8.encode "<If condition={x}>A</If>".toList)),
    (["p", "b"], .file [255])]
  workingDirectory := ["p"]

def page : Path := { parts := ["a"] }

/-- What the page is parsed into. -/
def pageTree : GrammarTree where
  root := .mk "program" 0 24 true none
    [.mk "expression_statement" 0 24 true none
      [.mk "jsx_element" 0 24 true none
        [.mk "jsx_opening_element" 0 18 true (some "open_tag")
          [.mk "<" 0 1 false none [], leaf "identifier" 1 3 (some "name"),
            .mk "jsx_attribute" 4 17 true (some "attribute")
              [leaf "property_identifier" 4 13 none, .mk "=" 13 14 false none [],
                .mk "jsx_expression" 14 17 true none
                  [.mk "\x7b" 14 15 false none [], leaf "identifier" 15 16 none,
                    .mk "\x7d" 16 17 false none []]],
            .mk ">" 17 18 false none []],
          leaf "jsx_text" 18 19 none,
          .mk "jsx_closing_element" 19 24 true (some "close_tag")
            [.mk "</" 19 21 false none [], leaf "identifier" 21 23 (some "name"),
              .mk ">" 23 24 false none []]]]]

/-- A parser that knows the page. -/
def parse : SourceParser := fun _ t =>
  if t = "<If condition={x}>A</If>".toList then pageTree
  else { root := leaf "program" 0 (Utf8.encode t).length none }

def noText : Path := { parts := ["b"] }

/-- The default configuration. -/
def config : Config := {}

def base : Path := { root := "/", parts := ["p"] }

/-- A directory that is not there. -/
def directory : Path := { parts := ["out"] }

theorem isFile : tree.isFile page = true ∧ tree.isFile noText = true := by
  constructor <;> cbv

/-- Nothing but a directory is on the way to the working directory. -/
theorem startsAtPlace : tree.StartsAtPlace := by
  intro l hl target
  rcases List.prefix_cons_iff.mp hl with rfl | ⟨rest, rfl, hrest⟩
  · exact nofun
  · rw [List.prefix_nil.mp hrest, show tree.entryAt? ["p"] = some .directory by decide]
    exact nofun

theorem readText_page : tree.readText page = .ok "<If condition={x}>A</If>".toList := by cbv

theorem expanded_page : (tree.transformFile parse config.marker page).outcome =
    .ok ⟨"<If condition={x}>A</If>".toList, "{x ? <>A</> : null}".toList⟩ := by
  rw [FileTree.transformFile_eq_ok_iff]
  refine ⟨readText_page, toOption_eq_some_iff.mp ?_⟩
  have hparse : parse (.ofFileName page.text) "<If condition={x}>A</If>".toList = pageTree :=
    if_pos rfl
  simp only [transformText, hparse, transformTree, SourceFile.parsed, SourceFile.ofGrammar,
    Node.ofGrammar_eq]
  rw [Conversion.convert_eq, Conversion.convert_eq_repeat _ 7]
  decide +kernel

/-- The file that is no text cannot be read. -/
theorem failed_noText :
    ∃ f, (tree.transformFile parse config.marker noText).outcome = .error (.ok f) := by
  have hread : tree.readText noText = .error (.decode ⟨.start, 255, 0, 1⟩) := by cbv
  rw [FileTree.transformFile, hread]
  exact ⟨_, rfl⟩

end SmallFolder

end CondMarkup
