import CondMarkup.Proofs.BatchRun
import CondMarkup.Proofs.Utf8

/-!
Where files go below a directory. A file below the base keeps its path from there, any other file only
its name, so that a file outside the base may go where another one goes: where the file of that name
outside the base goes, or the one of that name directly in the base. The later of two such files is
written over the earlier one.
-/

namespace CondMarkup

/-- The path that stands for a file outside the base: its name. -/
def Path.byName (p : Path) : Path := { parts := if p.name = "" then [] else [p.name] }

/-- The path does not lead to a place at or below the one that the base leads to. -/
def FileTree.Outside (tree : FileTree) (base p : Path) : Prop :=
  (tree.resolve p).relativeTo? (tree.resolve base) = none

namespace Path

theorem join_inj {base p q : Path} (hp : p.root = "") (hq : q.root = "") :
    base.join p = base.join q ↔ p = q := by
  have hrelative : ∀ {r : Path}, r.root = "" → r.isAbsolute = false := fun h => by
    simp [isAbsolute, h]
  rw [join, join, hrelative hp, hrelative hq, if_neg Bool.false_ne_true, if_neg Bool.false_ne_true,
    Path.mk.injEq, Path.mk.injEq, List.append_cancel_left_eq, hp, hq]
  simp

theorem root_of_relativeTo? {base p q : Path} (h : p.relativeTo? base = some q) : q.root = "" := by
  rw [relativeTo?] at h
  split at h
  · rw [← Option.some.inj h]
  · cases h

theorem eq_join_of_relativeTo? {base p q : Path} (h : p.relativeTo? base = some q) :
    p = base.join q := by
  have hroot := root_of_relativeTo? h
  rw [relativeTo?] at h
  split at h
  · rename_i hbelow
    obtain ⟨rest, hrest⟩ := List.isPrefixOf_iff_prefix.mp hbelow.2
    have hq := Option.some.inj h
    rw [← hrest, List.drop_left] at hq
    obtain ⟨root, parts⟩ := p
    obtain rfl : root = base.root := hbelow.1
    obtain rfl : base.parts ++ rest = parts := hrest
    rw [← hq]
    rfl
  · cases h

end Path

namespace FileTree

variable {tree : FileTree} {base directory p q r : Path}

/-- A path from the base that leads to the file, if it is not outside. -/
theorem relativeTo?_eq_some_iff : (tree.resolve p).relativeTo? (tree.resolve base) = some r ↔
    r.root = "" ∧ tree.resolve p = (tree.resolve base).join r := by
  constructor
  · exact fun h => ⟨Path.root_of_relativeTo? h, Path.eq_join_of_relativeTo? h⟩
  · rintro ⟨hroot, h⟩
    rw [h, Path.relativeTo?_join hroot]

theorem not_outside_iff : ¬ tree.Outside base p ↔ ∃ r : Path, r.root = "" ∧
    tree.resolve p = (tree.resolve base).join r := by
  rw [Outside, ← ne_eq, Option.ne_none_iff_exists']
  exact exists_congr fun r => relativeTo?_eq_some_iff

theorem destination_of_outside (h : tree.Outside base p) :
    tree.destination base directory p = directory.join p.byName := by
  rw [destination, h]
  rfl

theorem destination_of_join (hroot : r.root = "")
    (h : tree.resolve p = (tree.resolve base).join r) :
    tree.destination base directory p = directory.join r := by
  rw [destination, relativeTo?_eq_some_iff.mpr ⟨hroot, h⟩]
  rfl

/-- A file outside the base goes where one within goes that lies directly in the base and has its
name. -/
theorem destination_eq_iff_of_outside (hp : tree.Outside base p) (hq : ¬ tree.Outside base q) :
    tree.destination base directory p = tree.destination base directory q ↔
      tree.resolve q = (tree.resolve base).join p.byName := by
  obtain ⟨r, hroot, hr⟩ := not_outside_iff.mp hq
  rw [destination_of_outside hp, destination_of_join hroot hr, Path.join_inj rfl hroot, hr,
    Path.join_inj hroot rfl]
  exact eq_comm

/-- When two files go to the same path: both lie outside the base and have the same name, or one does
and has the name of the other, which lies directly in the base. -/
theorem destination_eq_iff (hne : tree.resolve p ≠ tree.resolve q) :
    tree.destination base directory p = tree.destination base directory q ↔
      (tree.Outside base p ∧ tree.Outside base q ∧ p.byName = q.byName) ∨
      (tree.Outside base p ∧ tree.resolve q = (tree.resolve base).join p.byName) ∨
      (tree.Outside base q ∧ tree.resolve p = (tree.resolve base).join q.byName) := by
  have hinside : ∀ {p q : Path}, tree.resolve p = (tree.resolve base).join q.byName →
      ¬ tree.Outside base p := fun h => not_outside_iff.mpr ⟨_, rfl, h⟩
  by_cases hp : tree.Outside base p
  · by_cases hq : tree.Outside base q
    · rw [destination_of_outside hp, destination_of_outside hq, Path.join_inj rfl rfl]
      exact ⟨fun h => Or.inl ⟨hp, hq, h⟩, fun h => by
        rcases h with ⟨_, _, h⟩ | ⟨_, h⟩ | ⟨_, h⟩
        · exact h
        · exact absurd hq (hinside h)
        · exact absurd hp (hinside h)⟩
    · rw [destination_eq_iff_of_outside hp hq]
      simp [hp, hq]
  · by_cases hq : tree.Outside base q
    · rw [eq_comm, destination_eq_iff_of_outside hq hp]
      simp [hp, hq]
    · obtain ⟨r, hroot, hr⟩ := not_outside_iff.mp hp
      obtain ⟨r', hroot', hr'⟩ := not_outside_iff.mp hq
      have hdifferent : r ≠ r' := by
        rintro rfl
        exact hne (hr.trans hr'.symm)
      rw [destination_of_join hroot hr, destination_of_join hroot' hr', Path.join_inj hroot hroot']
      simp [hp, hq, hdifferent]

end FileTree

section Runs

variable {parse : SourceParser} {config : Config} {base directory : Path} {tree : FileTree}
  {files : List Path} {s : RunState}

open FileTree

/-- Below a directory, every file that is expanded is written. -/
theorem mem_writtenFor_below_iff {marker : String} {p : Path} {l : Location} :
    l ∈ tree.writtenFor parse marker base (.below directory) p ↔
      (∃ r, (tree.transformFile parse marker p).outcome = .ok r) ∧
        l = tree.place (tree.destination base directory p) := by
  constructor
  · rintro ⟨r, hr, target, htarget, rfl⟩
    exact ⟨⟨r, hr⟩, by rw [← Option.some.inj htarget]⟩
  · rintro ⟨⟨r, hr⟩, rfl⟩
    exact ⟨r, hr, _, rfl, rfl⟩

/-- The files are not in the way of what is written below the directory. -/
def FileTree.Free (tree : FileTree) (parse : SourceParser) (marker : String)
    (base directory : Path) (files : List Path) : Prop :=
  ∀ p ∈ files, (∃ r, (tree.transformFile parse marker p).outcome = .ok r) →
    ∀ q ∈ files, tree.place (tree.destination base directory p) ≠ tree.place q

theorem apart_below {marker : String} (hstart : tree.StartsAtPlace)
    (hfiles : ∀ p ∈ files, tree.isFile p = true) (hfree : tree.Free parse marker base directory files) :
    Apart tree parse marker base (.below directory) files where
  areFiles := hfiles
  apart := by
    refine List.pairwise_iff_forall_sublist.mpr fun {p q} hsub hl => ?_
    obtain ⟨hexpanded, hplace⟩ := mem_writtenFor_below_iff.mp hl
    exact hfree p (hsub.subset (by simp)) hexpanded q (hsub.subset (by simp)) hplace.symm
  start _ := hstart

/-- What is found afterwards where a file goes: the text of a file that goes there. -/
theorem exists_read_below (hran : Ran parse config.marker base (.below directory) { tree } files s)
    {p : Path} (hp : p ∈ files) {r : Expanded}
    (hr : (tree.transformFile parse config.marker p).outcome = .ok r) :
    ∃ q ∈ files, ∃ r', (tree.transformFile parse config.marker q).outcome = .ok r' ∧
      tree.place (tree.destination base directory p) = tree.place (tree.destination base directory q) ∧
      s.tree.read (tree.destination base directory p) = .ok (Utf8.encode r'.result) := by
  obtain ⟨bytes, hread, q, hq, r', hr', rfl, target, htarget, hplace⟩ :=
    hran.delivered p hp r hr _ rfl
  obtain rfl : tree.destination base directory q = target := Option.some.inj htarget
  exact ⟨q, hq, r', hr', hplace, hread⟩

/-- After a run below a directory, the text of every expanded file is found where the file went, exactly
if files that went to the same place have the same text. -/
theorem reads_below_iff (hran : Ran parse config.marker base (.below directory) { tree } files s) :
    (∀ p ∈ files, ∀ r, (tree.transformFile parse config.marker p).outcome = .ok r →
      s.tree.read (tree.destination base directory p) = .ok (Utf8.encode r.result)) ↔
    ∀ p ∈ files, ∀ r, (tree.transformFile parse config.marker p).outcome = .ok r →
      ∀ q ∈ files, ∀ r', (tree.transformFile parse config.marker q).outcome = .ok r' →
        tree.place (tree.destination base directory p) =
          tree.place (tree.destination base directory q) → r.result = r'.result := by
  constructor
  · intro h p hp r hr q hq r' hr' hplace
    have hentry := entryAt?_of_read (h p hp r hr)
    have hentry' := entryAt?_of_read (h q hq r' hr')
    rw [hran.changed.place] at hentry hentry'
    rw [show tree.place _ = _ from hplace, hentry', Option.some.injEq, FileEntry.file.injEq] at hentry
    exact (Utf8.encode_injective hentry).symm
  · intro h p hp r hr
    obtain ⟨q, hq, r', hr', hplace, hread⟩ := exists_read_below hran hp hr
    rw [hread, h p hp r hr q hq r' hr' hplace]

end Runs

/-- A run below a directory keeps every text exactly if files that go to the same place have the same
text. Files that lie within the base go to different paths, but a file outside goes where any other
outside of its name goes, and where the file of its name in the base goes. -/
theorem FileTree.run_below_keeps_iff {parse : SourceParser} {config : Config}
    {base directory : Path} {tree : FileTree} {files : List Path} {s : RunState}
    (hstart : tree.StartsAtPlace) (hfiles : ∀ p ∈ files, tree.isFile p = true)
    (hfree : tree.Free parse config.marker base directory files)
    (hrun : tree.run parse config base (.below directory) files = .ok s) :
    ((∀ p ∈ files, ∀ r, (tree.transformFile parse config.marker p).outcome = .ok r →
        s.tree.read (tree.destination base directory p) = .ok (Utf8.encode r.result)) ↔
      ∀ p ∈ files, ∀ r, (tree.transformFile parse config.marker p).outcome = .ok r →
        ∀ q ∈ files, ∀ r', (tree.transformFile parse config.marker q).outcome = .ok r' →
          tree.place (tree.destination base directory p) =
            tree.place (tree.destination base directory q) → r.result = r'.result) ∧
    ∀ p ∈ files, ∀ q ∈ files, tree.resolve p ≠ tree.resolve q →
      (tree.destination base directory p = tree.destination base directory q ↔
        (tree.Outside base p ∧ tree.Outside base q ∧ p.byName = q.byName) ∨
        (tree.Outside base p ∧ tree.resolve q = (tree.resolve base).join p.byName) ∨
        (tree.Outside base q ∧ tree.resolve p = (tree.resolve base).join q.byName)) :=
  ⟨reads_below_iff (ran_of_run (apart_below hstart hfiles hfree) hrun),
    fun _ _ _ _ hne => destination_eq_iff hne⟩

namespace SmallFolder

theorem destination_page : tree.destination base directory page = { parts := ["out", "a"] } := by cbv

/-- The page goes to a place below the directory, which is not its own. -/
theorem free : tree.Free parse config.marker base directory [page] := by
  have hplace : tree.place (tree.destination base directory page) = ["p", "out", "a"] := by cbv
  have hplace' : tree.place page = ["p", "a"] := by cbv
  intro p hp _ q hq
  rw [List.mem_singleton.mp hp, List.mem_singleton.mp hq, hplace, hplace']
  decide

/-- The tree after the page is written below the directory. -/
def after : FileTree where
  entries := tree.entries ++ [(["p", "out"], .directory),
    (["p", "out", "a"], .file (Utf8.encode "{x ? <>A</> : null}".toList))]
  workingDirectory := ["p"]

theorem exists_run_below : ∃ s, tree.run parse config base (.below directory) [page] = .ok s := by
  have hdeliver : tree.deliver base (.below directory) page
      ⟨"<If condition={x}>A</If>".toList, "{x ? <>A</> : null}".toList⟩ = .ok after := by cbv
  have hstep : ∃ s, runFile parse config base (.below directory) { tree } page = .ok s ∧ _ ∧ _ :=
    exists_runFile expanded_page hdeliver
  obtain ⟨s, hs, _, _⟩ := hstep
  refine ⟨s, ?_⟩
  rw [FileTree.run, runFiles, List.foldlM_cons, hs]
  rfl

end SmallFolder

open SmallFolder in
/-- The small folder, where a single file is expanded and goes below a directory. -/
theorem FileTree.run_below_keeps_iff_smallFolder : ∃ s,
    tree.run parse config base (.below directory) [page] = .ok s ∧
      s.tree.read { parts := ["out", "a"] } = .ok (Utf8.encode "{x ? <>A</> : null}".toList) := by
  obtain ⟨s, hrun⟩ := exists_run_below
  have hfiles : ∀ p ∈ [page], tree.isFile p = true := by
    simp [SmallFolder.isFile]
  have hkeeps := (run_below_keeps_iff SmallFolder.startsAtPlace hfiles free hrun).1.mpr
  refine ⟨s, hrun, ?_⟩
  rw [← destination_page]
  refine hkeeps ?_ page (List.mem_singleton_self _) _ expanded_page
  intro p hp r hr q hq r' hr' _
  rw [List.mem_singleton.mp hp] at hr
  rw [List.mem_singleton.mp hq, hr, Except.ok.injEq] at hr'
  rw [hr']

namespace OutsideFolder

/-- Two files of one name, neither below the working directory. -/
def tree : FileTree where
  entries := [(["p"], .directory), (["a"], .directory), (["a", "x"], .file (Utf8.encode "A".toList)),
    (["b"], .directory), (["b", "x"], .file (Utf8.encode "B".toList))]
  workingDirectory := ["p"]

def first : Path := { root := "/", parts := ["a", "x"] }

def second : Path := { root := "/", parts := ["b", "x"] }

def base : Path := { parts := [] }

def directory : Path := { parts := ["out"] }

/-- A parser of texts that are a single letter. -/
def parse : SourceParser := fun _ _ =>
  { root := .mk "program" 0 1 true none
      [.mk "expression_statement" 0 1 true none [SmallPage.leaf "identifier" 0 1 none]] }

theorem expanded_first :
    (tree.transformFile parse "m" first).outcome = .ok ⟨"A".toList, "A".toList⟩ := by
  rw [FileTree.transformFile_eq_ok_iff]
  refine ⟨by cbv, toOption_eq_some_iff.mp ?_⟩
  simp only [transformText, parse, transformTree, SourceFile.parsed, SourceFile.ofGrammar,
    Node.ofGrammar_eq]
  rw [Conversion.convert_eq, Conversion.convert_eq_repeat _ 2]
  decide +kernel

theorem expanded_second :
    (tree.transformFile parse "m" second).outcome = .ok ⟨"B".toList, "B".toList⟩ := by
  rw [FileTree.transformFile_eq_ok_iff]
  refine ⟨by cbv, toOption_eq_some_iff.mp ?_⟩
  simp only [transformText, parse, transformTree, SourceFile.parsed, SourceFile.ofGrammar,
    Node.ofGrammar_eq]
  rw [Conversion.convert_eq, Conversion.convert_eq_repeat _ 2]
  decide +kernel

/-- The tree after the first file is written, and after both are. -/
def after (text : Text) : FileTree where
  entries := tree.entries ++ [(["p", "out"], .directory), (["p", "out", "x"], .file (Utf8.encode text))]
  workingDirectory := ["p"]

end OutsideFolder

open OutsideFolder in
/-- Both files go to the same path, and the text of the first one is lost, though both are reported as
expanded. -/
theorem FileTree.run_below_loses_text : ∃ s,
    tree.run parse { marker := "m" } base (.below directory) [first, second] = .ok s ∧
      s.outcomes.all FileOutcome.ok = true ∧
      tree.resolve first ≠ tree.resolve second ∧
      (tree.transformFile parse "m" first).outcome = .ok ⟨"A".toList, "A".toList⟩ ∧
      s.tree.read (tree.destination base directory first) = .ok (Utf8.encode "B".toList) := by
  have hdeliver : tree.deliver base (.below directory) first ⟨"A".toList, "A".toList⟩ =
      .ok (after "A".toList) := by cbv
  have hdeliver' : (after "A".toList).deliver base (.below directory) second
      ⟨"B".toList, "B".toList⟩ = .ok (after "B".toList) := by cbv
  have hread : (after "A".toList).readText second = tree.readText second := by cbv
  have hsecond : ((after "A".toList).transformFile parse "m" second).outcome =
      .ok ⟨"B".toList, "B".toList⟩ := by
    rw [transformFile_congr hread]
    exact expanded_second
  have hfirst : ∃ s, runFile parse { marker := "m" } base (.below directory) { tree } first =
      .ok s ∧ _ ∧ _ := exists_runFile expanded_first hdeliver
  obtain ⟨s, hs, htree, houtcomes⟩ := hfirst
  have hboth : ∃ s', runFile parse { marker := "m" } base (.below directory) s second =
      .ok s' ∧ _ ∧ _ := exists_runFile (htree ▸ hsecond) (htree ▸ hdeliver')
  obtain ⟨s', hs', htree', houtcomes'⟩ := hboth
  have hresolve : tree.resolve first = ⟨"/", ["a", "x"]⟩ := by cbv
  have hresolve' : tree.resolve second = ⟨"/", ["b", "x"]⟩ := by cbv
  refine ⟨s', ?_, ?_, ?_, expanded_first, ?_⟩
  · rw [run, runFiles, List.foldlM_cons, hs]
    show List.foldlM _ s _ = _
    rw [List.foldlM_cons, hs']
    rfl
  · rw [houtcomes', houtcomes]
    rfl
  · rw [hresolve, hresolve']
    decide
  · rw [htree']
    cbv

end CondMarkup
