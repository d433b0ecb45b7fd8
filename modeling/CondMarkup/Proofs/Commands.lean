import CondMarkup.CommandLine.Program
import CondMarkup.Proofs.Destinations
import CondMarkup.Proofs.Isolation
import CondMarkup.Proofs.ReadBack

/-!
The commands agree. Whether files are checked, expanded in place or expanded below a directory, the same
becomes of each of them, since each is read as it was at the beginning, and so the exit status is the
same. A file that is expanded to the output is read and expanded apart from all runs, but with the same
status, and what is printed is the text that a run writes.
-/

namespace CondMarkup

open FileTree

/-- What becomes of the files in a run, or what ends the run. -/
def FileTree.outcomes (tree : FileTree) (parse : SourceParser) (config : Config) (base : Path)
    (d : Destination) (files : List Path) : Except RunError (List FileOutcome) :=
  ((tree.run parse config base d files).map RunState.outcomes).mapError Prod.fst

section Runs

variable {tree : FileTree} {parse : SourceParser} {read : PatternReader} {config : Config}
  {base root p : Path} {d : Destination} {files paths : List Path}

theorem outcomes_of_run {s : RunState} (h : tree.run parse config base d files = .ok s) :
    tree.outcomes parse config base d files = .ok s.outcomes := by
  rw [FileTree.outcomes, h]
  rfl

theorem exists_run_of_outcomes {outcomes : List FileOutcome}
    (h : tree.outcomes parse config base d files = .ok outcomes) :
    ∃ s, tree.run parse config base d files = .ok s ∧ s.outcomes = outcomes := by
  obtain ⟨s, hrun, h⟩ := bind_eq_ok_iff.mp (mapError_eq_ok_iff.mp h)
  exact ⟨s, hrun, Except.ok.inj h⟩

/-- Where files go makes no difference to what becomes of them, unless one cannot be written. -/
theorem outcomes_eq (hapart : Apart tree parse config.marker base d files)
    (hwrite : ∀ failure s, (∃ directory, d = .below directory) →
      tree.run parse config base d files ≠ .error (.write failure, s)) :
    tree.outcomes parse config base d files = files.mapM (tree.outcomeOf parse config.marker) := by
  rcases run_cases (s := { tree }) hapart with ⟨s, hrun, hran⟩ | ⟨e, s, hrun, hnone⟩ |
    ⟨failure, s, directory, hrun, hd⟩
  · obtain ⟨outcomes, hmap, houtcomes⟩ := hran.outcomes
    rw [outcomes_of_run hrun, houtcomes]
    exact hmap.symm
  · rw [FileTree.outcomes, show tree.run parse config base d files = _ from hrun]
    exact hnone.symm
  · exact absurd hrun (hwrite failure s ⟨directory, hd⟩)

/-- Files that are only checked are apart. -/
theorem apart_nowhere {marker : String} (hfiles : ∀ p ∈ files, tree.isFile p = true) :
    Apart tree parse marker base .nowhere files where
  areFiles := hfiles
  apart := List.pairwise_of_forall fun _ _ ⟨_, _, _, htarget, _⟩ => nomatch htarget
  start := nofun

/-- What is collected are files. -/
theorem isFile_of_collect (h : tree.collect read config root paths = .ok files) :
    ∀ p ∈ files, tree.isFile p = true := by
  rw [collect] at h
  split at h
  · cases h
  · obtain ⟨found, hfound, h⟩ := bind_eq_ok_iff.mp h
    obtain ⟨pairs, rfl, rfl, hall⟩ := exists_pairs_of_mapM hfound
    rw [← pure_eq_ok_iff.mp h]
    intro p hp
    obtain ⟨_, hmem, hp⟩ := List.mem_flatten.mp hp
    obtain ⟨pair, hpair, rfl⟩ := List.mem_map.mp hmem
    have hat := hall pair hpair
    rw [filesAt] at hat
    split at hat
    · rename_i hfile
      rw [← Except.ok.inj hat] at hp
      rw [List.mem_singleton.mp hp]
      exact hfile
    · split at hat
      · rw [← Except.ok.inj hat, chosenBelow, List.mem_filter, Bool.and_eq_true] at hp
        exact hp.2.1
      · cases hat

/-- A file that is named is collected. -/
theorem collect_of_isFile {filter : FileFilter} (hfilter : config.filter read = .ok filter)
    (hfile : tree.isFile p = true) : tree.collect read config root [p] = .ok [p] := by
  rw [collect, hfilter]
  dsimp only
  rw [List.mapM_cons, filesAt, if_pos hfile]
  rfl

end Runs

namespace CommandLine

/-- The directory that commands are run in. -/
def here (tree : FileTree) : Path := { root := "/", parts := tree.workingDirectory }

/-- The exit status after files came out in this way. -/
def statusOf : Except RunError (List FileOutcome) → Except Crash Nat
  | .error e => .error (.run e)
  | .ok outcomes => .ok (if outcomes.all FileOutcome.ok then 0 else 1)

namespace Command

/-- The command is about these files and has this configuration. -/
def Concerns (c : Command) (tools : Toolkit) (tree : FileTree) (config : Config)
    (files : List Path) : Prop :=
  tree.loadConfig tools.readDocument (here tree) c.config = .ok config ∧
    tree.collect tools.readPatterns config (here tree) c.paths = .ok files

/-- Two commands are given the same paths and the same configuration. -/
def SameInput (c c' : Command) : Prop := c.paths = c'.paths ∧ c.config = c'.config

theorem SameInput.concerns {c c' : Command} {tools : Toolkit} {tree : FileTree} {config : Config}
    {files : List Path} (hsame : c.SameInput c') (h : c'.Concerns tools tree config files) :
    c.Concerns tools tree config files := by
  rw [Concerns, hsame.1, hsame.2]
  exact h

end Command

/-- The files are different, none of them is in the way below the directory, and what is to be written
there can be. -/
structure Clear (parse : SourceParser) (tree : FileTree) (config : Config) (directory : Path)
    (files : List Path) : Prop where
  distinct : (files.map tree.resolve).Nodup
  free : tree.Free parse config.marker (here tree) directory files
  writable : ∀ failure s,
    tree.run parse config (here tree) (.below directory) files ≠ .error (.write failure, s)

section Reports

variable {tools : Toolkit} {tree : FileTree} {c c' : Command} {config : Config}
  {d d' : Destination} {p : Path} {files : List Path}

theorem ok_eq_all (s : RunState) : s.ok = s.outcomes.all FileOutcome.ok := by
  rw [Bool.eq_iff_iff, RunState.ok, RunState.failed, List.isEmpty_iff, List.filter_eq_nil_iff,
    List.all_eq_true]
  simp

/-- The report of a run. -/
def runReport (c : Command) : Except (RunError × RunState) RunState → Report
  | .error (e, s) => { tree := s.tree, messages := c.shown s.log, status := .error (.run e) }
  | .ok s =>
    { tree := s.tree
      messages := c.shown s.log ++ (if c.checkOnly then summary s else "")
      status := .ok (if s.ok then 0 else 1) }

theorem commandReport_of_concerns (h : c.Concerns tools tree config files)
    (hd : c.destination? = some d) :
    commandReport tools tree c = runReport c (tree.run tools.parse config (here tree) d files) := by
  obtain ⟨hload, hcollect⟩ := h
  rw [here] at hload hcollect
  rw [commandReport, hload, hd]
  dsimp only
  rw [batchReport, hcollect]
  rfl

theorem status_of_concerns (h : c.Concerns tools tree config files) (hd : c.destination? = some d) :
    (commandReport tools tree c).status =
      statusOf (tree.outcomes tools.parse config (here tree) d files) := by
  rw [commandReport_of_concerns h hd, FileTree.outcomes]
  cases tree.run tools.parse config (here tree) d files with
  | ok s =>
    rw [runReport, ok_eq_all]
    rfl
  | error failed => rfl

/-- A command that is about no files, since its configuration or one of its paths is wrong, ends in the
same way wherever files would have gone. -/
theorem status_eq_of_no_concern (hsame : c.SameInput c') (hd : c.destination? = some d)
    (hd' : c'.destination? = some d') (h : ¬ ∃ config files, c'.Concerns tools tree config files) :
    (commandReport tools tree c).status = (commandReport tools tree c').status := by
  rw [commandReport, commandReport, hsame.2]
  rw [← here]
  cases hload : tree.loadConfig tools.readDocument (here tree) c'.config with
  | error e => cases e <;> rfl
  | ok config =>
    rw [hd, hd']
    dsimp only
    rw [batchReport, batchReport, hsame.1]
    cases hcollect : tree.collect tools.readPatterns config (here tree) c'.paths with
    | error e => cases e <;> rfl
    | ok files => exact absurd ⟨config, files, hload, hcollect⟩ h

/-- Commands with the same input have the same status if the same becomes of their files. -/
theorem status_eq_of_outcomes_eq (hsame : c.SameInput c') (hd : c.destination? = some d)
    (hd' : c'.destination? = some d') (houtcomes : ∀ config files, c'.Concerns tools tree config files →
      tree.outcomes tools.parse config (here tree) d files =
        tree.outcomes tools.parse config (here tree) d' files) :
    (commandReport tools tree c).status = (commandReport tools tree c').status := by
  by_cases h : ∃ config files, c'.Concerns tools tree config files
  · obtain ⟨config, files, h'⟩ := h
    rw [status_of_concerns (hsame.concerns h') hd, status_of_concerns h' hd', houtcomes config files h']
  · exact status_eq_of_no_concern hsame hd hd' h

/-! ### A single file -/

/-- The report of a file that is expanded to the output. -/
theorem commandReport_of_single
    (hload : tree.loadConfig tools.readDocument (here tree) c.config = .ok config)
    (hd : c.destination? = none) (hpaths : c.paths = [p]) (hfile : tree.isFile p = true) :
    commandReport tools tree c = singleReport tools.parse tree c config p := by
  rw [here] at hload
  rw [commandReport, hload, hd, hpaths]
  exact if_pos hfile

/-- A command whose configuration cannot be loaded does not come to its files, and prints nothing. -/
theorem commandReport_of_load_error {e : LoadError} (hconfig : c.config = c'.config)
    (h : tree.loadConfig tools.readDocument (here tree) c.config = .error e) :
    commandReport tools tree c = commandReport tools tree c' ∧
      (commandReport tools tree c).status ≠ .ok 0 ∧ (commandReport tools tree c).output = "" := by
  rw [here] at h
  rw [commandReport, commandReport, ← hconfig, h]
  cases e <;> exact ⟨rfl, by simp [configReport], rfl⟩

theorem status_singleReport : (singleReport tools.parse tree c config p).status =
    statusOf ([p].mapM (tree.outcomeOf tools.parse config.marker)) := by
  rw [List.mapM_cons, singleReport, outcomeOf]
  cases (tree.transformFile tools.parse config.marker p).outcome with
  | ok r => rfl
  | error failure =>
    rcases failure with e | f
    · rfl
    · cases f <;> rfl

/-- What the output of a single file tells. -/
theorem output_singleReport : (∃ r, (tree.transformFile tools.parse config.marker p).outcome = .ok r ∧
      (singleReport tools.parse tree c config p).status = .ok 0 ∧
      (singleReport tools.parse tree c config p).output = String.ofList r.result) ∨
    (singleReport tools.parse tree c config p).status ≠ .ok 0 ∧
      (singleReport tools.parse tree c config p).output = "" := by
  rw [singleReport]
  cases (tree.transformFile tools.parse config.marker p).outcome with
  | ok r => exact Or.inl ⟨r, rfl, rfl, rfl⟩
  | error failure =>
    refine Or.inr ?_
    rcases failure with e | f
    · exact ⟨nofun, rfl⟩
    · cases f <;> exact ⟨by simp, rfl⟩

/-! ### Files that are clear -/

/-- The same becomes of clear files wherever they go. -/
theorem Clear.outcomes_eq {directory : Path} (h : Clear tools.parse tree config directory files)
    (hstart : tree.StartsAtPlace) (hfiles : ∀ p ∈ files, tree.isFile p = true)
    (hd : d = .nowhere ∨ d = .inPlace ∨ d = .below directory) :
    tree.outcomes tools.parse config (here tree) d files =
      files.mapM (tree.outcomeOf tools.parse config.marker) := by
  rcases hd with rfl | rfl | rfl
  · exact CondMarkup.outcomes_eq (apart_nowhere hfiles) nofun
  · exact CondMarkup.outcomes_eq (apart_inPlace hfiles h.distinct) nofun
  · exact CondMarkup.outcomes_eq (apart_below hstart hfiles h.free)
      fun failure s _ => h.writable failure s

theorem Clear.outcomes_agree {directory : Path} (h : Clear tools.parse tree config directory files)
    (hstart : tree.StartsAtPlace) (hfiles : ∀ p ∈ files, tree.isFile p = true) :
    tree.outcomes tools.parse config (here tree) (.below directory) files =
      tree.outcomes tools.parse config (here tree) .nowhere files ∧
    tree.outcomes tools.parse config (here tree) .inPlace files =
      tree.outcomes tools.parse config (here tree) .nowhere files := by
  rw [h.outcomes_eq hstart hfiles (Or.inl rfl), h.outcomes_eq hstart hfiles (Or.inr (Or.inl rfl)),
    h.outcomes_eq hstart hfiles (Or.inr (Or.inr rfl))]
  exact ⟨rfl, rfl⟩

/-- A single file that is expanded comes out of every run. -/
theorem exists_run_single {r : Expanded}
    (hr : (tree.transformFile tools.parse config.marker p).outcome = .ok r)
    (houtcomes : tree.outcomes tools.parse config (here tree) d [p] =
      [p].mapM (tree.outcomeOf tools.parse config.marker)) :
    ∃ s, tree.run tools.parse config (here tree) d [p] = .ok s := by
  have hall : [p].mapM (tree.outcomeOf tools.parse config.marker) = .ok [⟨p, .ok r.changed⟩] := by
    rw [List.mapM_cons, outcomeOf, hr]
    rfl
  obtain ⟨s, hrun, _⟩ := exists_run_of_outcomes (houtcomes.trans hall)
  exact ⟨s, hrun⟩

section Single

variable {directory : Path} {r : Expanded} (hclear : Clear tools.parse tree config directory [p])
  (hstart : tree.StartsAtPlace) (hconcerns : c.Concerns tools tree config [p])
  (hr : (tree.transformFile tools.parse config.marker p).outcome = .ok r)
include hclear hstart hconcerns hr

/-- Below the directory, the text of a single file is found where the file goes. -/
theorem read_of_single_below (hd : c.destination? = some (.below directory)) :
    (commandReport tools tree c).tree.read (tree.destination (here tree) directory p) =
      .ok (Utf8.encode r.result) := by
  have hfiles := isFile_of_collect hconcerns.2
  obtain ⟨s, hrun⟩ := exists_run_single hr (hclear.outcomes_eq hstart hfiles (Or.inr (Or.inr rfl)))
  rw [commandReport_of_concerns hconcerns hd, hrun]
  have hran := ran_of_run (apart_below hstart hfiles hclear.free) hrun
  obtain ⟨q, hq, r', hr', _, hread⟩ := exists_read_below hran (List.mem_singleton_self p) hr
  rw [List.mem_singleton.mp hq, hr, Except.ok.injEq] at hr'
  exact hr' ▸ hread

/-- In place, the text of a single file is read from it, whether or not it was rewritten. -/
theorem readText_of_single_inPlace (hd : c.destination? = some .inPlace) :
    (commandReport tools tree c).tree.readText p = .ok r.result := by
  have hfiles := isFile_of_collect hconcerns.2
  obtain ⟨s, hrun⟩ := exists_run_single hr (hclear.outcomes_eq hstart hfiles (Or.inr (Or.inl rfl)))
  rw [commandReport_of_concerns hconcerns hd, hrun, runReport]
  have hraise : ∀ q ∈ [p], ∀ e,
      (tree.transformFile tools.parse config.marker q).outcome ≠ .error (.error e) := by
    rw [List.forall_mem_singleton, hr]
    exact nofun
  have hisolated := isolated_of_ran hfiles hclear.distinct hraise
    (ran_of_run (apart_inPlace hfiles hclear.distinct) hrun)
  by_cases hchanged : r.changed = true
  · exact readText_of_expanded hr (hisolated.rewritten p (List.mem_singleton_self p) r ⟨hr, hchanged⟩)
  · have hkept : s.tree.read p = tree.read p := by
      refine hisolated.kept p (List.mem_singleton_self p) ?_
      rintro ⟨r', hr', hchanged'⟩
      rw [hr, Except.ok.injEq] at hr'
      exact hchanged (hr' ▸ hchanged')
    have hsame : r.result = r.source := by
      rw [Expanded.changed] at hchanged
      simpa using hchanged
    rw [readText, hkept, ← readText, (transformFile_eq_ok_iff.mp hr).1, hsame]

end Single

end Reports

/-- Checking files, expanding them in place and expanding them below a directory end with the same
status, and the same becomes of each file, if the files are different and can be written. A single file
that is expanded to the output has the same status; if it is 0, the output is the text that is stored
below the directory and the one that the file has after it is expanded in place, and if it is 1, there
is no output. -/
theorem commandReports_agree {tools : Toolkit} {tree : FileTree} {check below inPlace : Command}
    {directory : Path}
    (hcheck : check.destination? = some .nowhere)
    (hbelow : below.destination? = some (.below directory))
    (hinPlace : inPlace.destination? = some .inPlace)
    (hsame : below.SameInput check) (hsame' : inPlace.SameInput check) (hstart : tree.StartsAtPlace)
    (hclear : ∀ config files, check.Concerns tools tree config files →
      Clear tools.parse tree config directory files) :
    (commandReport tools tree below).status = (commandReport tools tree check).status ∧
    (commandReport tools tree inPlace).status = (commandReport tools tree check).status ∧
    (∀ config files, check.Concerns tools tree config files →
      tree.outcomes tools.parse config (here tree) (.below directory) files =
        tree.outcomes tools.parse config (here tree) .nowhere files ∧
      tree.outcomes tools.parse config (here tree) .inPlace files =
        tree.outcomes tools.parse config (here tree) .nowhere files) ∧
    ∀ (single : Command) (p : Path), single.SameInput check → single.destination? = none →
      single.paths = [p] → tree.isFile p = true →
      (∀ config, tree.loadConfig tools.readDocument (here tree) single.config = .ok config →
        ∃ filter, config.filter tools.readPatterns = .ok filter) →
      (commandReport tools tree single).status = (commandReport tools tree check).status ∧
      ((commandReport tools tree single).status = .ok 0 → ∃ text,
        (commandReport tools tree single).output = String.ofList text ∧
        (commandReport tools tree below).tree.read (tree.destination (here tree) directory p) =
          .ok (Utf8.encode text) ∧
        (commandReport tools tree inPlace).tree.readText p = .ok text) ∧
      ((commandReport tools tree single).status = .ok 1 →
        (commandReport tools tree single).output = "") := by
  have hagree : ∀ config files, check.Concerns tools tree config files →
      tree.outcomes tools.parse config (here tree) (.below directory) files =
        tree.outcomes tools.parse config (here tree) .nowhere files ∧
      tree.outcomes tools.parse config (here tree) .inPlace files =
        tree.outcomes tools.parse config (here tree) .nowhere files :=
    fun config files h => (hclear config files h).outcomes_agree hstart (isFile_of_collect h.2)
  refine ⟨status_eq_of_outcomes_eq hsame hbelow hcheck fun _ _ h => (hagree _ _ h).1,
    status_eq_of_outcomes_eq hsame' hinPlace hcheck fun _ _ h => (hagree _ _ h).2, hagree, ?_⟩
  intro single p hsingle hd hpaths hfile hfilter
  cases hload : tree.loadConfig tools.readDocument (here tree) single.config with
  | error e =>
    obtain ⟨hreport, hstatus, houtput⟩ := commandReport_of_load_error hsingle.2 hload
    exact ⟨congrArg Report.status hreport, fun h => absurd h hstatus, fun _ => houtput⟩
  | ok config =>
    obtain ⟨filter, hfilter⟩ := hfilter config hload
    have hconcerns : check.Concerns tools tree config [p] := by
      rw [Command.Concerns, ← hsingle.1, ← hsingle.2, hpaths]
      exact ⟨hload, collect_of_isFile hfilter hfile⟩
    have hclear := hclear config [p] hconcerns
    rw [commandReport_of_single hload hd hpaths hfile]
    refine ⟨?_, ?_⟩
    · rw [status_singleReport, status_of_concerns hconcerns hcheck,
        hclear.outcomes_eq hstart (isFile_of_collect hconcerns.2) (Or.inl rfl)]
    rcases output_singleReport with ⟨r, hr, hstatus, houtput⟩ | ⟨hstatus, houtput⟩
    · refine ⟨fun _ => ⟨r.result, houtput, ?_, ?_⟩, fun h => ?_⟩
      · exact read_of_single_below hclear hstart (hsame.concerns hconcerns) hr hbelow
      · exact readText_of_single_inPlace hclear hstart (hsame'.concerns hconcerns) hr hinPlace
      · rw [hstatus] at h
        cases h
    · exact ⟨fun h => absurd h hstatus, fun _ => houtput⟩

end CommandLine

namespace SmallFolder

open CommandLine

/-- Whether a path ends as a pattern with a star asks, or starts with the directory that another one
names. -/
def takesPath (patterns : List String) (path : String) : Bool :=
  patterns.any fun pattern =>
    match pattern.toList with
    | '*' :: ending => ending.isSuffixOf path.toList
    | directory => directory.isPrefixOf path.toList

/-- The parser knows the page. There is no document to read. -/
def tools : Toolkit where
  parse := parse
  readDocument _ := .ok .null
  readPatterns patterns := .ok (takesPath patterns)

/-- The command to check the page. -/
def checkPage : Command := { checkOnly := true, paths := [page] }

/-- The command to expand the page, to the output if nothing else is said. -/
def expandPage : Command := { checkOnly := false, paths := [page] }

theorem loadConfig : tree.loadConfig tools.readDocument (here tree) none = .ok config := by
  have hmissing : tree.isFile ((here tree).join { parts := [configFileName] }) = false := by cbv
  rw [FileTree.loadConfig, configAt, hmissing]
  rfl

theorem exists_filter : ∃ filter, config.filter tools.readPatterns = .ok filter := ⟨_, rfl⟩

/-- The page is all that the commands are about, and it is clear. -/
theorem clear_of_concerns {config' : Config} {files : List Path}
    (h : checkPage.Concerns tools tree config' files) :
    Clear tools.parse tree config' directory files := by
  obtain ⟨filter, hfilter⟩ := exists_filter
  obtain rfl : config = config' := Except.ok.inj (loadConfig.symm.trans h.1)
  obtain rfl : [page] = files := Except.ok.inj ((collect_of_isFile hfilter isFile.1).symm.trans h.2)
  refine ⟨List.nodup_singleton _, free, fun failure s hrun => ?_⟩
  obtain ⟨s', hrun'⟩ := exists_run_below
  exact nomatch hrun'.symm.trans hrun

end SmallFolder

open SmallFolder in
/-- The commands about the page of the small folder all have status 0. -/
theorem CommandLine.commandReports_agree_smallFolder :
    (commandReport tools tree checkPage).status = .ok 0 ∧
    (commandReport tools tree expandPage).status = .ok 0 ∧
    (commandReport tools tree { expandPage with outDir := some directory }).status = .ok 0 ∧
    (commandReport tools tree { expandPage with inPlace := true }).status = .ok 0 ∧
    ∃ text, (commandReport tools tree expandPage).output = String.ofList text ∧
      (commandReport tools tree { expandPage with inPlace := true }).tree.readText page = .ok text := by
  have hsame : ∀ c : Command, c.paths = [page] → c.config = none → c.SameInput checkPage :=
    fun c hpaths hconfig => ⟨hpaths, hconfig⟩
  obtain ⟨hbelow, hinPlace, _, hsingle⟩ := @commandReports_agree tools tree checkPage
      { expandPage with outDir := some directory } { expandPage with inPlace := true } directory
      rfl rfl rfl (hsame _ rfl rfl) (hsame _ rfl rfl) startsAtPlace fun _ _ => clear_of_concerns
  obtain ⟨hstatus, htext, _⟩ := hsingle expandPage page (hsame _ rfl rfl) rfl rfl isFile.1
    fun config hload => Except.ok.inj (loadConfig.symm.trans hload) ▸ exists_filter
  have hreport : (commandReport tools tree expandPage).status = .ok 0 := by
    have hexpanded : (tree.transformFile tools.parse config.marker page).outcome = _ := expanded_page
    rw [commandReport_of_single loadConfig rfl rfl isFile.1, singleReport, hexpanded]
  obtain ⟨text, houtput, _, hread⟩ := htext hreport
  rw [hstatus] at hreport
  exact ⟨hreport, hstatus.trans hreport, hbelow.trans hreport, hinPlace.trans hreport,
    text, houtput, hread⟩

end CondMarkup
