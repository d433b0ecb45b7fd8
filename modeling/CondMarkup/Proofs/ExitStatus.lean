import CondMarkup.Proofs.Commands
import CondMarkup.Proofs.Footprint

/-!
What a command answers with and what it leaves changed. The status is 2 if the command is refused, which
happens before anything is written or printed; otherwise it tells whether some file failed. Nothing is
changed but files of the command, in place, or what lies below the directory that files go to.
-/

namespace CondMarkup

open FileTree

namespace FileTree

variable {tree : FileTree} {read : PatternReader} {config : Config} {filter : FileFilter}
  {root p : Path} {paths : List Path}

theorem filesAt_eq_error_iff {e : CollectError} : tree.filesAt filter root p = .error e ↔
    (tree.isFile p = false ∧ tree.isDirectory p = false) ∧ e = .config (.pathNotFound p.text) := by
  rw [filesAt]
  cases tree.isFile p <;> cases tree.isDirectory p <;> simp [eq_comm]

theorem exists_filesAt_iff : (∃ files, tree.filesAt filter root p = .ok files) ↔
    tree.isFile p = true ∨ tree.isDirectory p = true := by
  rw [filesAt]
  cases tree.isFile p <;> cases tree.isDirectory p <;> simp

/-- The paths are refused at the first that leads neither to a file nor to a directory. -/
theorem collect_eq_config_error_iff {e : ConfigError} :
    tree.collect read config root paths = .error (.config e) ↔
      (∃ filter, config.filter read = .ok filter) ∧ ∃ before p after, paths = before ++ p :: after ∧
        (∀ q ∈ before, tree.isFile q = true ∨ tree.isDirectory q = true) ∧
        (tree.isFile p = false ∧ tree.isDirectory p = false) ∧ e = .pathNotFound p.text := by
  rw [collect]
  cases config.filter read with
  | error e' => simp
  | ok filter =>
    have hflat : ∀ {x : Except CollectError (List (List Path))},
        (do return (← x).flatten) = (.error (.config e) : Except CollectError (List Path)) ↔
          x = .error (.config e) := by
      intro x
      rw [bind_eq_error_iff]
      constructor
      · rintro (h | ⟨_, _, h⟩)
        · exact h
        · cases h
      · exact Or.inl
    simp only [hflat, mapM_eq_error_iff, exists_filesAt_iff, filesAt_eq_error_iff,
      CollectError.config.injEq]
    exact ⟨fun h => ⟨⟨filter, rfl⟩, h⟩, fun h => h.2⟩

end FileTree

namespace CommandLine

/-- Why a command does not come to its files. -/
inductive Refused (tools : Toolkit) (tree : FileTree) (c : Command) : ConfigError → Prop
  /-- There is no configuration that can be loaded. -/
  | configuration {e : ConfigError}
      (h : tree.loadConfig tools.readDocument (here tree) c.config = .error (.config e)) :
      Refused tools tree c e
  /-- The paths are not a single file, and the command does not say where files go. -/
  | noDestination {config : Config}
      (hload : tree.loadConfig tools.readDocument (here tree) c.config = .ok config)
      (hd : c.destination? = none) (hpaths : ¬ ∃ p, c.paths = [p] ∧ tree.isFile p = true) :
      Refused tools tree c .noDestination
  /-- Nothing is where a path leads to. -/
  | missing {config : Config} {d : Destination} {before after : List Path} {p : Path}
      (hload : tree.loadConfig tools.readDocument (here tree) c.config = .ok config)
      (hd : c.destination? = some d)
      (hfilter : ∃ filter, config.filter tools.readPatterns = .ok filter)
      (hpaths : c.paths = before ++ p :: after)
      (hbefore : ∀ q ∈ before, tree.isFile q = true ∨ tree.isDirectory q = true)
      (hp : tree.isFile p = false ∧ tree.isDirectory p = false) :
      Refused tools tree c (.pathNotFound p.text)

/-- The command expands the file to the output. -/
structure Shows (tools : Toolkit) (tree : FileTree) (c : Command) (config : Config) (p : Path) :
    Prop where
  loaded : tree.loadConfig tools.readDocument (here tree) c.config = .ok config
  noDestination : c.destination? = none
  paths : c.paths = [p]
  isFile : tree.isFile p = true

/-- What becomes of the files of a command: of those that it collects, or of the single one that it
expands to the output. -/
inductive Processed (tools : Toolkit) (tree : FileTree) (c : Command) : List FileOutcome → Prop
  | run {config : Config} {d : Destination} {files : List Path} {outcomes : List FileOutcome}
      (h : c.Concerns tools tree config files) (hd : c.destination? = some d)
      (houtcomes : tree.outcomes tools.parse config (here tree) d files = .ok outcomes) :
      Processed tools tree c outcomes
  | single {config : Config} {p : Path} {o : FileOutcome} (h : Shows tools tree c config p)
      (ho : tree.outcomeOf tools.parse config.marker p = .ok o) : Processed tools tree c [o]

/-- The file at the place is one of those that the command collects, and it was expanded in place to
something else. -/
def Rewritten (tools : Toolkit) (tree : FileTree) (c : Command) (l : Location) : Prop :=
  ∃ config files, c.Concerns tools tree config files ∧
    ∃ o ∈ (finalState (tree.run tools.parse config (here tree) .inPlace files)).outcomes,
      o.path ∈ files ∧ o.result = .ok true ∧ l = tree.place o.path

variable {tools : Toolkit} {tree : FileTree} {c : Command} {e : ConfigError}
  {outcomes : List FileOutcome}

theorem commandReport_of_refused (h : Refused tools tree c e) :
    commandReport tools tree c = configReport tree e := by
  cases h with
  | configuration h =>
    rw [here] at h
    rw [commandReport, h]
  | noDestination hload hd hpaths =>
    rw [here] at hload
    rw [commandReport, hload, hd]
    dsimp only
    split
    · rename_i d _ _ hd
      cases hd
    · rename_i p _ hp
      exact if_neg fun hfile => hpaths ⟨p, hp, hfile⟩
    · rfl
  | missing hload hd hfilter hpaths hbefore hp =>
    have hcollect : tree.collect tools.readPatterns _ (here tree) c.paths = .error (.config _) :=
      collect_eq_config_error_iff.mpr ⟨hfilter, _, _, _, hpaths, hbefore, hp, rfl⟩
    rw [here] at hload hcollect
    rw [commandReport, hload, hd]
    dsimp only
    rw [batchReport, hcollect]

theorem commandReport_of_shows {config : Config} {p : Path} (h : Shows tools tree c config p) :
    commandReport tools tree c = singleReport tools.parse tree c config p :=
  commandReport_of_single h.loaded h.noDestination h.paths h.isFile

/-- A command is refused, or it comes to its files, or something ends it that has no status. -/
theorem commandReport_cases (tools : Toolkit) (tree : FileTree) (c : Command) :
    (∃ e, Refused tools tree c e) ∨
    (∃ config p, Shows tools tree c config p) ∨
    (∃ config d files, c.Concerns tools tree config files ∧ c.destination? = some d) ∨
    ∃ crash, commandReport tools tree c = { tree, status := .error crash } := by
  cases hload : tree.loadConfig tools.readDocument (here tree) c.config with
  | error e =>
    cases e with
    | config e => exact Or.inl ⟨e, .configuration hload⟩
    | keyNotText | value | decode =>
      rw [here] at hload
      rw [commandReport, hload]
      exact Or.inr (Or.inr (Or.inr ⟨_, rfl⟩))
  | ok config =>
    cases hd : c.destination? with
    | none =>
      by_cases hpaths : ∃ p, c.paths = [p] ∧ tree.isFile p = true
      · obtain ⟨p, hpaths, hfile⟩ := hpaths
        exact Or.inr (Or.inl ⟨config, p, hload, hd, hpaths, hfile⟩)
      · exact Or.inl ⟨_, .noDestination hload hd hpaths⟩
    | some d =>
      cases hcollect : tree.collect tools.readPatterns config (here tree) c.paths with
      | ok files => exact Or.inr (Or.inr (Or.inl ⟨config, d, files, ⟨hload, hcollect⟩, rfl⟩))
      | error e =>
        cases e with
        | config e =>
          obtain ⟨hfilter, before, p, after, hpaths, hbefore, hp, rfl⟩ :=
            collect_eq_config_error_iff.mp hcollect
          exact Or.inl ⟨_, .missing hload hd hfilter hpaths hbefore hp⟩
        | pattern e =>
          rw [here] at hload hcollect
          rw [commandReport, hload, hd]
          dsimp only
          rw [batchReport, hcollect]
          exact Or.inr (Or.inr (Or.inr ⟨_, rfl⟩))

/-! ### The status -/

theorem statusOf_eq_ok_iff {x : Except RunError (List FileOutcome)} {n : Nat} : statusOf x = .ok n ↔
    ∃ outcomes, x = .ok outcomes ∧ n = if outcomes.all FileOutcome.ok then 0 else 1 := by
  cases x with
  | error e => exact ⟨nofun, fun ⟨_, h, _⟩ => nomatch h⟩
  | ok outcomes =>
    constructor
    · intro h
      exact ⟨outcomes, rfl, (Except.ok.inj h).symm⟩
    · rintro ⟨_, h, rfl⟩
      rw [← Except.ok.inj h]
      rfl

theorem status_of_processed (h : Processed tools tree c outcomes) :
    (commandReport tools tree c).status = .ok (if outcomes.all FileOutcome.ok then 0 else 1) := by
  cases h with
  | run h hd houtcomes =>
    rw [status_of_concerns h hd, houtcomes]
    rfl
  | single h ho =>
    rw [commandReport_of_shows h, status_singleReport, List.mapM_cons, ho]
    rfl

/-- Where a status comes from. -/
theorem refused_or_processed_of_status {n : Nat} (h : (commandReport tools tree c).status = .ok n) :
    (∃ e, Refused tools tree c e ∧ n = 2) ∨
    ∃ outcomes, Processed tools tree c outcomes ∧ n = if outcomes.all FileOutcome.ok then 0 else 1 := by
  rcases commandReport_cases tools tree c with ⟨e, hrefused⟩ | ⟨config, p, hshows⟩ |
    ⟨config, d, files, hconcerns, hd⟩ | ⟨crash, hcrash⟩
  · rw [commandReport_of_refused hrefused] at h
    exact Or.inl ⟨e, hrefused, (Except.ok.inj h).symm⟩
  · rw [commandReport_of_shows hshows, status_singleReport, List.mapM_cons] at h
    obtain ⟨outcomes, houtcomes, hn⟩ := statusOf_eq_ok_iff.mp h
    obtain ⟨o, ho, houtcomes⟩ := bind_eq_ok_iff.mp houtcomes
    obtain rfl : [o] = outcomes := Except.ok.inj houtcomes
    exact Or.inr ⟨[o], .single hshows ho, hn⟩
  · rw [status_of_concerns hconcerns hd] at h
    obtain ⟨outcomes, houtcomes, hn⟩ := statusOf_eq_ok_iff.mp h
    exact Or.inr ⟨outcomes, .run hconcerns hd houtcomes, hn⟩
  · rw [hcrash] at h
    cases h

/-! ### What is left changed -/

theorem tree_singleReport {config : Config} {p : Path} :
    (singleReport tools.parse tree c config p).tree = tree := by
  rw [singleReport]
  cases (tree.transformFile tools.parse config.marker p).outcome with
  | ok r => rfl
  | error failure =>
    rcases failure with e | f
    · rfl
    · cases f <;> rfl

/-- A command leaves the tree as it is, or as a run over its files does. -/
theorem tree_of_commandReport (tools : Toolkit) (tree : FileTree) (c : Command) :
    (commandReport tools tree c).tree = tree ∨
    ∃ config d files, c.Concerns tools tree config files ∧ c.destination? = some d ∧
      (commandReport tools tree c).tree =
        (finalState (tree.run tools.parse config (here tree) d files)).tree := by
  rcases commandReport_cases tools tree c with ⟨e, hrefused⟩ | ⟨config, p, hshows⟩ |
    ⟨config, d, files, hconcerns, hd⟩ | ⟨crash, hcrash⟩
  · exact Or.inl (by rw [commandReport_of_refused hrefused]; rfl)
  · exact Or.inl (by rw [commandReport_of_shows hshows, tree_singleReport])
  · refine Or.inr ⟨config, d, files, hconcerns, hd, ?_⟩
    rw [commandReport_of_concerns hconcerns hd]
    cases tree.run tools.parse config (here tree) d files <;> rfl
  · exact Or.inl (by rw [hcrash])

/-- Nothing is changed if nothing says where files go, or if they are only checked. -/
theorem tree_of_unwritten (hd : c.destination? = none ∨ c.destination? = some .nowhere) :
    (commandReport tools tree c).tree = tree := by
  rcases tree_of_commandReport tools tree c with h | ⟨config, d, files, _, hd', h⟩
  · exact h
  · rw [hd', Option.some.injEq] at hd
    obtain rfl : d = .nowhere := hd.resolve_left nofun
    rw [h, tree_of_run_nowhere]

/-- In place, the files that are rewritten are changed. -/
theorem rewritten_of_ne {l : Location} (hd : c.destination? = some .inPlace)
    (hne : (commandReport tools tree c).tree.entryAt? l ≠ tree.entryAt? l) :
    Rewritten tools tree c l ∧ (∃ old, tree.entryAt? l = some (.file old)) ∧
      ∃ new, (commandReport tools tree c).tree.entryAt? l = some (.file new) := by
  rcases tree_of_commandReport tools tree c with h | ⟨config, d, files, hconcerns, hd', h⟩
  · exact absurd (by rw [h]) hne
  · obtain rfl : d = .inPlace := Option.some.inj (hd'.symm.trans hd)
    have hconfined : Confined tree .inPlace files
        (finalState (tree.run tools.parse config (here tree) .inPlace files)) := confined_run nofun
    rw [h] at hne ⊢
    obtain ⟨⟨o, ho, hchanged, hl⟩, _, hnew⟩ | ⟨hmade, _⟩ :=
      (hconfined.footprint.changes l).of_ne hne
    · have hfile := hconfined.paths o ho
      exact ⟨⟨config, files, hconcerns, o, ho, hfile, hchanged, hl⟩,
        hl ▸ entryAt?_of_isFile (isFile_of_collect hconcerns.2 o.path hfile), hnew⟩
    · exact absurd hmade (Set.notMem_empty l)

/-- Below a directory, files are written at paths that do not lead up from there, and directories are
made on the way to it or at such paths. -/
theorem below_of_ne {directory : Path} {l : Location} (hdir : tree.WorksInDirectory)
    (hd : c.destination? = some (.below directory))
    (hne : (commandReport tools tree c).tree.entryAt? l ≠ tree.entryAt? l) :
    (l ∈ tree.placesBelow directory ∧
      (tree.entryAt? l = none ∨ ∃ old, tree.entryAt? l = some (.file old)) ∧
      ∃ new, (commandReport tools tree c).tree.entryAt? l = some (.file new)) ∨
    (l ∈ tree.onTheWay directory ∪ tree.placesBelow directory ∧ tree.entryAt? l = none ∧
      (commandReport tools tree c).tree.entryAt? l = some .directory) := by
  rcases tree_of_commandReport tools tree c with h | ⟨config, d, files, hconcerns, hd', h⟩
  · exact absurd (by rw [h]) hne
  · obtain rfl : d = .below directory := Option.some.inj (hd'.symm.trans hd)
    have hconfined : Confined tree (.below directory) files
        (finalState (tree.run tools.parse config (here tree) (.below directory) files)) :=
      confined_run fun _ => hdir
    rw [h] at hne ⊢
    exact (hconfined.footprint.changes l).of_ne hne

/-! ### The contract -/

/-- What a command answers with and what it leaves changed. -/
structure Contract (tools : Toolkit) (tree : FileTree) (c : Command) (r : Report) : Prop where
  refused_iff : r.status = .ok 2 ↔ ∃ e, Refused tools tree c e
  /-- A command that is refused changes nothing and prints nothing but the reason. -/
  refused : ∀ e, Refused tools tree c e →
    r.tree = tree ∧ r.output = "" ∧ r.messages = messageLine e.message
  failed_iff : r.status = .ok 1 ↔
    ∃ outcomes, Processed tools tree c outcomes ∧ ∃ o ∈ outcomes, o.ok = false
  succeeded_iff : r.status = .ok 0 ↔
    ∃ outcomes, Processed tools tree c outcomes ∧ ∀ o ∈ outcomes, o.ok = true
  status_le : ∀ n, r.status = .ok n → n ≤ 2
  unwritten : c.destination? = none ∨ c.destination? = some .nowhere → r.tree = tree
  inPlace : c.destination? = some .inPlace → ∀ l, r.tree.entryAt? l ≠ tree.entryAt? l →
    Rewritten tools tree c l ∧ (∃ old, tree.entryAt? l = some (.file old)) ∧
      ∃ new, r.tree.entryAt? l = some (.file new)
  below : ∀ directory, c.destination? = some (.below directory) → tree.WorksInDirectory →
    ∀ l, r.tree.entryAt? l ≠ tree.entryAt? l →
      (l ∈ tree.placesBelow directory ∧
        (tree.entryAt? l = none ∨ ∃ old, tree.entryAt? l = some (.file old)) ∧
        ∃ new, r.tree.entryAt? l = some (.file new)) ∨
      (l ∈ tree.onTheWay directory ∪ tree.placesBelow directory ∧ tree.entryAt? l = none ∧
        r.tree.entryAt? l = some .directory)

theorem contract_commandReport (tools : Toolkit) (tree : FileTree) (c : Command) :
    Contract tools tree c (commandReport tools tree c) := by
  have hall : ∀ {outcomes : List FileOutcome}, outcomes.all FileOutcome.ok = false ↔
      ∃ o ∈ outcomes, o.ok = false := by
    intro outcomes
    rw [List.all_eq_false]
    simp
  constructor
  case refused_iff =>
    constructor
    · intro h
      obtain ⟨e, hrefused, _⟩ | ⟨outcomes, _, hn⟩ := refused_or_processed_of_status h
      · exact ⟨e, hrefused⟩
      · split at hn <;> cases hn
    · rintro ⟨e, hrefused⟩
      rw [commandReport_of_refused hrefused]
      rfl
  case refused =>
    intro e hrefused
    rw [commandReport_of_refused hrefused]
    exact ⟨rfl, rfl, rfl⟩
  case failed_iff =>
    constructor
    · intro h
      obtain ⟨_, _, hn⟩ | ⟨outcomes, hprocessed, hn⟩ := refused_or_processed_of_status h
      · cases hn
      · refine ⟨outcomes, hprocessed, hall.mp (Bool.eq_false_iff.mpr fun hok => ?_)⟩
        rw [if_pos hok] at hn
        cases hn
    · rintro ⟨outcomes, hprocessed, hfailed⟩
      rw [status_of_processed hprocessed, hall.mpr hfailed]
      rfl
  case succeeded_iff =>
    constructor
    · intro h
      obtain ⟨_, _, hn⟩ | ⟨outcomes, hprocessed, hn⟩ := refused_or_processed_of_status h
      · cases hn
      · refine ⟨outcomes, hprocessed, List.all_eq_true.mp ?_⟩
        by_contra hfailed
        rw [if_neg hfailed] at hn
        cases hn
    · rintro ⟨outcomes, hprocessed, hok⟩
      rw [status_of_processed hprocessed, List.all_eq_true.mpr hok]
      rfl
  case status_le =>
    intro n h
    obtain ⟨_, _, rfl⟩ | ⟨_, _, rfl⟩ := refused_or_processed_of_status h
    · exact le_refl 2
    · split <;> omega
  case unwritten => exact tree_of_unwritten
  case inPlace => exact fun hd _ => rewritten_of_ne hd
  case below => exact fun _ hd hdir _ => below_of_ne hdir hd

/-- The status says whether a command was refused or some file failed, a command that is refused changes
nothing, and any other changes only what it may: nothing if it only checks or prints, the files that it
rewrites in place, or what lies below the directory that files go to. That is so with any toolkit. -/
theorem report_keeps_contract {tools : Toolkit} {version : String} {tree : FileTree}
    {args : List String} {c : Command} (hargs : invocation false args = .run c) :
    Contract tools tree c (report tools version tree args) := by
  have hreport : report tools version tree args = commandReport tools tree c := by rw [report, hargs]
  rw [hreport]
  exact contract_commandReport tools tree c

end CommandLine

namespace SmallFolder

open CommandLine

theorem worksInDirectory : tree.WorksInDirectory := by
  refine ⟨fun l hl => ?_, by decide⟩
  rcases List.prefix_cons_iff.mp hl with rfl | ⟨rest, rfl, hrest⟩
  · rfl
  · rw [List.prefix_nil.mp hrest]
    decide

/-- The arguments to expand the page below the directory. -/
def expandBelowArgs : List String := ["transform", "a", "--out-dir", "out"]

theorem invocation_expandBelowArgs : invocation false expandBelowArgs =
    .run { expandPage with outDir := some directory } := by cbv

end SmallFolder

open SmallFolder in
/-- The page of the small folder is expanded below the directory: the status is 0, and files are only
written below the directory. -/
theorem CommandLine.report_keeps_contract_smallFolder :
    (report tools "0" tree expandBelowArgs).status = .ok 0 ∧
    ∀ l bytes, (report tools "0" tree expandBelowArgs).tree.entryAt? l = some (.file bytes) →
      tree.entryAt? l = some (.file bytes) ∨ l ∈ tree.placesBelow directory := by
  have hcontract : Contract tools tree _ (report tools "0" tree expandBelowArgs) :=
    report_keeps_contract invocation_expandBelowArgs
  obtain ⟨filter, hfilter⟩ := exists_filter
  have hconcerns : checkPage.Concerns tools tree config [page] :=
    ⟨loadConfig, collect_of_isFile hfilter isFile.1⟩
  have houtcomes : tree.outcomes tools.parse config (here tree) (.below directory) [page] =
      .ok [⟨page, .ok true⟩] := by
    have hexpanded : (tree.transformFile tools.parse config.marker page).outcome = _ := expanded_page
    rw [(clear_of_concerns hconcerns).outcomes_eq startsAtPlace (isFile_of_collect hconcerns.2)
      (Or.inr (Or.inr rfl)), List.mapM_cons, outcomeOf, hexpanded]
    rfl
  refine ⟨hcontract.succeeded_iff.mpr ⟨_, .run hconcerns rfl houtcomes, ?_⟩, fun l bytes hl => ?_⟩
  · exact List.forall_mem_singleton.mpr rfl
  · by_cases hne : tree.entryAt? l = some (.file bytes)
    · exact Or.inl hne
    · obtain ⟨hbelow, _⟩ | ⟨_, _, hmade⟩ := hcontract.below directory rfl worksInDirectory l
        fun h => hne (h.symm.trans hl)
      · exact Or.inr hbelow
      · cases hl.symm.trans hmade

end CondMarkup
