import CondMarkup.Proofs.ExitStatus

/-!
The files that named paths stand for. Where no links are below the working directory, a relative path leads
to the place that its names spell. So a file is filtered by the same path from whichever directory it is
found, and a directory stands for the chosen files below it, which are those that a directory above it
stands for and that lie below it. Several paths stand for their files one after the other.
-/

namespace CondMarkup

/-! ### The order of paths -/

theorem textLe_antisymm {a b : String} (hab : textLe a b = true) (hba : textLe b a = true) : a = b := by
  simp only [textLe, decide_eq_true_eq] at hab hba
  exact String.le_antisymm hab hba

namespace Path

variable {a b : String} {as bs cs : List String}

/-- The first names decide unless they are the same. -/
theorem partsLe_cons_iff : partsLe (a :: as) (b :: bs) = true ↔
    (a ≠ b ∧ textLe a b = true) ∨ (a = b ∧ partsLe as bs = true) := by
  rw [partsLe]
  by_cases h : a = b
  · simp [h]
  · simp [h]

theorem partsLe_total (as bs : List String) : partsLe as bs = true ∨ partsLe bs as = true := by
  induction as generalizing bs with
  | nil => exact Or.inl rfl
  | cons a as ih =>
    cases bs with
    | nil => exact Or.inr rfl
    | cons b bs =>
      rw [partsLe_cons_iff, partsLe_cons_iff]
      by_cases hab : a = b
      · exact (ih bs).imp (fun h => Or.inr ⟨hab, h⟩) fun h => Or.inr ⟨hab.symm, h⟩
      · exact (textLe_total a b).imp (fun h => Or.inl ⟨hab, h⟩) fun h => Or.inl ⟨Ne.symm hab, h⟩

theorem partsLe_antisymm (hab : partsLe as bs = true) (hba : partsLe bs as = true) : as = bs := by
  induction as generalizing bs with
  | nil =>
    cases bs with
    | nil => rfl
    | cons => cases hba
  | cons a as ih =>
    cases bs with
    | nil => cases hab
    | cons b bs =>
      rcases partsLe_cons_iff.mp hab with ⟨hne, hle⟩ | ⟨rfl, hle⟩
      · rcases partsLe_cons_iff.mp hba with ⟨_, hge⟩ | ⟨heq, _⟩
        · exact absurd (textLe_antisymm hle hge) hne
        · exact absurd heq.symm hne
      · rcases partsLe_cons_iff.mp hba with ⟨hne, _⟩ | ⟨_, hge⟩
        · exact absurd rfl hne
        · rw [ih hle hge]

theorem partsLe_trans (hab : partsLe as bs = true) (hbc : partsLe bs cs = true) :
    partsLe as cs = true := by
  induction as generalizing bs cs with
  | nil => rfl
  | cons a as ih =>
    cases bs with
    | nil => cases hab
    | cons b bs =>
      cases cs with
      | nil => cases hbc
      | cons c cs =>
        rw [partsLe_cons_iff]
        rcases partsLe_cons_iff.mp hab with ⟨hne, hle⟩ | ⟨rfl, hle⟩
        · rcases partsLe_cons_iff.mp hbc with ⟨_, hle'⟩ | ⟨rfl, _⟩
          · refine Or.inl ⟨fun hac => hne ?_, textLe_trans hle hle'⟩
            exact textLe_antisymm hle (hac ▸ hle')
          · exact Or.inl ⟨hne, hle⟩
        · exact (partsLe_cons_iff.mp hbc).imp_right fun h => ⟨h.1, ih hle h.2⟩

/-- Paths are ordered like their parts with the root in front. -/
theorem le_eq_partsLe (p q : Path) : p.le q = partsLe (p.root :: p.parts) (q.root :: q.parts) := rfl

theorem pairwise_mergeSort (ps : List Path) :
    (ps.mergeSort le).Pairwise fun p q => p.le q = true := by
  refine List.pairwise_mergeSort (fun p q r hpq hqr => ?_) (fun p q => ?_) ps
  · rw [le_eq_partsLe] at hpq hqr ⊢
    exact partsLe_trans hpq hqr
  · rw [Bool.or_eq_true, le_eq_partsLe, le_eq_partsLe]
    exact partsLe_total _ _

/-- Two lists of the same paths in order, none of them twice, are the same list. -/
theorem eq_of_pairwise {ps qs : List Path} (hps : ps.Pairwise fun p q => p.le q = true)
    (hqs : qs.Pairwise fun p q => p.le q = true) (hp : ps.Nodup) (hq : qs.Nodup)
    (h : ∀ p, p ∈ ps ↔ p ∈ qs) : ps = qs := by
  refine List.Perm.eq_of_pairwise (fun p q _ _ hpq hqp => ?_) hps hqs
    ((List.perm_ext_iff_of_nodup hp hq).mpr h)
  obtain ⟨hroot, hparts⟩ := List.cons.inj (partsLe_antisymm hpq hqp)
  rw [Path.mk.injEq]
  exact ⟨hroot, hparts⟩

end Path

namespace FileTree

/-- One entry is at each place, no name leads up, and at and below the working directory there are no
links. -/
structure LinkFree (tree : FileTree) : Prop where
  distinct : (tree.entries.map Prod.fst).Nodup
  plain : ∀ l ∈ tree.entries.map Prod.fst, ".." ∉ l
  noLink : ∀ l, tree.workingDirectory <+: l → ∀ target, tree.entryAt? l ≠ some (.link target)

/-- The path leads to a file that lies below the directory. -/
def FileBelow (tree : FileTree) (directory p : Path) : Prop :=
  p.Descends ∧ directory.parts <+: p.parts ∧ tree.isFile p = true

theorem mem_below_iff {tree : FileTree} {place l : Location} :
    l ∈ tree.below place ↔ l ∈ tree.entries.map Prod.fst ∧ place <+: l ∧ l ≠ place := by
  rw [below, List.mem_filter, Bool.and_eq_true, List.isPrefixOf_iff_prefix, decide_eq_true_eq]

/-- From the path of what is below a directory, its place is found back. -/
theorem append_parts_join {above l : Location} {directory : Path}
    (h : above ++ directory.parts <+: l) :
    above ++ (directory.join { parts := l.drop (above ++ directory.parts).length }).parts = l := by
  obtain ⟨rest, rfl⟩ := h
  rw [List.drop_left, Path.join, if_neg (by simp [Path.isAbsolute]), List.append_assoc]

namespace LinkFree

variable {tree : FileTree} (free : tree.LinkFree) {links : Nat} {start : Location}
  {names : List String} {root directory inner p : Path} {filter : FileFilter}
include free

/-! ### Places -/

theorem resolveNames_eq (hstart : tree.workingDirectory <+: start) (hnames : ".." ∉ names) :
    tree.resolveNames links start names = start ++ names := by
  induction names generalizing start with
  | nil => rw [resolveNames, List.append_nil]
  | cons name rest ih =>
    rw [List.mem_cons, not_or] at hnames
    have hplace : tree.workingDirectory <+: start ++ [name] :=
      hstart.trans (List.prefix_append start [name])
    rw [resolveNames_plain (Ne.symm hnames.1) (free.noLink _ hplace), ih hplace hnames.2,
      List.append_assoc, List.singleton_append]

theorem resolve_eq (hp : p.Descends) :
    tree.resolve p = { root := "/", parts := tree.workingDirectory ++ p.parts } := by
  have hrelative : tree.startOf p = tree.workingDirectory := by
    rw [startOf, if_neg (by simp [Path.isAbsolute, hp.1])]
  rw [resolve, hrelative, free.resolveNames_eq (List.prefix_refl _) hp.2]

theorem place_eq (hp : p.Descends) : tree.place p = tree.workingDirectory ++ p.parts := by
  rw [place, free.resolve_eq hp]

/-- From whichever directory a file is found, it is filtered by its path from the project's root. -/
theorem filteredPath_eq
    (hroot : tree.resolve root = { root := "/", parts := tree.workingDirectory })
    (hp : p.Descends) : tree.filteredPath root directory p = p := by
  have hrelative : (tree.resolve p).relativeTo? (tree.resolve root) = some p := by
    rw [relativeTo?_eq_some_iff]
    refine ⟨hp.1, ?_⟩
    rw [free.resolve_eq hp, hroot, Path.join, if_neg (by simp [Path.isAbsolute, hp.1])]
  rw [filteredPath, hrelative, Option.getD_some]

theorem mem_entries_of_isFile (hp : p.Descends) (hfile : tree.isFile p = true) :
    tree.workingDirectory ++ p.parts ∈ tree.entries.map Prod.fst := by
  obtain ⟨bytes, hentry⟩ := entryAt?_of_isFile hfile
  rw [free.place_eq hp, entryAt?] at hentry
  split at hentry
  · cases hentry
  · obtain ⟨e, he, _⟩ := Option.map_eq_some_iff.mp hentry
    exact List.mem_map.mpr ⟨e, List.mem_of_find?_eq_some he, by simpa using List.find?_some he⟩

/-! ### What is below a directory -/

section Below

variable (hdirectory : directory.Descends) (hfound : tree.isDirectory directory = true)
include hdirectory hfound

theorem find_directory : tree.find directory =
    .ok (tree.workingDirectory ++ directory.parts, some .directory) := by
  rw [isDirectory] at hfound
  split at hfound
  · rename_i l hfind
    rw [hfind, (find_eq_ok hfind).1, free.place_eq hdirectory]
  · cases hfound

/-- Of the files below a directory all that are chosen are taken. -/
theorem filesAt_directory :
    tree.filesAt filter root directory = .ok (tree.chosenBelow filter root directory) := by
  have hfile : tree.isFile directory = false := by
    rw [isFile, free.find_directory hdirectory hfound]
  rw [filesAt, if_neg (by rw [hfile]; simp), if_pos hfound]

/-- The paths below a directory are those of the places below it. -/
theorem mem_pathsBelow_iff : p ∈ tree.pathsBelow directory ↔
    p.root = "" ∧ directory.parts <+: p.parts ∧ p.parts ≠ directory.parts ∧
      tree.workingDirectory ++ p.parts ∈ tree.entries.map Prod.fst := by
  simp only [pathsBelow, free.find_directory hdirectory hfound]
  rw [List.mem_mergeSort, List.mem_map]
  constructor
  · rintro ⟨l, hl, rfl⟩
    obtain ⟨hmem, hbelow, hne⟩ := mem_below_iff.mp hl
    have hparts := append_parts_join hbelow
    refine ⟨hdirectory.1, ?_, fun heq => hne ?_, by rwa [hparts]⟩
    · rw [← hparts, List.prefix_append_right_inj] at hbelow
      exact hbelow
    · rw [← hparts, heq]
  · rintro ⟨hroot, ⟨rest, hrest⟩, hne, hmem⟩
    refine ⟨tree.workingDirectory ++ p.parts, mem_below_iff.mpr ⟨hmem, ?_, fun heq => hne ?_⟩, ?_⟩
    · rw [← hrest, List.prefix_append_right_inj]
      exact List.prefix_append _ _
    · exact List.append_cancel_left heq
    · rw [Path.join, if_neg (by simp [Path.isAbsolute]), Path.mk.injEq, ← hrest, ← List.append_assoc,
        List.drop_left]
      exact ⟨hdirectory.1.trans hroot.symm, rfl⟩

theorem nodup_pathsBelow : (tree.pathsBelow directory).Nodup := by
  simp only [pathsBelow, free.find_directory hdirectory hfound]
  rw [(List.mergeSort_perm _ _).nodup_iff]
  -- the place is found back from the path
  refine List.Nodup.of_map (fun p : Path => tree.workingDirectory ++ p.parts) ?_
  rw [List.map_map, List.map_congr_left (g := id) fun l hl => ?_, List.map_id]
  · exact free.distinct.filter _
  · exact append_parts_join (mem_below_iff.mp hl).2.1

theorem pairwise_pathsBelow : (tree.pathsBelow directory).Pairwise fun p q => p.le q = true := by
  simp only [pathsBelow, free.find_directory hdirectory hfound]
  exact Path.pairwise_mergeSort _

variable (hroot : tree.resolve root = { root := "/", parts := tree.workingDirectory })
include hroot

/-- A directory stands for the files below it of which the paths from the root are chosen. -/
theorem mem_chosenBelow_iff : p ∈ tree.chosenBelow filter root directory ↔
    tree.FileBelow directory p ∧ filter.matchesPath p = true := by
  rw [chosenBelow, List.mem_filter, free.mem_pathsBelow_iff hdirectory hfound, Bool.and_eq_true]
  constructor
  · rintro ⟨⟨hrelative, hbelow, _, hmem⟩, hfile, hmatches⟩
    have hdescends : p.Descends :=
      ⟨hrelative, fun hup => free.plain _ hmem (List.mem_append_right _ hup)⟩
    rw [free.filteredPath_eq hroot hdescends] at hmatches
    exact ⟨⟨hdescends, hbelow, hfile⟩, hmatches⟩
  · rintro ⟨⟨hdescends, hbelow, hfile⟩, hmatches⟩
    refine ⟨⟨hdescends.1, hbelow, fun heq => ?_, free.mem_entries_of_isFile hdescends hfile⟩, hfile, ?_⟩
    · -- a file is no directory
      obtain ⟨bytes, hfind⟩ := isFile_iff.mp hfile
      have hsame : p = directory := by
        rw [Path.mk.injEq]
        exact ⟨hdescends.1.trans hdirectory.1.symm, heq⟩
      rw [isDirectory, ← hsame, hfind] at hfound
      cases hfound
    · rwa [free.filteredPath_eq hroot hdescends]

/-- A directory stands for those files of a directory above it that lie below it. -/
theorem chosenBelow_inside (hinner : inner.Descends) (hfoundInner : tree.isDirectory inner = true)
    (hinside : directory.parts <+: inner.parts) :
    tree.chosenBelow filter root inner =
      (tree.chosenBelow filter root directory).filter fun p => inner.parts.isPrefixOf p.parts := by
  refine Path.eq_of_pairwise ((free.pairwise_pathsBelow hinner hfoundInner).filter _)
    (((free.pairwise_pathsBelow hdirectory hfound).filter _).filter _)
    ((free.nodup_pathsBelow hinner hfoundInner).filter _)
    (((free.nodup_pathsBelow hdirectory hfound).filter _).filter _) fun p => ?_
  rw [List.mem_filter, free.mem_chosenBelow_iff hinner hfoundInner hroot,
    free.mem_chosenBelow_iff hdirectory hfound hroot, List.isPrefixOf_iff_prefix]
  constructor
  · rintro ⟨⟨hdescends, hbelow, hfile⟩, hmatches⟩
    exact ⟨⟨⟨hdescends, hinside.trans hbelow, hfile⟩, hmatches⟩, hbelow⟩
  · rintro ⟨⟨⟨hdescends, _, hfile⟩, hmatches⟩, hbelow⟩
    exact ⟨⟨hdescends, hbelow, hfile⟩, hmatches⟩

end Below

end LinkFree

/-! ### Several paths -/

section Paths

variable {tree : FileTree} {read : PatternReader} {config : Config} {filter : FileFilter}
  {root p : Path} {paths : List Path} (hfilter : config.filter read = .ok filter)
include hfilter

theorem collect_singleton :
    tree.collect read config root [p] = tree.filesAt filter root p := by
  rw [collect, hfilter]
  simp only [List.mapM_cons, List.mapM_nil]
  cases tree.filesAt filter root p with
  | error e => rfl
  | ok files => exact congrArg Except.ok (by simp)

/-- Several paths stand for what each of them stands for, in order. -/
theorem collect_eq_flatten : tree.collect read config root paths =
    (paths.mapM fun p => tree.collect read config root [p]).map List.flatten := by
  have hsingle : (fun p => tree.collect read config root [p]) = tree.filesAt filter root :=
    funext fun p => collect_singleton hfilter
  rw [hsingle, collect, hfilter]
  dsimp only
  cases paths.mapM (tree.filesAt filter root) <;> rfl

theorem exists_collect_iff : (∃ files, tree.collect read config root paths = .ok files) ↔
    ∀ p ∈ paths, tree.isFile p = true ∨ tree.isDirectory p = true := by
  have hfound : (∀ p ∈ paths, tree.isFile p = true ∨ tree.isDirectory p = true) ↔
      ∀ p ∈ paths, ∃ files, tree.filesAt filter root p = .ok files :=
    forall₂_congr fun p _ => exists_filesAt_iff.symm
  rw [hfound, collect, hfilter]
  constructor
  · rintro ⟨files, h⟩ p hp
    obtain ⟨parts, hparts, _⟩ := bind_eq_ok_iff.mp h
    obtain ⟨pairs, rfl, rfl, hpairs⟩ := exists_pairs_of_mapM hparts
    obtain ⟨⟨q, found⟩, hmem, rfl⟩ := List.mem_map.mp hp
    exact ⟨found, hpairs _ hmem⟩
  · intro h
    exact exists_bind_eq_ok (exists_mapM_eq_ok h) fun parts => ⟨parts.flatten, rfl⟩

/-- With a filter, the only errors are those of paths that lead nowhere. -/
theorem exists_config_error_iff : (∃ e, tree.collect read config root paths = .error (.config e)) ↔
    ∃ p ∈ paths, tree.isFile p = false ∧ tree.isDirectory p = false := by
  constructor
  · rintro ⟨e, h⟩
    obtain ⟨_, before, p, after, rfl, _, hp, _⟩ := collect_eq_config_error_iff.mp h
    exact ⟨p, by simp, hp⟩
  · rintro ⟨p, hp, hfile, hdirectory⟩
    cases hcollect : tree.collect read config root paths with
    | ok files =>
      rcases (exists_collect_iff hfilter).mp ⟨files, hcollect⟩ p hp with h | h
      · rw [hfile] at h
        cases h
      · rw [hdirectory] at h
        cases h
    | error e =>
      rw [collect, hfilter] at hcollect
      rcases bind_eq_error_iff.mp hcollect with h | ⟨_, _, h⟩
      · obtain ⟨_, q, _, _, _, hq⟩ := mapM_eq_error_iff.mp h
        exact ⟨_, congrArg Except.error (filesAt_eq_error_iff.mp hq).2⟩
      · cases h

end Paths

/-- Files are collected by their paths from the working directory, whatever patterns mean, if that is the
root of the project and no links are below it. A directory stands for the files below it that the filter
chooses, each once and in the order of their paths, and a directory within it for those of them that are
below the latter. Several paths stand for the files of each of them in order; a file that is named stands
for itself; and the paths are refused exactly if one of them leads neither to a file nor to a
directory. -/
theorem collect_compositional {tree : FileTree} {read : PatternReader} {config : Config}
    {filter : FileFilter} {root directory inner : Path} (free : tree.LinkFree)
    (hfilter : config.filter read = .ok filter)
    (hroot : tree.resolve root = { root := "/", parts := tree.workingDirectory })
    (hdirectory : directory.Descends) (hfound : tree.isDirectory directory = true)
    (hinner : inner.Descends) (hfoundInner : tree.isDirectory inner = true)
    (hinside : directory.parts <+: inner.parts) :
    (∃ files, tree.collect read config root [directory] = .ok files ∧
      (∀ p, p ∈ files ↔ tree.FileBelow directory p ∧ filter.matchesPath p = true) ∧
      files.Nodup ∧ files.Pairwise (fun p q => p.le q = true) ∧
      tree.collect read config root [inner] =
        .ok (files.filter fun p => inner.parts.isPrefixOf p.parts)) ∧
    ∀ paths,
      tree.collect read config root paths =
        (paths.mapM fun p => tree.collect read config root [p]).map List.flatten ∧
      (∀ p, tree.isFile p = true → tree.collect read config root [p] = .ok [p]) ∧
      ((∃ e, tree.collect read config root paths = .error (.config e)) ↔
        ∃ p ∈ paths, tree.isFile p = false ∧ tree.isDirectory p = false) := by
  constructor
  · rw [collect_singleton hfilter, free.filesAt_directory hdirectory hfound,
      collect_singleton hfilter, free.filesAt_directory hinner hfoundInner,
      free.chosenBelow_inside hdirectory hfound hroot hinner hfoundInner hinside]
    exact ⟨_, rfl, fun p => free.mem_chosenBelow_iff hdirectory hfound hroot,
      (free.nodup_pathsBelow hdirectory hfound).filter _,
      (free.pairwise_pathsBelow hdirectory hfound).filter _, rfl⟩
  · exact fun paths => ⟨collect_eq_flatten hfilter, fun p hfile => collect_of_isFile hfilter hfile,
      exists_config_error_iff hfilter⟩

end FileTree

namespace NestedFolder

/-- A project of two directories, the working directory. One of its files is of no kind that is chosen. -/
def tree : FileTree where
  entries := [(["p"], .directory), (["p", "src"], .directory), (["p", "src", "b.ts"], .file []),
    (["p", "src", "ui"], .directory), (["p", "src", "ui", "c.jsx"], .file []),
    (["p", "src", "a.tsx"], .file [])]
  workingDirectory := ["p"]

def root : Path := { root := "/", parts := ["p"] }

def source : Path := { parts := ["src"] }

def inner : Path := { parts := ["src", "ui"] }

/-- The filter of the default configuration. -/
def filter : FileFilter where
  included := SmallFolder.takesPath ["*.tsx", "*.jsx"]
  excluded := some (SmallFolder.takesPath ["node_modules/"])

theorem linkFree : tree.LinkFree where
  distinct := by decide
  plain := by decide
  noLink := by
    intro l _ target hlink
    rw [FileTree.entryAt?] at hlink
    split at hlink
    · cases hlink
    · obtain ⟨e, he, hentry⟩ := Option.map_eq_some_iff.mp hlink
      have hnone : ∀ e ∈ tree.entries, ∀ target, e.2 ≠ .link target := by
        simp [tree]
      exact hnone e (List.mem_of_find?_eq_some he) target hentry

end NestedFolder

open NestedFolder in
/-- In the nested folder, the outer directory stands for two files, of which the inner one stands for
those below it. -/
theorem FileTree.collect_compositional_nestedFolder :
    ∃ files, tree.collect SmallFolder.tools.readPatterns {} root [source] = .ok files ∧
      { parts := ["src", "a.tsx"] } ∈ files ∧ { parts := ["src", "ui", "c.jsx"] } ∈ files ∧
      { parts := ["src", "b.ts"] } ∉ files ∧
      tree.collect SmallFolder.tools.readPatterns {} root [inner] =
        .ok (files.filter fun p => ["src", "ui"].isPrefixOf p.parts) := by
  have ha : filter.matchesPath { parts := ["src", "a.tsx"] } = true := by decide +kernel
  have hc : filter.matchesPath { parts := ["src", "ui", "c.jsx"] } = true := by decide +kernel
  have hb : filter.matchesPath { parts := ["src", "b.ts"] } = false := by decide +kernel
  obtain ⟨⟨files, hfiles, hmem, _, _, hinner⟩, _⟩ := @collect_compositional tree
    SmallFolder.tools.readPatterns {} filter root source inner linkFree rfl (by cbv)
    ⟨rfl, by decide⟩ (by cbv) ⟨rfl, by decide⟩ (by cbv) (by decide)
  refine ⟨files, hfiles, (hmem _).mpr ⟨⟨⟨rfl, by decide⟩, by decide, by cbv⟩, ha⟩,
    (hmem _).mpr ⟨⟨⟨rfl, by decide⟩, by decide, by cbv⟩, hc⟩, fun hin => ?_, hinner⟩
  rw [((hmem _).mp hin).2] at hb
  cases hb

end CondMarkup
