import CondMarkup.Proofs.Destinations

/-!
What a run leaves changed. A file is written where a file or nothing was, a directory is made where
nothing was, and everything else stays. In place, the files that are written are those that are
reported as changed; below a directory, they lie at paths from it that do not lead up again, and
directories are made on the way to them only. This holds for every run, also for one that ends early.
-/

namespace CondMarkup

/-- The path leads to `p` or to a directory on the way to `p`. -/
def Path.LeadsTo (q p : Path) : Prop := q.root = p.root ∧ q.parts <+: p.parts

/-- A relative path that does not lead up. -/
def Path.Descends (p : Path) : Prop := p.root = "" ∧ ".." ∉ p.parts

namespace FileTree

/-- The working directory is there, in directories, and its place has no name that leads up. -/
structure WorksInDirectory (tree : FileTree) : Prop where
  directories : ∀ l, l <+: tree.workingDirectory → tree.entryAt? l = some .directory
  plain : ".." ∉ tree.workingDirectory

variable {tree before middle after : FileTree} {S W M : Set Location} {p q : Path}
  {base directory : Path} {d : Destination} {r : Expanded}

theorem WorksInDirectory.startsAtPlace (h : tree.WorksInDirectory) : tree.StartsAtPlace := by
  intro l hl target
  rw [h.directories l hl]
  exact nofun

theorem ChangedAt.worksInDirectory (h : ChangedAt S before after) (hdir : before.WorksInDirectory) :
    after.WorksInDirectory := by
  constructor
  · intro l hl
    rw [h.workingDirectory] at hl
    exact h.directory l (hdir.directories l hl)
  · rw [h.workingDirectory]
    exact hdir.plain

/-! ### Names that lead up -/

section Follow

variable {links : Nat} {start l : Location} {name : String} {names : List String}
  {entry : Option FileEntry}

/-- The place that names lead to has no name that leads up. -/
theorem not_mem_of_follow (hstart : ".." ∉ start)
    (h : tree.follow links start names = .ok (l, entry)) : ".." ∉ l := by
  have hsnoc : ∀ {start : Location} {name : String}, ".." ∉ start → name ≠ ".." →
      ".." ∉ start ++ [name] := by
    intro start name hstart hname hmem
    rcases List.mem_append.mp hmem with hmem | hmem
    · exact hstart hmem
    · exact hname (List.mem_singleton.mp hmem).symm
  fun_induction FileTree.follow tree links start names with
  | case1 => exact (Prod.mk.inj (Except.ok.inj h)).1 ▸ hstart
  | case2 links start names ih => exact ih (fun hmem => hstart (List.mem_of_mem_dropLast hmem)) h
  | case3 _ _ _ hname _ _ | case5 _ _ _ hname _ _ _ =>
    exact (Prod.mk.inj (Except.ok.inj h)).1 ▸ hsnoc hstart hname
  | case4 | case6 | case8 => cases h
  | case7 links start name rest hname place hentry ih => exact ih (hsnoc hstart hname) h
  | case9 start name rest hname place t hentry links path ih =>
    refine ih ?_ h
    split
    · exact List.not_mem_nil
    · exact hstart

/-- Names that end by leading up lead to a directory. -/
theorem directory_of_follow_up (hstart : ∀ m, m <+: start → tree.entryAt? m = some .directory)
    (hlast : names.getLast? = some "..") (h : tree.follow links start names = .ok (l, entry)) :
    entry = some .directory := by
  -- a last name that leads up is not the one that was taken, so it is the last of the others
  have hrest : ∀ {name : String} {rest : List String}, name ≠ ".." →
      (name :: rest).getLast? = some ".." → rest.getLast? = some ".." := by
    intro name rest hname hlast
    cases rest with
    | nil => exact absurd (Option.some.inj hlast) hname
    | cons next rest => rwa [List.getLast?_cons_cons] at hlast
  fun_induction FileTree.follow tree links start names with
  | case1 => cases hlast
  | case2 links start rest ih =>
    have hup : ∀ m, m <+: start.dropLast → tree.entryAt? m = some .directory :=
      fun m hm => hstart m (hm.trans (List.dropLast_prefix start))
    cases rest with
    | nil =>
      rw [FileTree.follow] at h
      rw [← (Prod.mk.inj (Except.ok.inj h)).2]
      exact hup _ (List.prefix_refl _)
    | cons next rest => exact ih hup (by rwa [List.getLast?_cons_cons] at hlast) h
  | case3 _ _ _ hname _ _ | case5 _ _ _ hname _ _ _ => cases hrest hname hlast
  | case4 | case6 | case8 => cases h
  | case7 links start name rest hname place hentry ih =>
    refine ih (fun m hm => ?_) (hrest hname hlast) h
    rcases List.prefix_concat_iff.mp hm with rfl | hm
    · exact hentry
    · exact hstart m hm
  | case9 start name rest hname place t hentry links path ih =>
    refine ih (fun m hm => ?_) ?_ h
    · split at hm
      · rw [List.prefix_nil.mp hm]
        rfl
      · exact hstart m hm
    · rw [List.getLast?_append, hrest hname hlast]
      rfl

/-- Names that are found are resolved by way of their place. -/
theorem resolveNames_append_of_follow (h : tree.follow links start names = .ok (l, entry)) :
    ∃ left, ∀ more, tree.resolveNames links start (names ++ more) =
      tree.resolveNames left l more := by
  fun_induction FileTree.follow tree links start names with
  | case1 links start => exact ⟨links, fun more => by rw [← (Prod.mk.inj (Except.ok.inj h)).1]; rfl⟩
  | case2 links start names ih =>
    obtain ⟨left, hleft⟩ := ih h
    exact ⟨left, fun more => by rw [List.cons_append, resolveNames_up, hleft]⟩
  | case3 links start name hname place hentry | case5 links start name hname place bytes hentry =>
    obtain ⟨rfl, _⟩ := Prod.mk.inj (Except.ok.inj h)
    refine ⟨links, fun more => ?_⟩
    rw [List.singleton_append, resolveNames_plain hname (ne_link_of_eq hentry (by simp))]
  | case4 | case6 | case8 => cases h
  | case7 links start name rest hname place hentry ih =>
    obtain ⟨left, hleft⟩ := ih h
    refine ⟨left, fun more => ?_⟩
    rw [List.cons_append, resolveNames_plain hname (ne_link_of_eq hentry (by simp)), hleft]
  | case9 start name rest hname place t hentry links path ih =>
    obtain ⟨left, hleft⟩ := ih h
    refine ⟨left, fun more => ?_⟩
    rw [List.cons_append, resolveNames_link hname hentry, ← List.append_assoc]
    exact hleft more

end Follow

/-! ### The names of files -/

variable (hdir : tree.WorksInDirectory)

include hdir in
theorem WorksInDirectory.startOf (p : Path) :
    ".." ∉ tree.startOf p ∧ ∀ m, m <+: tree.startOf p → tree.entryAt? m = some .directory := by
  rw [FileTree.startOf]
  split
  · refine ⟨List.not_mem_nil, fun m hm => ?_⟩
    rw [List.prefix_nil.mp hm]
    rfl
  · exact ⟨hdir.plain, hdir.directories⟩

include hdir in
/-- Neither the place of a file nor the last part of a path to it leads up. -/
theorem WorksInDirectory.of_isFile (hfile : tree.isFile p = true) :
    ".." ∉ tree.place p ∧ p.name ≠ ".." := by
  obtain ⟨bytes, hfind⟩ := isFile_iff.mp hfile
  obtain ⟨hplain, hdirectories⟩ := hdir.startOf p
  refine ⟨not_mem_of_follow hplain hfind, fun hname => ?_⟩
  have hlast : p.parts.getLast? = some ".." := by
    rw [Path.name] at hname
    cases hparts : p.parts.getLast? with
    | none =>
      rw [hparts] at hname
      exact absurd hname (by decide)
    | some last =>
      rw [hparts] at hname
      exact congrArg some hname
  cases directory_of_follow_up hdirectories hlast hfind

include hdir in
/-- Below a directory, a file goes to a path that does not lead up from there. -/
theorem WorksInDirectory.exists_destination (hfile : tree.isFile p = true) :
    ∃ q : Path, q.Descends ∧ tree.destination base directory p = directory.join q := by
  obtain ⟨hplace, hname⟩ := hdir.of_isFile hfile
  by_cases houtside : tree.Outside base p
  · refine ⟨p.byName, ⟨rfl, ?_⟩, destination_of_outside houtside⟩
    rw [Path.byName]
    split
    · exact List.not_mem_nil
    · exact fun hmem => hname (List.mem_singleton.mp hmem).symm
  · obtain ⟨q, hroot, hq⟩ := not_outside_iff.mp houtside
    refine ⟨q, ⟨hroot, fun hmem => hplace ?_⟩, destination_of_join hroot hq⟩
    rw [place, hq, Path.join, if_neg (by simp [Path.isAbsolute, hroot])]
    exact List.mem_append_right _ hmem

/-! ### What may become of a place -/

/-- What was at a place stays, or a file is written there if the place is in `W`, or a directory is made
there if the place is in `M`. -/
inductive EntryChange (W M : Set Location) (l : Location) :
    Option FileEntry → Option FileEntry → Prop
  | kept {entry : Option FileEntry} : EntryChange W M l entry entry
  | written {old : Option FileEntry} {bytes : List UInt8} (hl : l ∈ W)
      (hold : old = none ∨ ∃ oldBytes, old = some (.file oldBytes)) :
      EntryChange W M l old (some (.file bytes))
  | made (hl : l ∈ M) : EntryChange W M l none (some .directory)

namespace EntryChange

variable {W' M' : Set Location} {l : Location} {a b c : Option FileEntry}

theorem mono (h : EntryChange W M l a b) (hW : W ⊆ W') (hM : M ⊆ M') : EntryChange W' M' l a b := by
  cases h with
  | kept => exact .kept
  | written hl hold => exact .written (hW hl) hold
  | made hl => exact .made (hM hl)

/-- A file that was written may be written again, and a directory that was made stays. -/
theorem trans (h : EntryChange W M l a b) (h' : EntryChange W M l b c) : EntryChange W M l a c := by
  cases h' with
  | kept => exact h
  | written hl hold =>
    cases h with
    | kept => exact .written hl hold
    | written _ hold' => exact .written hl hold'
    | made => rcases hold with hold | ⟨_, hold⟩ <;> cases hold
  | made hl =>
    cases h with
    | kept => exact .made hl

theorem eq_of_not_mem (h : EntryChange W M l a b) (hl : l ∉ W ∪ M) : b = a := by
  cases h with
  | kept => rfl
  | written hW => exact absurd (Or.inl hW) hl
  | made hM => exact absurd (Or.inr hM) hl

theorem of_directory (h : EntryChange W M l (some .directory) b) : b = some .directory := by
  cases h with
  | kept => rfl
  | written _ hold => rcases hold with hold | ⟨_, hold⟩ <;> cases hold

theorem link_iff {target : String} (h : EntryChange W M l a b) :
    b = some (.link target) ↔ a = some (.link target) := by
  cases h with
  | kept => exact Iff.rfl
  | written _ hold =>
    rcases hold with rfl | ⟨_, rfl⟩
    · exact ⟨nofun, nofun⟩
    · exact ⟨nofun, nofun⟩
  | made => exact ⟨nofun, nofun⟩

theorem of_file {bytes : List UInt8} (h : EntryChange W M l (some (.file bytes)) b) :
    ∃ bytes', b = some (.file bytes') := by
  cases h with
  | kept => exact ⟨bytes, rfl⟩
  | written => exact ⟨_, rfl⟩

/-- Where something else is than before, a file was written or a directory was made. -/
theorem of_ne (h : EntryChange W M l a b) (hne : b ≠ a) :
    (l ∈ W ∧ (a = none ∨ ∃ old, a = some (.file old)) ∧ ∃ new, b = some (.file new)) ∨
    (l ∈ M ∧ a = none ∧ b = some .directory) := by
  cases h with
  | kept => exact absurd rfl hne
  | written hl hold => exact Or.inl ⟨hl, hold, _, rfl⟩
  | made hl => exact Or.inr ⟨hl, rfl, rfl⟩

end EntryChange

/-- The second tree differs from the first by files written in `W` and directories made in `M`. -/
structure Footprint (W M : Set Location) (before after : FileTree) : Prop where
  workingDirectory : after.workingDirectory = before.workingDirectory
  changes : ∀ l, EntryChange W M l (before.entryAt? l) (after.entryAt? l)

theorem footprint_self : Footprint W M tree tree := ⟨rfl, fun _ => .kept⟩

theorem Footprint.mono {W' M' : Set Location} (h : Footprint W M before after) (hW : W ⊆ W')
    (hM : M ⊆ M') : Footprint W' M' before after :=
  ⟨h.workingDirectory, fun l => (h.changes l).mono hW hM⟩

theorem Footprint.trans (h : Footprint W M before middle) (h' : Footprint W M middle after) :
    Footprint W M before after :=
  ⟨h'.workingDirectory.trans h.workingDirectory, fun l => (h.changes l).trans (h'.changes l)⟩

theorem Footprint.changedAt (h : Footprint W M before after) : ChangedAt (W ∪ M) before after where
  workingDirectory := h.workingDirectory
  outside l hl := (h.changes l).eq_of_not_mem hl
  directory l hl := (hl ▸ h.changes l).of_directory
  link l _ := (h.changes l).link_iff
  file l _ hl := (hl ▸ h.changes l).of_file

/-! ### Writing and making -/

theorem footprint_of_write {bytes : List UInt8} (hstart : tree.StartsAtPlace ∨ tree.isFile p = true)
    (h : tree.write p bytes = .ok after) : Footprint {tree.place p} M tree after := by
  obtain ⟨hchanged, hread⟩ := changedAt_of_write hstart h
  refine ⟨hchanged.workingDirectory, fun l => ?_⟩
  by_cases hl : l = tree.place p
  · subst hl
    have hafter := entryAt?_of_read hread
    rw [hchanged.place] at hafter
    rw [hafter]
    refine .written rfl ?_
    cases hbefore : tree.entryAt? (tree.place p) with
    | none => exact Or.inl rfl
    | some entry =>
      cases entry with
      | file old => exact Or.inr ⟨old, rfl⟩
      | directory =>
        rw [hchanged.directory _ hbefore] at hafter
        cases hafter
      | link target =>
        rw [(hchanged.link _ target).mpr hbefore] at hafter
        cases hafter
  · rw [hchanged.outside l hl]
    exact .kept

/-- A directory is made where the path leads to. -/
theorem footprint_of_makeDirectory (h : tree.makeDirectory p = .ok after) :
    Footprint W {tree.place p} tree after := by
  rw [makeDirectory] at h
  split at h
  · cases h
  · rename_i name hname
    obtain ⟨⟨l, entry⟩, hfind, h⟩ := bind_eq_ok_iff.mp h
    split at h
    · cases h
    · rename_i heq
      obtain ⟨rfl, rfl⟩ := Prod.mk.inj heq
      split at h
      · cases h
      · rename_i hfree
        rw [not_or, Option.not_isSome_iff_eq_none] at hfree
        obtain ⟨hup, hnone⟩ := hfree
        have hplace : tree.place p = l ++ [name] := by
          obtain ⟨left, hleft⟩ := resolveNames_append_of_follow hfind
          have hparts : p.parts = p.parent.parts ++ [name] := by
            rw [Path.parent, List.dropLast_append_getLast? name hname]
          rw [place, resolve, hparts]
          refine (hleft [name]).trans ?_
          rw [resolveNames_plain hup (ne_link_of_eq hnone (by simp)), FileTree.resolveNames]
        rw [← pure_eq_ok_iff.mp h, hplace]
        have hchanged : ChangedAt {l ++ [name]} tree (tree.put (l ++ [name]) .directory) :=
          changedAt_put (by simp) (Or.inl hnone)
        refine ⟨hchanged.workingDirectory, fun m => ?_⟩
        by_cases hm : m = l ++ [name]
        · rw [hm, hnone, entryAt?_put_self tree .directory (by simp)]
          exact .made rfl
        · rw [hchanged.outside m hm]
          exact .kept
    · cases h

theorem footprint_of_orExisting {made : Except FileError FileTree}
    (hmade : ∀ t, made = .ok t → Footprint W M tree t) (h : tree.orExisting p made = .ok after) :
    Footprint W M tree after := by
  cases made with
  | ok t => exact Except.ok.inj h ▸ hmade t rfl
  | error e =>
    rw [orExisting] at h
    split at h
    · exact Except.ok.inj h ▸ footprint_self
    · cases h

/-- The places of a path and of the directories on the way to it. -/
def onTheWay (tree : FileTree) (p : Path) : Set Location :=
  {l | ∃ q : Path, q.LeadsTo p ∧ l = tree.place q}

theorem self_mem_onTheWay : tree.place p ∈ tree.onTheWay p := ⟨p, ⟨rfl, p.parts.prefix_refl⟩, rfl⟩

theorem onTheWay_parent_subset : tree.onTheWay p.parent ⊆ tree.onTheWay p := by
  rintro l ⟨q, ⟨hroot, hparts⟩, hl⟩
  exact ⟨q, ⟨hroot, hparts.trans (List.dropLast_prefix p.parts)⟩, hl⟩

theorem ChangedAt.onTheWay (h : ChangedAt S before after) : after.onTheWay p = before.onTheWay p := by
  ext l
  simp only [FileTree.onTheWay, Set.mem_ofPred_eq, h.place]

/-- Directories are made on the way to the path. -/
theorem footprint_of_makeDirectories {depth : Nat} (h : tree.makeDirectories p depth = .ok after) :
    Footprint W (tree.onTheWay p) tree after := by
  have hmake : ∀ {tree made : FileTree} {p : Path},
      tree.orExisting p (tree.makeDirectory p) = .ok made →
        Footprint W (tree.onTheWay p) tree made := fun h =>
    footprint_of_orExisting (fun _ hmade => (footprint_of_makeDirectory hmade).mono subset_rfl
      (Set.singleton_subset_iff.mpr self_mem_onTheWay)) h
  induction depth generalizing p after with
  | zero => exact hmake h
  | succ depth ih =>
    rw [makeDirectories] at h
    split at h
    · obtain ⟨middle, hmiddle, h⟩ := bind_eq_ok_iff.mp h
      have hparents : Footprint W (tree.onTheWay p) tree middle :=
        (ih hmiddle).mono subset_rfl onTheWay_parent_subset
      have hlast : Footprint W (middle.onTheWay p) middle after := hmake h
      rw [hparents.changedAt.onTheWay] at hlast
      exact hparents.trans hlast
    · exact hmake h

/-! ### Delivering files -/

/-- The places of the paths from a directory that do not lead up. -/
def placesBelow (tree : FileTree) (directory : Path) : Set Location :=
  {l | ∃ q : Path, q.Descends ∧ l = tree.place (directory.join q)}

/-- In place, a file that is changed is written itself. -/
theorem footprint_of_deliver_inPlace (hfile : tree.isFile p = true)
    (h : tree.deliver base .inPlace p r = .ok after) :
    Footprint {l | r.changed = true ∧ l = tree.place p} M tree after := by
  rw [deliver] at h
  split at h
  · rename_i hchanged
    refine (footprint_of_write (Or.inr hfile) h).mono (fun l hl => ?_) subset_rfl
    exact ⟨hchanged, hl⟩
  · exact Except.ok.inj h ▸ footprint_self

theorem leadsTo_parent_join (hq : q.Descends) {m : Path} (h : m.LeadsTo (directory.join q).parent) :
    m.LeadsTo directory ∨ ∃ q' : Path, q'.Descends ∧ m = directory.join q' := by
  have hrelative : ∀ {q : Path}, q.root = "" →
      directory.join q = { directory with parts := directory.parts ++ q.parts } := by
    intro q hroot
    rw [Path.join, if_neg (by simp [Path.isAbsolute, hroot])]
  obtain ⟨hroot, hparts⟩ := h
  rw [hrelative hq.1] at hroot hparts
  have hfirst : m.parts <+: directory.parts ++ q.parts :=
    hparts.trans (List.dropLast_prefix (directory.parts ++ q.parts))
  rcases List.prefix_or_prefix_of_prefix hfirst (List.prefix_append _ _) with hm | ⟨rest, hrest⟩
  · exact Or.inl ⟨hroot, hm⟩
  · rw [← hrest, List.prefix_append_right_inj] at hfirst
    refine Or.inr ⟨{ parts := rest }, ⟨rfl, fun hmem => hq.2 (hfirst.subset hmem)⟩, ?_⟩
    rw [hrelative rfl, Path.mk.injEq]
    exact ⟨hroot, hrest.symm⟩

/-- Below a directory, a file is written at a path that does not lead up from there, and directories
are made on the way to the directory or at such paths. -/
theorem footprint_of_deliver_below (hdir : tree.WorksInDirectory) (hfile : tree.isFile p = true)
    (h : tree.deliver base (.below directory) p r = .ok after) :
    Footprint (tree.placesBelow directory)
      (tree.onTheWay directory ∪ tree.placesBelow directory) tree after := by
  obtain ⟨q, hq, htarget⟩ := hdir.exists_destination hfile
  obtain ⟨middle, hmade, hwrite⟩ := bind_eq_ok_iff.mp h
  rw [htarget] at hmade hwrite
  have hmiddle : Footprint (tree.placesBelow directory)
      (tree.onTheWay directory ∪ tree.placesBelow directory) tree middle := by
    refine (footprint_of_makeDirectories hmade).mono subset_rfl ?_
    rintro l ⟨m, hm, rfl⟩
    rcases leadsTo_parent_join hq hm with hm | ⟨q', hq', rfl⟩
    · exact Or.inl ⟨m, hm, rfl⟩
    · exact Or.inr ⟨q', hq', rfl⟩
  have hchanged := hmiddle.changedAt
  refine hmiddle.trans ((footprint_of_write (Or.inl ?_) hwrite).mono ?_ subset_rfl)
  · exact hchanged.startsAtPlace hdir.startsAtPlace
  · rw [hchanged.place]
    exact Set.singleton_subset_iff.mpr ⟨q, hq, rfl⟩

end FileTree

/-! ### Runs -/

/-- The state that a run ends in, early or not. -/
def finalState : Except (RunError × RunState) RunState → RunState
  | .ok s => s
  | .error (_, s) => s

section Runs

variable {parse : SourceParser} {config : Config} {base p : Path} {d : Destination} {s : RunState}
  {files : List Path}

open FileTree

/-- A file leaves the tree as it is, or it is expanded, delivered and reported. -/
theorem runFile_cases (parse : SourceParser) (config : Config) (base : Path) (d : Destination)
    (s : RunState) (p : Path) :
    ((finalState (runFile parse config base d s p)).tree = s.tree ∧
      ∃ new, (finalState (runFile parse config base d s p)).outcomes = s.outcomes ++ new ∧
        ∀ o ∈ new, o.path = p) ∨
    ∃ r, (s.tree.transformFile parse config.marker p).outcome = .ok r ∧
      s.tree.deliver base d p r = .ok (finalState (runFile parse config base d s p)).tree ∧
      (finalState (runFile parse config base d s p)).outcomes = s.outcomes ++ [⟨p, .ok r.changed⟩] := by
  rw [runFile]
  dsimp only
  split
  · exact Or.inl ⟨rfl, [], (List.append_nil _).symm, by simp⟩
  · exact Or.inl ⟨rfl, _, rfl, by simp⟩
  · rename_i r hr
    split
    · exact Or.inl ⟨rfl, [], (List.append_nil _).symm, by simp⟩
    · rename_i tree htree
      exact Or.inr ⟨r, hr, htree, rfl⟩

/-- What each file of a run preserves, the run preserves. -/
theorem finalState_induction {P : RunState → Prop}
    (step : ∀ s, ∀ p ∈ files, P s → P (finalState (runFile parse config base d s p))) (h : P s) :
    P (finalState (runFiles parse config base d s files)) := by
  induction files generalizing s with
  | nil => exact h
  | cons p rest ih =>
    have hfirst := step s p List.mem_cons_self h
    rw [runFiles, List.foldlM_cons]
    cases hrun : runFile parse config base d s p with
    | error failed =>
      rw [hrun] at hfirst
      exact hfirst
    | ok next =>
      rw [hrun] at hfirst
      exact ih (fun s q hq => step s q (List.mem_cons_of_mem p hq)) hfirst

/-- The places of files that may be written, where the outcomes say what was changed in place. -/
def FileTree.writable (tree : FileTree) (d : Destination) (outcomes : List FileOutcome) :
    Set Location :=
  match d with
  | .nowhere => ∅
  | .inPlace => {l | ∃ o ∈ outcomes, o.result = .ok true ∧ l = tree.place o.path}
  | .below directory => tree.placesBelow directory

/-- The places of directories that may be made. -/
def FileTree.makeable (tree : FileTree) (d : Destination) : Set Location :=
  match d with
  | .nowhere => ∅
  | .inPlace => ∅
  | .below directory => tree.onTheWay directory ∪ tree.placesBelow directory

theorem FileTree.writable_append (tree : FileTree) (d : Destination)
    (outcomes new : List FileOutcome) : tree.writable d (outcomes ++ new) =
      tree.writable d outcomes ∪ tree.writable d new := by
  cases d with
  | nowhere => exact (Set.union_self _).symm
  | below directory => exact (Set.union_self _).symm
  | inPlace =>
    ext l
    constructor
    · rintro ⟨o, ho, h⟩
      exact (List.mem_append.mp ho).imp (fun ho => ⟨o, ho, h⟩) fun ho => ⟨o, ho, h⟩
    · rintro (⟨o, ho, h⟩ | ⟨o, ho, h⟩)
      · exact ⟨o, List.mem_append_left new ho, h⟩
      · exact ⟨o, List.mem_append_right outcomes ho, h⟩

namespace FileTree.ChangedAt

variable {S : Set Location} {before after : FileTree} (h : ChangedAt S before after)
include h

theorem placesBelow {directory : Path} :
    after.placesBelow directory = before.placesBelow directory := by
  ext l
  simp only [FileTree.placesBelow, Set.mem_ofPred_eq, h.place]

theorem writable {outcomes : List FileOutcome} :
    after.writable d outcomes = before.writable d outcomes := by
  cases d with
  | nowhere => rfl
  | inPlace =>
    ext l
    simp only [FileTree.writable, Set.mem_ofPred_eq, h.place]
  | below directory => exact h.placesBelow

theorem makeable : after.makeable d = before.makeable d := by
  cases d with
  | nowhere => rfl
  | inPlace => rfl
  | below directory => rw [FileTree.makeable, FileTree.makeable, h.onTheWay, h.placesBelow]

end FileTree.ChangedAt

theorem FileTree.footprint_of_deliver {tree after : FileTree} {r : Expanded}
    (hdir : (∃ directory, d = .below directory) → tree.WorksInDirectory)
    (hfile : tree.isFile p = true) (h : tree.deliver base d p r = .ok after) :
    Footprint (tree.writable d [⟨p, .ok r.changed⟩]) (tree.makeable d) tree after := by
  cases d with
  | nowhere => exact Except.ok.inj h ▸ footprint_self
  | inPlace =>
    refine (footprint_of_deliver_inPlace hfile h).mono ?_ subset_rfl
    rintro l ⟨hchanged, hl⟩
    exact ⟨_, List.mem_singleton_self _, congrArg Except.ok hchanged, hl⟩
  | below directory => exact footprint_of_deliver_below (hdir ⟨directory, rfl⟩) hfile h

/-- What a run has done to the tree up to a state: its outcomes are those of files of the run, and files
were written and directories made where they may be. -/
structure Confined (tree : FileTree) (d : Destination) (files : List Path) (s : RunState) : Prop where
  paths : ∀ o ∈ s.outcomes, o.path ∈ files
  footprint : tree.Footprint (tree.writable d s.outcomes) (tree.makeable d) s.tree

section

variable {tree : FileTree}
  (hdir : (∃ directory, d = .below directory) → tree.WorksInDirectory)
include hdir

theorem Confined.runFile (h : Confined tree d files s) (hp : p ∈ files) :
    Confined tree d files (finalState (runFile parse config base d s p)) := by
  have hpaths : ∀ new : List FileOutcome, (∀ o ∈ new, o.path = p) →
      ∀ o ∈ s.outcomes ++ new, o.path ∈ files := by
    intro new hnew o ho
    rcases List.mem_append.mp ho with ho | ho
    · exact h.paths o ho
    · exact hnew o ho ▸ hp
  have hbefore : ∀ new : List FileOutcome,
      tree.Footprint (tree.writable d (s.outcomes ++ new)) (tree.makeable d) s.tree := by
    intro new
    rw [tree.writable_append]
    exact h.footprint.mono Set.subset_union_left subset_rfl
  obtain ⟨htree, new, houtcomes, hnew⟩ | ⟨r, hr, hdeliver, houtcomes⟩ :=
    runFile_cases parse config base d s p
  · exact ⟨houtcomes ▸ hpaths new hnew, by rw [houtcomes, htree]; exact hbefore new⟩
  · refine ⟨houtcomes ▸ hpaths _ (by simp), ?_⟩
    have hchanged := h.footprint.changedAt
    have hfile : s.tree.isFile p = true := by
      obtain ⟨bytes, _, hread, _⟩ := readText_eq_ok_iff.mp (transformFile_eq_ok_iff.mp hr).1
      exact isFile_of_read hread
    have hstep := footprint_of_deliver (fun hd => hchanged.worksInDirectory (hdir hd)) hfile hdeliver
    rw [hchanged.writable, hchanged.makeable] at hstep
    rw [houtcomes]
    refine (hbefore _).trans (hstep.mono ?_ subset_rfl)
    rw [tree.writable_append]
    exact Set.subset_union_right

/-- A run leaves nothing changed but the files that it may write and the directories that it may make,
also if it ends early. -/
theorem confined_run : Confined tree d files (finalState (tree.run parse config base d files)) :=
  finalState_induction (fun _ _ hp h => h.runFile hdir hp) ⟨by simp, footprint_self⟩

end

/-- A run that only checks files leaves the tree as it is. -/
theorem tree_of_run_nowhere {tree : FileTree} :
    (finalState (tree.run parse config base .nowhere files)).tree = tree := by
  have hstep : ∀ s, ∀ p ∈ files, s.tree = tree →
      (finalState (runFile parse config base .nowhere s p)).tree = tree := by
    intro s p _ hs
    obtain ⟨htree, _⟩ | ⟨r, _, hdeliver, _⟩ := runFile_cases parse config base .nowhere s p
    · exact htree.trans hs
    · exact (Except.ok.inj hdeliver).symm.trans hs
  exact finalState_induction (P := fun s => s.tree = tree) hstep rfl

end Runs

end CondMarkup
