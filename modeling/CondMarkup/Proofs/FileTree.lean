import CondMarkup.Batch.Load
import CondMarkup.Proofs.Failure
import Mathlib.Data.Set.Insert

/-!
What stays when a tree of files changes. The tool writes files where files are or nothing is, and makes
directories where nothing is; it never puts anything in the place of a directory or a link. So a path
that leads to a place goes on leading there, and what is at a place that was not written to can be read
as before.
-/

namespace CondMarkup.FileTree

/-- The place that a path leads to. -/
def place (tree : FileTree) (p : Path) : Location := (tree.resolve p).parts

/-- The second tree differs from the first at most at the places of `S`. Directories and links are where
they were, and where a file was there is a file. -/
structure ChangedAt (S : Set Location) (before after : FileTree) : Prop where
  workingDirectory : after.workingDirectory = before.workingDirectory
  outside : ∀ l, l ∉ S → after.entryAt? l = before.entryAt? l
  directory : ∀ l, before.entryAt? l = some .directory → after.entryAt? l = some .directory
  link : ∀ l target, after.entryAt? l = some (.link target) ↔ before.entryAt? l = some (.link target)
  file : ∀ l bytes, before.entryAt? l = some (.file bytes) →
    ∃ bytes', after.entryAt? l = some (.file bytes')

variable {S T : Set Location} {tree before after : FileTree} {p : Path}

theorem changedAt_self : ChangedAt S tree tree :=
  ⟨rfl, fun _ _ => rfl, fun _ h => h, fun _ _ => Iff.rfl, fun _ bytes h => ⟨bytes, h⟩⟩

theorem ChangedAt.mono (h : ChangedAt S before after) (hST : S ⊆ T) : ChangedAt T before after :=
  ⟨h.workingDirectory, fun l hl => h.outside l fun hS => hl (hST hS), h.directory, h.link, h.file⟩

theorem ChangedAt.trans {middle : FileTree} (h : ChangedAt S before middle)
    (h' : ChangedAt S middle after) : ChangedAt S before after where
  workingDirectory := h'.workingDirectory.trans h.workingDirectory
  outside l hl := (h'.outside l hl).trans (h.outside l hl)
  directory l hl := h'.directory l (h.directory l hl)
  link l target := (h'.link l target).trans (h.link l target)
  file l bytes hl := by
    obtain ⟨bytes', hl'⟩ := h.file l bytes hl
    exact h'.file l bytes' hl'

/-- Nothing is taken away. -/
theorem ChangedAt.missing (h : ChangedAt S before after) {l : Location}
    (hl : after.entryAt? l = none) : before.entryAt? l = none := by
  cases hbefore : before.entryAt? l with
  | none => rfl
  | some entry =>
    cases entry with
    | file bytes =>
      obtain ⟨bytes', h'⟩ := h.file l bytes hbefore
      rw [hl] at h'
      cases h'
    | directory =>
      have h' := h.directory l hbefore
      rw [hl] at h'
      cases h'
    | link target =>
      have h' := (h.link l target).mpr hbefore
      rw [hl] at h'
      cases h'

/-! ### Where paths lead -/

section Follow

/-- What is no link is at the place, so no link is there. -/
theorem ne_link_of_eq {l : Location} {entry : Option FileEntry} (h : tree.entryAt? l = entry)
    (hentry : ∀ target, entry ≠ some (.link target)) (target : String) :
    tree.entryAt? l ≠ some (.link target) := h ▸ hentry target

variable {links : Nat} {start l : Location} {name : String} {names : List String}
  {entry : Option FileEntry}

theorem follow_up : tree.follow links start (".." :: names) = tree.follow links start.dropLast names := by
  rw [FileTree.follow, if_pos rfl]

theorem follow_directory (hname : name ≠ "..")
    (h : tree.entryAt? (start ++ [name]) = some .directory) :
    tree.follow links start (name :: names) = tree.follow links (start ++ [name]) names := by
  rw [FileTree.follow, if_neg hname]
  simp only [h]

theorem follow_link {target : String} (hname : name ≠ "..")
    (h : tree.entryAt? (start ++ [name]) = some (.link target)) :
    tree.follow (links + 1) start (name :: names) =
      tree.follow links (if (Path.ofText target).isAbsolute then [] else start)
        ((Path.ofText target).parts ++ names) := by
  rw [FileTree.follow, if_neg hname]
  simp only [h]

/-- The last name of a path leads to its place unless a link is there. -/
theorem follow_last (hname : name ≠ "..")
    (h : ∀ target, tree.entryAt? (start ++ [name]) ≠ some (.link target)) :
    tree.follow links start [name] = .ok (start ++ [name], tree.entryAt? (start ++ [name])) := by
  rw [FileTree.follow, if_neg hname]
  cases hentry : tree.entryAt? (start ++ [name]) with
  | none => simp only [hentry, if_true]
  | some e =>
    cases e with
    | file bytes => simp only [hentry, if_true]
    | directory => simp only [hentry, FileTree.follow]
    | link target => exact absurd hentry (h target)

theorem resolveNames_up :
    tree.resolveNames links start (".." :: names) = tree.resolveNames links start.dropLast names := by
  rw [FileTree.resolveNames, if_pos rfl]

theorem resolveNames_plain (hname : name ≠ "..")
    (h : ∀ target, tree.entryAt? (start ++ [name]) ≠ some (.link target)) :
    tree.resolveNames links start (name :: names) =
      tree.resolveNames links (start ++ [name]) names := by
  rw [FileTree.resolveNames, if_neg hname]
  cases hentry : tree.entryAt? (start ++ [name]) with
  | none => simp only [hentry]
  | some e =>
    cases e with
    | file bytes => simp only [hentry]
    | directory => simp only [hentry]
    | link target => exact absurd hentry (h target)

theorem resolveNames_link {target : String} (hname : name ≠ "..")
    (h : tree.entryAt? (start ++ [name]) = some (.link target)) :
    tree.resolveNames (links + 1) start (name :: names) =
      tree.resolveNames links (if (Path.ofText target).isAbsolute then [] else start)
        ((Path.ofText target).parts ++ names) := by
  rw [FileTree.resolveNames, if_neg hname]
  simp only [h]

theorem resolveNames_link_zero {target : String} (hname : name ≠ "..")
    (h : tree.entryAt? (start ++ [name]) = some (.link target)) :
    tree.resolveNames 0 start (name :: names) = start ++ [name] ++ names := by
  rw [FileTree.resolveNames, if_neg hname]
  simp only [h]

/-- Names that lead to a place lead there afterwards. -/
theorem ChangedAt.follow (h : ChangedAt S before after)
    (hfollow : before.follow links start names = .ok (l, entry)) :
    after.follow links start names = .ok (l, after.entryAt? l) := by
  have hlast : ∀ {place : Location}, (∀ target, before.entryAt? place ≠ some (.link target)) →
      ∀ target, after.entryAt? place ≠ some (.link target) :=
    fun hno target htarget => hno target ((h.link _ target).mp htarget)
  fun_induction FileTree.follow before links start names with
  | case1 =>
    obtain ⟨rfl, _⟩ := Prod.mk.inj (Except.ok.inj hfollow)
    rw [FileTree.follow]
  | case2 links start names ih => rw [follow_up, ih hfollow]
  | case3 _ _ _ hname _ hentry | case5 _ _ _ hname _ _ hentry =>
    obtain ⟨rfl, _⟩ := Prod.mk.inj (Except.ok.inj hfollow)
    exact follow_last hname (hlast (ne_link_of_eq hentry nofun))
  | case4 | case6 | case8 => cases hfollow
  | case7 _ _ _ _ hname _ hentry ih => rw [follow_directory hname (h.directory _ hentry), ih hfollow]
  | case9 _ _ _ hname _ _ hentry _ _ ih =>
    rw [follow_link hname ((h.link _ _).mpr hentry)]
    exact ih hfollow

/-- The answer says what is at the place that is found. -/
theorem entry_of_follow (h : tree.follow links start names = .ok (l, entry)) :
    entry = tree.entryAt? l := by
  have h' := (changedAt_self (S := ∅)).follow h
  rw [h, Except.ok.injEq, Prod.mk.injEq] at h'
  exact h'.2

/-- Names that are found lead to the place that they are resolved to. -/
theorem resolveNames_of_follow (h : tree.follow links start names = .ok (l, entry)) :
    tree.resolveNames links start names = l := by
  fun_induction FileTree.follow tree links start names with
  | case1 =>
    obtain ⟨rfl, _⟩ := Prod.mk.inj (Except.ok.inj h)
    rw [FileTree.resolveNames]
  | case2 links start names ih => rw [resolveNames_up, ih h]
  | case3 _ _ _ hname _ hentry | case5 _ _ _ hname _ _ hentry =>
    obtain ⟨rfl, _⟩ := Prod.mk.inj (Except.ok.inj h)
    rw [resolveNames_plain hname (ne_link_of_eq hentry nofun), FileTree.resolveNames]
  | case4 | case6 | case8 => cases h
  | case7 _ _ _ _ hname _ hentry ih =>
    rw [resolveNames_plain hname (ne_link_of_eq hentry nofun), ih h]
  | case9 _ _ _ hname _ _ hentry _ _ ih =>
    rw [resolveNames_link hname hentry]
    exact ih h

/-- Where names are resolved to depends on the links only. -/
theorem ChangedAt.resolveNames (h : ChangedAt S before after) :
    after.resolveNames links start names = before.resolveNames links start names := by
  fun_induction FileTree.resolveNames before links start names with
  | case1 => rw [FileTree.resolveNames]
  | case2 _ _ _ ih => rw [resolveNames_up, ih]
  | case3 _ _ _ hname _ _ hentry => rw [resolveNames_link_zero hname ((h.link _ _).mpr hentry)]
  | case4 _ _ _ hname _ _ hentry _ _ ih =>
    rw [resolveNames_link hname ((h.link _ _).mpr hentry)]
    exact ih
  | case5 _ _ _ _ hname _ hentry ih =>
    rw [resolveNames_plain hname fun target htarget => hentry target ((h.link _ _).mp htarget), ih]

/-- Names followed from a place on whose way there are no links do not end at a link. -/
theorem ne_link_of_follow
    (hstart : ∀ m, m <+: start → ∀ target, tree.entryAt? m ≠ some (.link target))
    (h : tree.follow links start names = .ok (l, entry)) (target : String) :
    entry ≠ some (.link target) := by
  fun_induction FileTree.follow tree links start names with
  | case1 links start =>
    obtain ⟨rfl, rfl⟩ := Prod.mk.inj (Except.ok.inj h)
    exact hstart start (List.prefix_refl start) target
  | case2 links start names ih =>
    exact ih (fun m hm => hstart m (hm.trans (List.dropLast_prefix start))) h
  | case3 | case5 =>
    obtain ⟨_, rfl⟩ := Prod.mk.inj (Except.ok.inj h)
    nofun
  | case4 | case6 | case8 => cases h
  | case7 links start name rest hname place hentry ih =>
    refine ih (fun m hm => ?_) h
    rcases List.prefix_concat_iff.mp hm with rfl | hm
    · exact ne_link_of_eq hentry nofun
    · exact hstart m hm
  | case9 start name rest hname place t hentry links path ih =>
    refine ih (fun m hm => ?_) h
    split at hm
    · rw [List.prefix_nil.mp hm]
      exact nofun
    · exact hstart m hm

end Follow

/-! ### Paths -/

theorem find_eq_ok {l : Location} {entry : Option FileEntry} (h : tree.find p = .ok (l, entry)) :
    l = tree.place p ∧ entry = tree.entryAt? l :=
  ⟨(resolveNames_of_follow h).symm, entry_of_follow h⟩

theorem isFile_iff :
    tree.isFile p = true ↔ ∃ bytes, tree.find p = .ok (tree.place p, some (.file bytes)) := by
  rw [isFile]
  constructor
  · intro h
    split at h
    · rename_i l bytes hfind
      exact ⟨bytes, (find_eq_ok hfind).1 ▸ hfind⟩
    · cases h
  · rintro ⟨bytes, hfind⟩
    rw [hfind]

theorem entryAt?_of_isFile (h : tree.isFile p = true) :
    ∃ bytes, tree.entryAt? (tree.place p) = some (.file bytes) := by
  obtain ⟨bytes, hfind⟩ := isFile_iff.mp h
  exact ⟨bytes, (find_eq_ok hfind).2.symm⟩

theorem read_eq_ok_iff {bytes : List UInt8} :
    tree.read p = .ok bytes ↔ tree.find p = .ok (tree.place p, some (.file bytes)) := by
  rw [FileTree.read, bind_eq_ok_iff]
  constructor
  · rintro ⟨⟨l, entry⟩, hfind, h⟩
    obtain rfl := (find_eq_ok hfind).1
    split at h
    · rename_i heq
      rw [Prod.mk.injEq] at heq
      rw [hfind, heq.2, ← pure_eq_ok_iff.mp h]
    · cases h
    · cases h
  · intro hfind
    exact ⟨_, hfind, rfl⟩

theorem isFile_of_read {bytes : List UInt8} (h : tree.read p = .ok bytes) : tree.isFile p = true :=
  isFile_iff.mpr ⟨bytes, read_eq_ok_iff.mp h⟩

theorem entryAt?_of_read {bytes : List UInt8} (h : tree.read p = .ok bytes) :
    tree.entryAt? (tree.place p) = some (.file bytes) :=
  (find_eq_ok (read_eq_ok_iff.mp h)).2.symm

theorem read_of_entryAt? {bytes : List UInt8} (h : tree.isFile p = true)
    (hentry : tree.entryAt? (tree.place p) = some (.file bytes)) : tree.read p = .ok bytes := by
  obtain ⟨bytes', hfind⟩ := isFile_iff.mp h
  rw [read_eq_ok_iff, hfind, (find_eq_ok hfind).2, hentry]

theorem readText_eq_ok_iff {t : Text} : tree.readText p = .ok t ↔
    ∃ bytes raw, tree.read p = .ok bytes ∧ Utf8.decode bytes = .ok raw ∧ unifyLineEnds raw = t := by
  rw [FileTree.readText, bind_eq_ok_iff]
  simp only [bind_eq_ok_iff, mapError_eq_ok_iff, pure_eq_ok_iff]
  constructor
  · rintro ⟨bytes, hread, raw, hraw, ht⟩
    exact ⟨bytes, raw, hread, hraw, ht⟩
  · rintro ⟨bytes, raw, hread, hraw, ht⟩
    exact ⟨bytes, hread, raw, hraw, ht⟩

namespace ChangedAt

variable (h : ChangedAt S before after)
include h

theorem place : after.place p = before.place p := by
  rw [FileTree.place, FileTree.place, FileTree.resolve, FileTree.resolve, startOf, startOf,
    h.workingDirectory, h.resolveNames]

theorem resolve : after.resolve p = before.resolve p := by
  have hplace : after.place p = before.place p := h.place
  rw [FileTree.resolve, FileTree.resolve, Path.mk.injEq]
  exact ⟨rfl, hplace⟩

theorem find {l : Location} {entry : Option FileEntry} (hfind : before.find p = .ok (l, entry)) :
    after.find p = .ok (l, after.entryAt? l) := by
  rw [FileTree.find, startOf, h.workingDirectory]
  exact h.follow hfind

theorem isFile (hfile : before.isFile p = true) : after.isFile p = true := by
  obtain ⟨bytes, hfind⟩ := isFile_iff.mp hfile
  obtain ⟨bytes', hentry⟩ := h.file _ bytes (find_eq_ok hfind).2.symm
  rw [isFile_iff]
  exact ⟨bytes', by rw [h.find hfind, hentry, h.place]⟩

/-- What is not written to is read as before. -/
theorem read (hfile : before.isFile p = true) (hp : before.place p ∉ S) :
    after.read p = before.read p := by
  obtain ⟨bytes, hfind⟩ := isFile_iff.mp hfile
  rw [read_eq_ok_iff.mpr hfind, read_eq_ok_iff, h.find hfind, h.outside _ hp, h.place,
    ← (find_eq_ok hfind).2]

theorem readText (hfile : before.isFile p = true) (hp : before.place p ∉ S) :
    after.readText p = before.readText p := by
  rw [FileTree.readText, FileTree.readText, h.read hfile hp]

end ChangedAt

/-! ### Writing -/

/-- The working directory is a place: no link is on the way to it. -/
def StartsAtPlace (tree : FileTree) : Prop :=
  ∀ l, l <+: tree.workingDirectory → ∀ target, tree.entryAt? l ≠ some (.link target)

theorem ChangedAt.startsAtPlace (h : ChangedAt S before after) (hstart : before.StartsAtPlace) :
    after.StartsAtPlace := by
  intro l hl target htarget
  rw [h.workingDirectory] at hl
  exact hstart l hl target ((h.link l target).mp htarget)

theorem ne_link_of_find {l : Location} {entry : Option FileEntry} (hstart : tree.StartsAtPlace)
    (h : tree.find p = .ok (l, entry)) (target : String) : entry ≠ some (.link target) := by
  refine ne_link_of_follow (fun m hm => ?_) h target
  rw [startOf] at hm
  split at hm
  · rw [List.prefix_nil.mp hm]
    exact nofun
  · exact hstart m hm

/-- A file is put where a file or nothing is, or a directory where nothing is. -/
theorem changedAt_put {l : Location} {entry : FileEntry} (hlink : ∀ target, entry ≠ .link target)
    (hold : tree.entryAt? l = none ∨
      ∃ old bytes, tree.entryAt? l = some (.file old) ∧ entry = .file bytes) :
    ChangedAt {l} tree (tree.put l entry) := by
  have hnil : l ≠ [] := by
    rintro rfl
    rcases hold with h | ⟨old, _, h, _⟩ <;> cases h
  have hself : (tree.put l entry).entryAt? l = some entry := entryAt?_put_self tree entry hnil
  have hother : ∀ {m : Location}, m ≠ l → (tree.put l entry).entryAt? m = tree.entryAt? m :=
    fun hm => entryAt?_put_of_ne tree entry hm
  constructor
  · rw [put]
    split <;> rfl
  · exact fun m hm => hother hm
  · intro m hm
    rw [hother, hm]
    rintro rfl
    rcases hold with h | ⟨old, _, h, _⟩ <;> simp [h] at hm
  · intro m target
    by_cases hm : m = l
    · subst hm
      rw [hself]
      rcases hold with h | ⟨old, _, h, _⟩ <;> simp [h, hlink target]
    · rw [hother hm]
  · intro m bytes hm
    by_cases hml : m = l
    · subst hml
      rcases hold with h | ⟨old, bytes', _, rfl⟩
      · rw [h] at hm
        cases hm
      · exact ⟨bytes', hself⟩
    · exact ⟨bytes, by rw [hother hml, hm]⟩

/-- The file at the end of a path is written: it can be read back, and nothing else is changed. -/
theorem changedAt_of_write {bytes : List UInt8} (hstart : tree.StartsAtPlace ∨ tree.isFile p = true)
    (h : tree.write p bytes = .ok after) :
    ChangedAt {tree.place p} tree after ∧ after.read p = .ok bytes := by
  obtain ⟨⟨l, entry⟩, hfind, h⟩ := bind_eq_ok_iff.mp h
  obtain ⟨rfl, hentry⟩ := find_eq_ok hfind
  have hlink : ∀ target, entry ≠ some (.link target) := by
    rcases hstart with hstart | hfile
    · exact ne_link_of_find hstart hfind
    · obtain ⟨old, hold⟩ := entryAt?_of_isFile hfile
      rw [hentry, hold]
      exact nofun
  split at h
  · cases h
  · rename_i hdirectory heq
    obtain ⟨rfl, rfl⟩ := Prod.mk.inj heq
    obtain rfl := pure_eq_ok_iff.mp h
    have hold : tree.entryAt? (tree.place p) = none ∨
        ∃ old new, tree.entryAt? (tree.place p) = some (.file old) ∧ FileEntry.file bytes = .file new := by
      rw [← hentry]
      cases entry with
      | none => exact Or.inl rfl
      | some e =>
        cases e with
        | file old => exact Or.inr ⟨old, bytes, rfl, rfl⟩
        | directory => exact (hdirectory rfl).elim
        | link target => exact absurd rfl (hlink target)
    have hchanged : ChangedAt {tree.place p} tree (tree.put (tree.place p) (.file bytes)) :=
      changedAt_put nofun hold
    have hnil : tree.place p ≠ [] := by
      intro hnil
      rw [hnil] at hold
      rcases hold with h | ⟨_, _, h, _⟩ <;> cases h
    refine ⟨hchanged, read_eq_ok_iff.mpr ?_⟩
    rw [hchanged.find hfind, hchanged.place, entryAt?_put_self tree _ hnil]

/-- Writing to a file succeeds. -/
theorem exists_write_of_isFile (h : tree.isFile p = true) (bytes : List UInt8) :
    ∃ after, tree.write p bytes = .ok after := by
  obtain ⟨old, hfind⟩ := isFile_iff.mp h
  exact ⟨tree.put (tree.place p) (.file bytes), by rw [write, hfind]; rfl⟩

/-- The places where nothing is. -/
def missing (tree : FileTree) : Set Location := {l | tree.entryAt? l = none}

theorem ChangedAt.missing_subset (h : ChangedAt S before after) : after.missing ⊆ before.missing :=
  fun _ hl => h.missing hl

theorem changedAt_of_makeDirectory (h : tree.makeDirectory p = .ok after) :
    ChangedAt tree.missing tree after := by
  rw [makeDirectory] at h
  split at h
  · cases h
  · rename_i name _
    obtain ⟨⟨l, entry⟩, _, h⟩ := bind_eq_ok_iff.mp h
    split at h
    · cases h
    · rename_i heq
      obtain ⟨rfl, rfl⟩ := Prod.mk.inj heq
      split at h
      · cases h
      · rename_i hfree
        rw [not_or, Option.not_isSome_iff_eq_none] at hfree
        rw [← pure_eq_ok_iff.mp h]
        have hchanged : ChangedAt {l ++ [name]} tree (tree.put (l ++ [name]) .directory) :=
          changedAt_put nofun (Or.inl hfree.2)
        exact hchanged.mono (Set.singleton_subset_iff.mpr hfree.2)
    · cases h

theorem changedAt_of_orExisting {made : Except FileError FileTree}
    (hmade : ∀ t, made = .ok t → ChangedAt tree.missing tree t)
    (h : tree.orExisting p made = .ok after) : ChangedAt tree.missing tree after := by
  cases made with
  | ok t => exact Except.ok.inj h ▸ hmade t rfl
  | error e =>
    rw [orExisting] at h
    split at h
    · exact Except.ok.inj h ▸ changedAt_self
    · cases h

/-- Making directories changes nothing but places where nothing is. -/
theorem changedAt_of_makeDirectories {depth : Nat} (h : tree.makeDirectories p depth = .ok after) :
    ChangedAt tree.missing tree after := by
  induction depth generalizing p after with
  | zero => exact changedAt_of_orExisting (fun _ => changedAt_of_makeDirectory) h
  | succ depth ih =>
    rw [makeDirectories] at h
    split at h
    · obtain ⟨middle, hmiddle, h⟩ := bind_eq_ok_iff.mp h
      have hbefore := ih hmiddle
      have hafter := changedAt_of_orExisting (fun _ => changedAt_of_makeDirectory) h
      exact hbefore.trans (hafter.mono hbefore.missing_subset)
    · exact changedAt_of_orExisting (fun _ => changedAt_of_makeDirectory) h

end CondMarkup.FileTree
