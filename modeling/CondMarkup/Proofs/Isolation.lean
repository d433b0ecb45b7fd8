import CondMarkup.Proofs.BatchRun

/-!
Files that are expanded in place do not get into each other's way. In a run over different files, each
file comes out as if it were the only one, what is not rewritten stays as it was, and the order of the
files makes no difference but to the order of the outcomes.
-/

namespace CondMarkup

open FileTree

/-- The file at the path is expanded, and what it is expanded to differs from what it was. -/
def FileTree.Rewrites (tree : FileTree) (parse : SourceParser) (marker : String) (p : Path)
    (r : Expanded) : Prop :=
  (tree.transformFile parse marker p).outcome = .ok r ∧ r.changed = true

/-- What a run in place over the files comes to, told file by file from the tree that it starts with. -/
structure Isolated (parse : SourceParser) (config : Config) (base : Path) (tree : FileTree)
    (files : List Path) (s : RunState) : Prop where
  /-- The outcomes are those of the files on their own, in the order of the files. -/
  outcomes : List.Forall₂ (fun p o => ∃ alone,
    tree.run parse config base .inPlace [p] = .ok alone ∧ alone.outcomes = [o]) files s.outcomes
  /-- A file that is rewritten holds the text that it is expanded to. -/
  rewritten : ∀ p ∈ files, ∀ r, tree.Rewrites parse config.marker p r →
    s.tree.read p = .ok (Utf8.encode r.result)
  /-- A file that is not rewritten, since it fails or stays the same, holds what it did. -/
  kept : ∀ p ∈ files, (¬ ∃ r, tree.Rewrites parse config.marker p r) → s.tree.read p = tree.read p
  /-- Nothing else is changed, made or removed. -/
  elsewhere : ∀ l, (∀ p ∈ files, (∃ r, tree.Rewrites parse config.marker p r) → l ≠ tree.place p) →
    s.tree.entryAt? l = tree.entryAt? l

section

variable {parse : SourceParser} {config : Config} {base p : Path} {tree : FileTree}
  {files : List Path}

/-- In place, only the file itself is written to, and only if it is rewritten. -/
theorem mem_writtenFor_inPlace_iff {marker : String} {l : Location} :
    l ∈ tree.writtenFor parse marker base .inPlace p ↔
      (∃ r, tree.Rewrites parse marker p r) ∧ l = tree.place p := by
  constructor
  · rintro ⟨r, hr, target, htarget, rfl⟩
    rw [target?, Option.ite_none_right_eq_some] at htarget
    obtain ⟨hchanged, htarget⟩ := htarget
    exact ⟨⟨r, hr, hchanged⟩, by rw [Option.some.inj htarget]⟩
  · rintro ⟨⟨r, hr, hchanged⟩, rfl⟩
    exact ⟨r, hr, p, if_pos hchanged, rfl⟩

/-- Different files are apart if they are expanded in place. -/
theorem apart_inPlace {marker : String} (hfiles : ∀ p ∈ files, tree.isFile p = true)
    (hdistinct : (files.map tree.resolve).Nodup) : Apart tree parse marker base .inPlace files where
  areFiles := hfiles
  apart := by
    rw [List.Nodup, List.pairwise_map] at hdistinct
    refine hdistinct.imp fun {p q} hne hq => hne ?_
    have hplace := (mem_writtenFor_inPlace_iff.mp hq).2
    rw [resolve, resolve, Path.mk.injEq]
    exact ⟨rfl, hplace.symm⟩
  start := nofun

/-- Every file has an outcome unless its expansion ends the run. -/
theorem exists_outcomeOf {marker : String}
    (h : ∀ e, (tree.transformFile parse marker p).outcome ≠ .error (.error e)) :
    ∃ o, tree.outcomeOf parse marker p = .ok o := by
  rw [outcomeOf]
  split
  · exact ⟨_, rfl⟩
  · exact ⟨_, rfl⟩
  · rename_i e he
    exact absurd he (h e)

/-- A run in place does not end early. -/
theorem exists_ran_inPlace (hapart : Apart tree parse config.marker base .inPlace files)
    (hraise : ∀ p ∈ files, ∀ e,
      (tree.transformFile parse config.marker p).outcome ≠ .error (.error e)) :
    ∃ s, tree.run parse config base .inPlace files = .ok s ∧
      Ran parse config.marker base .inPlace { tree } files s := by
  rcases run_cases (s := { tree }) hapart with h | ⟨e, s, _, hnone⟩ | ⟨_, _, _, _, hd⟩
  · exact h
  · obtain ⟨before, p, after, rfl, _, hnone⟩ := mapM_eq_error_iff.mp hnone
    obtain ⟨o, ho⟩ := exists_outcomeOf (hraise p (List.mem_append_right before List.mem_cons_self))
    rw [show tree.outcomeOf parse config.marker p = _ from hnone] at ho
    cases ho
  · cases hd

/-- The outcomes of a list of computations, in the order of the list. -/
theorem eq_filterMap_of_mapM {ε α β : Type} {f : α → Except ε β} {as : List α} {bs : List β}
    (h : as.mapM f = .ok bs) : bs = as.filterMap fun a => (f a).toOption := by
  obtain ⟨pairs, rfl, rfl, hall⟩ := exists_pairs_of_mapM h
  rw [List.filterMap_map, ← List.filterMap_eq_map]
  refine List.filterMap_congr fun pair hpair => ?_
  rw [Function.comp_apply, Function.comp_apply, hall pair hpair]
  rfl

theorem eq_of_place_eq {q : Path} (hdistinct : (files.map tree.resolve).Nodup) (hp : p ∈ files)
    (hq : q ∈ files) (h : tree.place p = tree.place q) : p = q := by
  refine List.inj_on_of_nodup_map hdistinct hp hq ?_
  rw [resolve, resolve, Path.mk.injEq]
  exact ⟨rfl, h⟩

/-- The places of the files that are rewritten are all that a run in place touches. -/
theorem mem_touched_inPlace_iff {marker : String} {l : Location} :
    l ∈ tree.touched parse marker base .inPlace files ↔
      ∃ p ∈ files, (∃ r, tree.Rewrites parse marker p r) ∧ l = tree.place p := by
  constructor
  · rintro (⟨p, hp, hl⟩ | ⟨⟨_, hd⟩, _⟩)
    · exact ⟨p, hp, mem_writtenFor_inPlace_iff.mp hl⟩
    · cases hd
  · rintro ⟨p, hp, hl⟩
    exact Or.inl ⟨p, hp, mem_writtenFor_inPlace_iff.mpr hl⟩

theorem isolated_of_ran {s : RunState} (hfiles : ∀ p ∈ files, tree.isFile p = true)
    (hdistinct : (files.map tree.resolve).Nodup)
    (hraise : ∀ p ∈ files, ∀ e, (tree.transformFile parse config.marker p).outcome ≠ .error (.error e))
    (h : Ran parse config.marker base .inPlace { tree } files s) :
    Isolated parse config base tree files s := by
  constructor
  · obtain ⟨outcomes, hmap, houtcomes⟩ := h.outcomes
    rw [houtcomes, List.nil_append]
    obtain ⟨pairs, rfl, rfl, hall⟩ := exists_pairs_of_mapM hmap
    rw [List.forall₂_map_left_iff, List.forall₂_map_right_iff, List.forall₂_same]
    intro pair hpair
    have hmem : pair.1 ∈ pairs.map Prod.fst := List.mem_map_of_mem hpair
    have hfile : ∀ q ∈ [pair.1], q ∈ pairs.map Prod.fst := fun q hq =>
      List.mem_singleton.mp hq ▸ hmem
    have hapart : Apart tree parse config.marker base .inPlace [pair.1] :=
      apart_inPlace (fun q hq => hfiles q (hfile q hq)) (List.nodup_singleton _)
    obtain ⟨alone, hrun, hran⟩ := exists_ran_inPlace hapart fun q hq => hraise q (hfile q hq)
    obtain ⟨os, hos, halone⟩ := hran.outcomes
    rw [List.mapM_cons, hall pair hpair] at hos
    refine ⟨alone, hrun, ?_⟩
    rw [halone, ← Except.ok.inj hos]
    rfl
  · intro q hq r hr
    obtain ⟨bytes, hread, q', hq', r', hr', hbytes, target, htarget, hplace⟩ :=
      h.delivered q hq r hr.1 q (if_pos hr.2)
    -- what is written to the place of the file is written for the file itself
    obtain ⟨_, hplace'⟩ := mem_writtenFor_inPlace_iff.mp ⟨r', hr', target, htarget, hplace⟩
    obtain rfl := eq_of_place_eq hdistinct hq hq' hplace'
    have hsame : r' = r := Except.ok.inj (hr'.symm.trans hr.1)
    rw [hread, hbytes, hsame]
  · intro q hq hnot
    refine h.changed.read (hfiles q hq) fun hl => ?_
    obtain ⟨q', hq', hr, hplace⟩ := mem_touched_inPlace_iff.mp hl
    exact hnot (eq_of_place_eq hdistinct hq hq' hplace ▸ hr)
  · intro l hl
    refine h.changed.outside l fun htouched => ?_
    obtain ⟨q, hq, hr, hplace⟩ := mem_touched_inPlace_iff.mp htouched
    exact hl q hq hr hplace

end

/-- Different files expanded in place, of which none fails in a way that ends the run: all of them have
outcomes, each as if it were the only file, and what is rewritten are the files that change. In another
order the outcomes are the same in that order, and so are all files afterwards. -/
theorem FileTree.run_inPlace_isolated {parse : SourceParser} {config : Config} {base : Path}
    {tree : FileTree} {files : List Path} (hfiles : ∀ p ∈ files, tree.isFile p = true)
    (hdistinct : (files.map tree.resolve).Nodup)
    (hraise : ∀ p ∈ files, ∀ e,
      (tree.transformFile parse config.marker p).outcome ≠ .error (.error e)) :
    ∃ s, tree.run parse config base .inPlace files = .ok s ∧ Isolated parse config base tree files s ∧
      ∀ files', files'.Perm files →
        ∃ s', tree.run parse config base .inPlace files' = .ok s' ∧
          Isolated parse config base tree files' s' ∧
          s'.outcomes.Perm s.outcomes ∧ s'.tree.workingDirectory = s.tree.workingDirectory ∧
          ∀ l, s'.tree.entryAt? l = s.tree.entryAt? l := by
  have hapart : Apart tree parse config.marker base .inPlace files := apart_inPlace hfiles hdistinct
  obtain ⟨s, hrun, hran⟩ := exists_ran_inPlace hapart hraise
  have hisolated := isolated_of_ran hfiles hdistinct hraise hran
  refine ⟨s, hrun, hisolated, fun files' hperm => ?_⟩
  have hfiles' : ∀ p ∈ files', tree.isFile p = true := fun p hp => hfiles p (hperm.subset hp)
  have hdistinct' : (files'.map tree.resolve).Nodup := (hperm.map _).nodup_iff.mpr hdistinct
  have hraise' : ∀ p ∈ files', ∀ e,
      (tree.transformFile parse config.marker p).outcome ≠ .error (.error e) :=
    fun p hp => hraise p (hperm.subset hp)
  have hapart' : Apart tree parse config.marker base .inPlace files' := apart_inPlace hfiles' hdistinct'
  obtain ⟨s', hrun', hran'⟩ := exists_ran_inPlace hapart' hraise'
  have hisolated' := isolated_of_ran hfiles' hdistinct' hraise' hran'
  refine ⟨s', hrun', hisolated', ?_, ?_, fun l => ?_⟩
  · obtain ⟨os, hos, houtcomes⟩ := hran.outcomes
    obtain ⟨os', hos', houtcomes'⟩ := hran'.outcomes
    rw [houtcomes, houtcomes', eq_filterMap_of_mapM hos, eq_filterMap_of_mapM hos']
    exact hperm.filterMap _
  · rw [hran.changed.workingDirectory, hran'.changed.workingDirectory]
  · by_cases hl : ∃ p ∈ files, (∃ r, tree.Rewrites parse config.marker p r) ∧ l = tree.place p
    · obtain ⟨p, hp, ⟨r, hr⟩, rfl⟩ := hl
      have hentry := entryAt?_of_read (hisolated.rewritten p hp r hr)
      have hentry' := entryAt?_of_read (hisolated'.rewritten p (hperm.mem_iff.mpr hp) r hr)
      rw [hran.changed.place] at hentry
      rw [hran'.changed.place] at hentry'
      exact hentry'.trans hentry.symm
    · rw [hisolated.elsewhere l fun p hp hr hplace => hl ⟨p, hp, hr, hplace⟩,
        hisolated'.elsewhere l fun p hp hr hplace => hl ⟨p, hperm.subset hp, hr, hplace⟩]

open SmallFolder in
/-- The small folder: one file is rewritten, the other cannot be read and stays as it is. -/
theorem FileTree.run_inPlace_isolated_smallFolder :
    ∃ s, tree.run parse config base .inPlace [page, noText] = .ok s ∧
      s.tree.read page = .ok (Utf8.encode "{x ? <>A</> : null}".toList) ∧
      s.tree.read noText = tree.read noText := by
  obtain ⟨f, hf⟩ := failed_noText
  have hfiles : ∀ p ∈ [page, noText], tree.isFile p = true := by
    simp [SmallFolder.isFile]
  have hresolve : [page, noText].map tree.resolve = [⟨"/", ["p", "a"]⟩, ⟨"/", ["p", "b"]⟩] := by cbv
  have hraise : ∀ p ∈ [page, noText], ∀ e,
      (tree.transformFile parse config.marker p).outcome ≠ .error (.error e) := by
    simp [expanded_page, hf]
  have hisolated : ∃ s, tree.run parse config base .inPlace [page, noText] = .ok s ∧
      Isolated _ _ _ _ _ s ∧ _ := run_inPlace_isolated hfiles (hresolve ▸ by decide) hraise
  obtain ⟨s, hrun, hisolated, _⟩ := hisolated
  refine ⟨s, hrun, ?_, hisolated.kept noText (by simp) ?_⟩
  · exact hisolated.rewritten page (by simp) _ ⟨expanded_page, by decide⟩
  · rintro ⟨r, hr, _⟩
    rw [hf] at hr
    cases hr

end CondMarkup
