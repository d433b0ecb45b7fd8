import CondMarkup.Proofs.Idempotence
import CondMarkup.Proofs.Trace

/-!
What an expansion leaves as it is. A visit keeps a node exactly if nothing in it is a construct; any other
node is removed or replaced. In what takes the place of a node, the clear nodes of the source are
the nodes of the source themselves and all others are copies, and no clear node that is visited is lost.
So an expansion either leaves the file as it is or makes a copy of its root.
-/

namespace CondMarkup

open Expansion

/-! ### Kept nodes -/

theorem Node.changed_eq_keep_iff {n : Node} {changes : List (Node × Change)} :
    n.changed changes = .keep ↔ ∀ c ∈ changes, c.2 = .keep := by
  rw [← changedChildren_eq_none_iff, changed]
  cases changedChildren changes with
  | none => exact ⟨fun _ => rfl, fun _ => rfl⟩
  | some children =>
    constructor
    · intro h
      cases h
    · intro h
      cases h

/-- A node is kept exactly if it is clear. -/
theorem Becomes.eq_keep_iff {s : Setting} {following : List Node} {n : Node} {change : Change}
    (h : Becomes s following n change) : change = .keep ↔ n.IsClear s.marker := by
  have hconstruct : ∀ {n : Node} {change : Change}, n.isConstruct s.marker = true → change ≠ .keep →
      (change = .keep ↔ n.IsClear s.marker) := by
    intro n change hn hchange
    refine iff_of_false hchange fun hclear => ?_
    rw [(isClear_iff.mp hclear).1] at hn
    cases hn
  induction h with
  | removeImport himport => exact hconstruct (by simp [Node.isConstruct, himport]) (by simp)
  | removeElse helse => exact hconstruct (by simp [Node.isConstruct, helse]) (by simp)
  | expand hif => exact hconstruct (by simp [Node.isConstruct, hif]) (by simp)
  | @visitChildren following n changes himport hif helse _ hchildren _ ih =>
    have hplain := isConstruct_eq_false_iff.mpr ⟨hif, helse, himport⟩
    rw [Node.changed_eq_keep_iff, isClear_iff, and_iff_right hplain, ← hchildren]
    constructor
    · intro hkeep c hc
      obtain ⟨⟨m, change⟩, hmem, rfl⟩ := List.mem_map.mp hc
      obtain ⟨before, after, hsplit⟩ := List.append_of_mem hmem
      exact (ih before m change after hsplit).mp (hkeep (m, change) hmem)
    · rintro hclear ⟨m, change⟩ hmem
      obtain ⟨before, after, hsplit⟩ := List.append_of_mem hmem
      exact (ih before m change after hsplit).mpr (hclear m (List.mem_map_of_mem hmem))

/-! ### Nodes of the source in the result -/

/-- A node that was not made stands for a node of the source, and is that node exactly if that node is
clear. -/
def OriginalIfClear (marker : String) (root m : Node) : Prop :=
  m.info.synthesized = false →
    m.source ∈ root.preorder ∧ (m.source.IsClear marker ↔ m = m.source)

theorem originalIfClear_of_isMade {marker : String} {root m : Node} {kind : Kind}
    {children : List Node} (h : m.IsMade kind children) : OriginalIfClear marker root m := by
  intro hread
  rw [h.synthesized] at hread
  cases hread

def OriginalAfter (marker : String) (root : Node) (_following : List Node) (n : Node)
    (change : Change) : Prop :=
  ∀ r, change.result n = some r → ∀ m ∈ r.preorder, OriginalIfClear marker root m

theorem original_of_results {marker : String} {root : Node} {inBody : Bool}
    {changes : List (Node × Change)} (h : Along (OriginalAfter marker root) inBody changes) :
    ∀ r ∈ results changes, ∀ m ∈ r.preorder, OriginalIfClear marker root m := by
  intro r hr
  obtain ⟨n, change, hmem, hresult⟩ := mem_results_iff.mp hr
  obtain ⟨_, hn⟩ := h.exists_of_mem hmem
  exact hn r hresult

namespace SourceTree

variable {s : Setting} {root n : Node} {following : List Node} {change : Change}
  (tree : SourceTree s.links root)
include tree

theorem originalIfClear_of_isClear {r : Node} (hr : r ∈ root.preorder) (hclear : r.IsClear s.marker) :
    ∀ m ∈ r.preorder, OriginalIfClear s.marker root m := by
  intro m hm _
  have hmem := Node.mem_preorder_trans hm hr
  rw [tree.source_eq hmem]
  refine ⟨hmem, iff_of_true (fun k hk => ?_) rfl⟩
  exact hclear k (Node.mem_preorder_trans hk hm)

/-- A copy of a node is another node. -/
theorem copyWith_ne {m : Node} (hn : n ∈ root.preorder) (cs : List Node) : m.copyWith cs ≠ n := by
  intro heq
  obtain ⟨i, hi, _⟩ := tree.found n hn
  rw [← heq, Node.id_copyWith] at hi
  cases hi

/-- In what a node becomes, the clear nodes are those of the source. -/
theorem originalAfter_of_becomes (h : Becomes s following n change) :
    ReachedAt s.marker root following n → OriginalAfter s.marker root following n change := by
  induction h with
  | removeImport => exact fun _ r hr => absurd hr (by simp [Change.result])
  | removeElse => exact fun _ r hr => absurd hr (by simp [Change.result])
  | @expand following n condition made change yes no hif _ hcondition hbody _ hother _ _ _ hmade
      ihInner ihYes ihNo =>
    intro hat r hr
    obtain rfl : made = r := Option.some.inj hr
    have hb := ((tree.entries_eq_ok_iff hat.mem (Node.hasBody_of_isIf hif)).mp hbody).1
    exact hmade.forall_preorder (fun hpart _ => originalIfClear_of_isMade hpart)
      (ihInner (hat.condition hif hcondition))
      (original_of_results ((tree.along_body hat hif hb).mp ihYes))
      (original_of_results ((tree.along_otherwise hat hif hother).mp ihNo))
  | @visitChildren following n changes himport hif helse hchecked hchildren hchanges ih =>
    intro hat r hr
    have hplain := isConstruct_eq_false_iff.mpr ⟨hif, helse, himport⟩
    have hbecomes : Becomes s following n (n.changed changes) :=
      .visitChildren himport hif helse hchecked hchildren hchanges
    have hkeep := hbecomes.eq_keep_iff
    rw [Node.result_changed, Option.some.injEq] at hr
    rcases Node.changed_cases n changes with ⟨_, hchanged, hrebuilt⟩ | ⟨hchanged, hrebuilt⟩
    · rw [← hr, hrebuilt]
      exact tree.originalIfClear_of_isClear hat.mem (hkeep.mp hchanged)
    · have hnot : ¬ n.IsClear s.marker := by
        rw [← hkeep, hchanged]
        simp
      intro m hm
      rw [← hr, hrebuilt, Node.mem_preorder_iff, Node.children_copyWith] at hm
      rcases hm with rfl | ⟨c, hc, hmc⟩
      · intro _
        rw [Node.source_copyWith, tree.source_eq hat.mem]
        exact ⟨hat.mem, iff_of_false hnot (tree.copyWith_ne hat.mem _)⟩
      · exact original_of_results ((hat.along_children hplain hchildren).mp ih) c hc m hmc

end SourceTree

/-! ### Nodes that are visited -/

/-- What is entered within the visit of a node becomes part of what the node becomes. -/
theorem Becomes.exists_of_enters {s : Setting} {root n c : Node} {following later : List Node}
    {change : Change} (tree : SourceTree s.links root) (h : Becomes s following n change)
    (hplaced : Placed root n following) (hc : Enters s.marker following n later c) :
    ∃ inner, Becomes s later c inner ∧
      ∀ m, inner.result c = some m → ∃ r, change.result n = some r ∧ m.preorder ⊆ r.preorder := by
  have hsplit : ∀ {inBody : Bool} {changes : List (Node × Change)} {before rest : List Node},
      Along (Becomes s) inBody changes → changes.map Prod.fst = before ++ c :: rest →
        ∃ inner, Becomes s (if inBody then rest else []) c inner ∧
          ∀ m, inner.result c = some m → m ∈ results changes := by
    intro inBody changes before rest halong hfst
    obtain ⟨front, back, rfl, _, hback⟩ := List.map_eq_append_iff.mp hfst
    obtain ⟨⟨d, inner⟩, after, rfl, hd, hafter⟩ := List.map_eq_cons_iff.mp hback
    obtain rfl : d = c := hd
    refine ⟨inner, ?_, fun m hm => mem_results_iff.mpr ⟨d, inner, by simp, hm⟩⟩
    have hbecomes := halong front d inner after rfl
    rwa [hafter] at hbecomes
  cases hc with
  | condition hif he =>
    obtain ⟨e, inner, yes, no, made, _, hcondition, _, _, _, hinner, _, _, hmade, rfl⟩ := h.of_isIf hif
    rw [he, Except.ok.injEq] at hcondition
    subst hcondition
    exact ⟨inner, hinner, fun m hm => ⟨made, rfl, hmade.subset.1 m hm⟩⟩
  | body hif hbody =>
    obtain ⟨_, _, yes, no, made, _, _, hentries, _, _, _, hyes, _, hmade, rfl⟩ := h.of_isIf hif
    have hb := ((tree.entries_eq_ok_iff (mem_of_placed hplaced) (Node.hasBody_of_isIf hif)).mp
      hentries).1
    obtain ⟨inner, hbecomes, hresults⟩ := hsplit hyes (hb.trans hbody)
    exact ⟨inner, hbecomes, fun m hm => ⟨made, rfl, hmade.subset.2.1 m (hresults m hm)⟩⟩
  | otherwise hif hother =>
    obtain ⟨_, _, yes, no, made, _, _, _, _, hleading, _, _, hno, hmade, rfl⟩ := h.of_isIf hif
    have hb := tree.laterBody_eq (fun d => mem_of_following hplaced) hleading
    obtain ⟨inner, hbecomes, hresults⟩ := hsplit hno (hb.symm.trans hother)
    exact ⟨inner, hbecomes, fun m hm => ⟨made, rfl, hmade.subset.2.2 m (hresults m hm)⟩⟩
  | inside hplain hchildren =>
    obtain ⟨changes, _, hfst, halong, rfl⟩ := h.of_plain hplain
    obtain ⟨inner, hbecomes, hresults⟩ := hsplit halong (hfst.trans hchildren)
    simp only [decide_eq_true_eq] at hbecomes
    refine ⟨inner, hbecomes, fun m hm => ⟨n.rebuilt changes, Node.result_changed n changes, ?_⟩⟩
    apply Node.preorder_subset_of_mem_children
    rw [Node.children_rebuilt hfst]
    exact hresults m hm

/-- A clear node that is visited within the visit of a node is part of what the node becomes. -/
theorem SourceTree.mem_of_isClear {s : Setting} {root n m : Node} {following : List Node}
    (tree : SourceTree s.links root) : ReachedAt s.marker root following n →
      m ∈ visitOrder s.marker following n → m.IsClear s.marker →
        ∀ change, Becomes s following n change →
          ∃ r, change.result n = some r ∧ m.preorder ⊆ r.preorder := by
  induction following, n using entersInduction s.marker with
  | step following n ih =>
    intro hat hm hclear change h
    rcases mem_visitOrder_iff.mp hm with rfl | ⟨later, c, hc, hmc⟩
    · rw [h.eq_keep_iff.mpr hclear]
      exact ⟨m, rfl, List.Subset.refl _⟩
    · obtain ⟨inner, hbecomes, hpart⟩ := h.exists_of_enters tree hat.placed hc
      obtain ⟨k, hk, hmk⟩ := ih later c hc (tree.reachedAt_of_enters hat hc) hmc hclear inner hbecomes
      obtain ⟨r, hr, hkr⟩ := hpart k hk
      exact ⟨r, hr, List.Subset.trans hmk hkr⟩

/-! ### Visits in the journal -/

theorem mem_steps_iff {marker : String} {i : NodeId} {n : Node} :
    Step.visit (some i) ∈ n.steps marker ↔ n.id = some i := by
  rw [← List.count_pos_iff, count_steps, List.count_pos_iff, List.mem_singleton]
  exact eq_comm

theorem mem_stepsOf_iff {marker : String} {i : NodeId} {ns : List Node} :
    Step.visit (some i) ∈ stepsOf marker ns ↔ ∃ n ∈ ns, n.id = some i := by
  rw [stepsOf, List.mem_flatMap]
  exact exists_congr fun n => and_congr_right fun _ => mem_steps_iff

theorem mem_sourceSteps_iff {i : NodeId} {journal : List Step} :
    Step.visit (some i) ∈ sourceSteps journal ↔ Step.visit (some i) ∈ journal := by
  simp [sourceSteps]

namespace SourceTree

variable {s : Setting} {root : Node} (tree : SourceTree s.links root)
include tree

/-- A journal that has the steps of nodes of the source has the visits of these nodes. -/
theorem visit_mem_iff {m : Node} {journal : List Step} {order : List Node}
    (horder : ∀ n ∈ order, n ∈ root.preorder)
    (hsteps : sourceSteps journal = stepsOf s.marker order) (hm : m ∈ root.preorder) :
    Step.visit m.id ∈ journal ↔ m ∈ order := by
  obtain ⟨i, hi, _⟩ := tree.found m hm
  rw [hi, ← mem_sourceSteps_iff, hsteps, mem_stepsOf_iff]
  constructor
  · rintro ⟨n, hn, hid⟩
    rwa [← tree.eq_of_id_eq (horder n hn) hm (hid.trans hi.symm)]
  · intro hmem
    exact ⟨m, hmem, hi⟩

end SourceTree

theorem size_le_of_placed {root n : Node} {following : List Node} (h : Placed root n following) :
    n.size + Node.sizeAll following ≤ root.size := by
  obtain ⟨p, hp, before, rest, hcs, rfl⟩ := h
  have hlt := Node.sizeAll_children_lt p
  have hle := Node.size_le_of_mem_preorder hp
  rw [hcs, Node.sizeAll_append, Node.sizeAll] at hlt
  split
  · omega
  · rw [Node.sizeAll]
    omega

/-- What a visit of the node `n` of the source came to: a clear node is kept, and any other is removed
or another node takes its place; in that, the clear nodes of the source are themselves, and none of those
that were visited is lost. -/
structure KeepsClear (marker : String) (root n : Node) (journal : List Step) (change : Change) :
    Prop where
  keep_iff : change = .keep ↔ n.IsClear marker
  replaced : ∀ r, change = .replace r → r ≠ n ∧ r.id = none ∧ r.source = n
  original : ∀ r, change.result n = some r → ∀ m ∈ r.preorder, OriginalIfClear marker root m
  kept : ∀ r, change.result n = some r → ∀ m ∈ root.preorder, Step.visit m.id ∈ journal →
    m.IsClear marker → m ∈ r.preorder

theorem SourceTree.keepsClear {s : Setting} {root n : Node} {following : List Node} {fuel : Nat}
    {change : Change} (tree : SourceTree s.links root) (hat : ReachedAt s.marker root following n)
    (h : (visit s fuel n).outcome = .ok change) :
    KeepsClear s.marker root n (visit s fuel n).journal change := by
  have hbecomes := tree.becomes_of_visit rfl fuel n following change hat.placed h
  have horder : ∀ m ∈ visitOrder s.marker following n, m ∈ root.preorder := by
    intro m hm
    obtain ⟨_, hm, _⟩ := tree.exists_reachedAt_of_mem hat hm
    exact hm.mem
  have hsteps := (tree.traced_visit fuel following n hat.placed fuel (Nat.le_refl fuel)).ends change h
  refine ⟨hbecomes.eq_keep_iff, fun r hr => ?_, tree.originalAfter_of_becomes hbecomes hat, ?_⟩
  · obtain ⟨hsource, hid⟩ := hbecomes.of_replace hr
    refine ⟨?_, hid, hsource.trans (tree.source_eq hat.mem)⟩
    intro heq
    obtain ⟨i, hi, _⟩ := tree.found n hat.mem
    rw [← heq, hid] at hi
    cases hi
  · intro r hr m hm hvisit hclear
    have hmem := (tree.visit_mem_iff horder hsteps hm).mp hvisit
    obtain ⟨r', hr', hsub⟩ := tree.mem_of_isClear hat hmem hclear change hbecomes
    rw [hr, Option.some.injEq] at hr'
    rw [hr']
    exact hsub (Node.self_mem_preorder m)

namespace SourceFile

variable {name : String} {text : Text} {tree : GrammarTree} {file out : SourceFile}
  {marker reportedName : String}

/-- A program has the whole text as its stretch. -/
theorem print_root_of_program (hfile : ofGrammar name text tree = .ok file)
    (hprogram : tree.root.type = "program") : file.print = .ok text := by
  have hsource := sourceTree hfile
  have hroot := Node.self_mem_preorder file.root
  have htext := text_of_ofGrammar hfile
  have hspan : file.root.info.start = 0 ∧ file.root.info.stop = text.length := by
    obtain ⟨n, hn, rfl⟩ := ofGrammar_eq_ok hfile
    obtain ⟨m, _, ⟨hspecial, _⟩ | ⟨_, rfl⟩⟩ := Conversion.convert_root hn
    · rw [hprogram] at hspecial
      exact absurd hspecial (by decide)
    · change (Node.number none 0 _).1.info.start = _ ∧ (Node.number none 0 _).1.info.stop = _
      rw [Node.info_number]
      exact ⟨rfl, rfl⟩
  have hstart : 0 ≤ file.root.info.start := Int.le_of_eq hspan.1.symm
  rw [print, Node.print_of_source (hsource.bare _ hroot) (hsource.shapedAt hroot).notMade hstart,
    hspan.1, hspan.2, htext, window_all]

/-- In an expansion that succeeds, the visit of a node of the source keeps the node exactly if there is
no construct in it, and keeps the clear nodes below any other. A file without constructs stays the
same and prints its text; otherwise the root of the expanded file is a copy of the root of the file. -/
theorem visit_keeps_clear (hfile : ofGrammar name text tree = .ok file)
    (hprogram : tree.root.type = "program")
    (hout : (file.expand marker reportedName).outcome = .ok out) :
    (∀ n ∈ file.root.preorder, Step.visit n.id ∈ (file.expand marker reportedName).journal →
      (∃ change, (visit (file.setting marker reportedName)
        (visitDepth file.nodes.size file.root) n).outcome = .ok change) ∧
      ∀ fuel change, (visit (file.setting marker reportedName) fuel n).outcome = .ok change →
        KeepsClear marker file.root n (visit (file.setting marker reportedName) fuel n).journal
          change) ∧
    ((∀ n ∈ file.root.preorder, n.isConstruct marker = false) → out = file ∧ out.print = .ok text) ∧
    ((∃ n ∈ file.root.preorder, n.isConstruct marker = true) →
      out.root.id = none ∧ out.root.origin = some file.root) := by
  have hsource : SourceTree (file.setting marker reportedName).links file.root := sourceTree hfile
  have hreached : ∀ m ∈ file.visitOrder marker, m ∈ file.root.preorder := fun m hm =>
    hsource.mem_of_reached (hsource.mem_visitOrderAll_root_iff.mp hm)
  have hsteps := (traces_expand hfile marker reportedName).ends out hout
  have hused : ∀ m, Reached marker file.root m → WellUsed file.root m := by
    obtain ⟨changes, hfst, halong, _⟩ := exists_changes_of_expand hfile hout
    intro m hm
    obtain ⟨following, change, hplaced, hbecomes, _⟩ := hsource.locatedIn_of_reached hfst halong hm
    exact hsource.wellUsed_of_becomes hplaced hbecomes
  refine ⟨fun n hn hvisit => ?_, fun hplain => ?_, ?_⟩
  · have hmem := (hsource.visit_mem_iff hreached hsteps hn).mp hvisit
    have hreachedN := hsource.mem_visitOrderAll_root_iff.mp hmem
    obtain ⟨following, hplaced⟩ := hsource.placed_of_reached hreachedN
    constructor
    · have hsize := size_le_of_placed hplaced
      exact hsource.exists_visit_of_wellUsed hused _ n following hplaced hreachedN
        (by rw [visitDepth]; omega)
    · intro fuel change hchange
      exact hsource.keepsClear ⟨hplaced, hreachedN⟩ hchange
  · have hclear : ∀ c ∈ file.root.children, c.IsClear marker := fun c hc m hm =>
      hplain m (Node.mem_preorder_trans hm (Node.mem_preorder_of_mem_children hc))
    rw [expand_of_isClear hclear] at hout
    obtain rfl := Except.ok.inj hout
    exact ⟨rfl, print_root_of_program hfile hprogram⟩
  · rintro ⟨n, hn, hconstruct⟩
    obtain ⟨changes, hfst, halong, rfl⟩ := exists_changes_of_expand hfile hout
    change (file.root.rebuilt changes).id = none ∧ (file.root.rebuilt changes).origin = _
    rcases Node.changed_cases file.root changes with ⟨hkeep, _, _⟩ | ⟨_, hrebuilt⟩
    · -- then the whole file is clear, since its root is no construct
      have hroot : file.root.isConstruct marker = false :=
        isConstruct_eq_false_of_isPartKind (by rw [kind_root_of_program hfile hprogram]; rfl)
      have hclear : file.root.IsClear marker := by
        rw [isClear_iff, ← hfst]
        refine ⟨hroot, fun c hc => ?_⟩
        obtain ⟨x, hx, rfl⟩ := List.mem_map.mp hc
        obtain ⟨_, hbecomes⟩ := halong.exists_of_mem hx
        exact hbecomes.eq_keep_iff.mp (hkeep x hx)
      rw [hclear n hn] at hconstruct
      cases hconstruct
    · rw [hrebuilt]
      exact ⟨rfl, rfl⟩

/-- On the small page, every node that is visited has a visit that keeps it if it is clear. -/
theorem visit_keeps_clear_smallPage :
    ∃ file out, ofGrammar "page.tsx" SmallPage.text SmallPage.tree = .ok file ∧
      SmallPage.tree.root.type = "program" ∧ (file.expand "m" "").outcome = .ok out ∧
      ∀ n ∈ file.root.preorder, Step.visit n.id ∈ (file.expand "m" "").journal →
        ∃ change, (visit (file.setting "m" "") (visitDepth file.nodes.size file.root) n).outcome =
          .ok change ∧ (change = .keep ↔ n.IsClear "m") := by
  obtain ⟨file, out, hfile, hout, _⟩ := SmallPage.exists_expanded
  refine ⟨file, out, hfile, rfl, hout, fun n hn hvisit => ?_⟩
  obtain ⟨⟨change, hchange⟩, hkeeps⟩ := (visit_keeps_clear hfile rfl hout).1 n hn hvisit
  exact ⟨change, hchange, (hkeeps _ change hchange).keep_iff⟩

end SourceFile

end CondMarkup
