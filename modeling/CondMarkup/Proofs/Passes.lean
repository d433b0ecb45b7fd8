import CondMarkup.Proofs.PrintedText

/-!
Trees that come of passes over a source tree. A pass visits the children of the root; for each of them
the visitor keeps it, removes it, or puts in a copy of it or a made node that leads back to it, and what is
put in may have been rewritten to any depth. However many passes there are, a copy is printed as the
stretch of the source node that it leads back to, in which a child that nothing leads back to is cut out
and a child that a made node leads back to is replaced by the text of that node.
-/

namespace CondMarkup

namespace Node

/-- The chain of origins of one node comes by the other. -/
inductive LeadsTo : Node → Node → Prop
  | self (n : Node) : LeadsTo n n
  | next {n o m : Node} (origin : n.origin = some o) (rest : LeadsTo o m) : LeadsTo n m

theorem LeadsTo.source_eq {n m : Node} (h : n.LeadsTo m) : n.source = m.source := by
  induction h with
  | self n => rfl
  | @next n o m horigin _ ih =>
    cases n with
    | mk i p origin info cs =>
      obtain rfl : origin = some o := horigin
      rw [source, ih]

end Node

/-- The nodes of which trees over the tree of `root` are made. -/
inductive Printable (text : Text) (root : Node) : Node → Prop
  /-- A node of the source. -/
  | kept {n : Node} (mem : n ∈ root.preorder) : Printable text root n
  /-- A copy, or a copy of a copy, of a node of the source, with any children. -/
  | copied {n : Node} (id : n.id = none) (origin : n.origin ≠ none)
      (copied : n.info.synthesized = false) (source : n.source ∈ root.preorder)
      (children : ∀ c ∈ n.children, Printable text root c) : Printable text root n
  /-- A made node that prints by its parts, of which a ternary has three. -/
  | made {n : Node} (id : n.id = none) (made : n.info.synthesized = true)
      (parts : n.kind = .conditionalExpression → n.children.length = 3)
      (children : ∀ c ∈ n.children, Printable text root c) : Printable text root n
  /-- Any other made node that has a text. -/
  | printed {n : Node} {written : Text} (id : n.id = none) (made : n.info.synthesized = true)
      (print : n.print text = .ok written) : Printable text root n

/-- What a visitor may answer for a node. -/
inductive Revision (text : Text) (root n : Node) : Change → Prop
  | keep : Revision text root n .keep
  | remove : Revision text root n .remove
  | copy {children : List Node} (printable : Printable text root (n.copyWith children)) :
      Revision text root n (.replace (n.copyWith children))
  | made {m : Node} (made : m.info.synthesized = true) (printable : Printable text root m)
      (leads : m.LeadsTo n) : Revision text root n (.replace m)

/-- The node after its children were visited. -/
def Node.afterPass {σ : Type} (visit : Node → StateM σ Change) (s : σ) (n : Node) : Node :=
  ((n.visitChildren visit s).1.result n).getD n

/-- Whether all that a visitor answers for the children of a node is allowed, in whatever state. -/
def Allowed (text : Text) (root : Node) {σ : Type} (visit : Node → StateM σ Change) (n : Node) :
    Prop :=
  ∀ m ∈ n.children, ∀ s, Revision text root m (visit m s).1

/-- The trees that passes make of the tree of `root`. -/
inductive Passes (text : Text) (root : Node) : Node → Prop
  | start : Passes text root root
  | pass {n : Node} {σ : Type} (visit : Node → StateM σ Change) (s : σ) (before : Passes text root n)
      (allowed : Allowed text root visit n) : Passes text root (n.afterPass visit s)

/-! ### What is replaced -/

namespace Node

/-- Which child of a node leads back to `old`; the last, if several do. -/
def lastFrom? (n old : Node) : Option Node := n.children.reverse.find? fun c => c.source.same old

/-- The text of a node, which is empty if it has none. -/
def textIn (text : Text) (n : Node) : Text := (n.print text).toOption.getD []

theorem mem_children_of_lastFrom? {n old c : Node} (h : n.lastFrom? old = some c) :
    c ∈ n.children ∧ c.source.same old = true :=
  ⟨List.mem_reverse.mp (List.mem_of_find?_eq_some h), by simpa using List.find?_some h⟩

end Node

/-- What is replaced in the stretch of the source node that `n` leads back to: the children of that node
that are gone, and those that made nodes stand for; the others have replacements of their own. -/
def alterations (text : Text) (n : Node) : List Patch :=
  if n.origin.isNone then []
  else n.source.children.flatMap fun old =>
    match _h : n.lastFrom? old with
    | none => [⟨old.info.start, old.info.stop, []⟩]
    | some c =>
      if c.info.synthesized then [⟨old.info.start, old.info.stop, c.textIn text⟩]
      else alterations text c
termination_by n
decreasing_by exact Node.sizeOf_lt_of_mem_children (Node.mem_children_of_lastFrom? _h).1

/-- What is replaced in the stretch of a child that the given node stands for. -/
def replacedBy (text : Text) (old : Node) : Option Node → List Patch
  | none => [⟨old.info.start, old.info.stop, []⟩]
  | some c =>
    if c.info.synthesized then [⟨old.info.start, old.info.stop, c.textIn text⟩]
    else alterations text c

theorem alterations_of_source {text : Text} {n : Node} (h : n.origin = none) :
    alterations text n = [] := by
  rw [alterations, h]
  rfl

theorem alterations_of_origin {text : Text} {n : Node} (h : n.origin ≠ none) :
    alterations text n =
      (n.source.children.map fun old => (old, replacedBy text old (n.lastFrom? old))).flatMap
        Prod.snd := by
  have hsome : ¬ n.origin.isNone = true := by simpa using h
  rw [alterations, if_neg hsome, List.flatMap_map]
  congr 1
  funext old
  unfold replacedBy
  cases n.lastFrom? old <;> rfl

/-! ### Texts -/

theorem exists_printParts {kind : Kind} {parts : List Text}
    (h : kind = .conditionalExpression → parts.length = 3) :
    ∃ written, printParts kind parts = .ok written := by
  unfold printParts
  split
  case h_3 =>
    match parts, h rfl with
    | [condition, whenTrue, whenFalse], _ => exact ⟨_, rfl⟩
  all_goals exact ⟨_, rfl⟩

theorem exists_mapM_print {text : Text} {cs : List Node}
    (h : ∀ c ∈ cs, ∃ written, c.print text = .ok written) :
    ∃ parts, cs.mapM (fun c => c.print text) = .ok parts ∧ parts.length = cs.length := by
  obtain ⟨parts, hparts⟩ := exists_mapM_eq_ok h
  obtain ⟨pairs, hfst, hsnd, _⟩ := exists_pairs_of_mapM hparts
  exact ⟨parts, hparts, by rw [← hsnd, ← hfst, List.length_map, List.length_map]⟩

theorem standIn?_printAll {text : Text} {n old : Node} :
    standIn? old (Node.printAll text n.children) =
      (n.lastFrom? old).map fun c => (c, c.print text) := by
  rw [standIn?, Node.lastFrom?, Node.printAll_eq, ← List.map_reverse, List.find?_map]
  rfl

/-- A node that stands for a node of the source has the text of its stretch with the alterations. -/
structure PrintsAltered (text : Text) (root n : Node) : Prop where
  source_mem : n.source ∈ root.preorder
  inOrder : InOrder n.source.info.start n.source.info.stop ((alterations text n).map Patch.span)
  print_eq : n.print text =
    .ok (splice text n.source.info.start n.source.info.stop (alterations text n))

/-- A node that may be put in has a text, and a copy that of its stretch with the alterations. Only nodes
of the source have identities. -/
structure HasText (text : Text) (root n : Node) : Prop where
  altered : n.info.synthesized = false → PrintsAltered text root n
  exists_print : ∃ written, n.print text = .ok written
  mem_of_id : n.id ≠ none → n ∈ root.preorder

namespace LaidOut

variable {links : Links} {text : Text} {root n : Node} (laid : LaidOut text root)
  (tree : SourceTree links root)
include laid tree

theorem printsAltered_of_mem (hn : n ∈ root.preorder) : PrintsAltered text root n := by
  have hsource := tree.source_eq hn
  have hnone := @alterations_of_source text _ (tree.bare n hn)
  obtain ⟨hstart, hspan, _⟩ := laid.bounds hn
  refine ⟨hsource.symm ▸ hn, ?_, ?_⟩
  · rw [hsource, hnone]
    exact hspan
  · rw [hsource, hnone, Node.print_of_source (tree.bare n hn) (tree.shapedAt hn).notMade hstart]
    rfl

/-- What stands for a child of the source has the text of its stretch with what is replaced in it. -/
theorem standInText_eq {old : Node} (hold : old ∈ root.preorder)
    (hkids : ∀ c ∈ n.children, HasText text root c) :
    InOrder old.info.start old.info.stop
        ((replacedBy text old (n.lastFrom? old)).map Patch.span) ∧
      standInText text old (Node.printAll text n.children) =
        .ok (splice text old.info.start old.info.stop (replacedBy text old (n.lastFrom? old))) := by
  have hspan := (laid.bounds hold).2.1
  have hwhole : ∀ replacement : Text, InOrder old.info.start old.info.stop
      (([⟨old.info.start, old.info.stop, replacement⟩] : List Patch).map Patch.span) := fun _ =>
    ⟨Int.le_refl _, hspan, Int.le_refl _⟩
  rw [standInText, standIn?_printAll]
  cases hlast : n.lastFrom? old with
  | none =>
    refine ⟨hwhole [], ?_⟩
    rw [replacedBy, splice_whole]
    rfl
  | some c =>
    obtain ⟨hc, hlead⟩ := Node.mem_children_of_lastFrom? hlast
    obtain ⟨hcopy, ⟨written, hwritten⟩, hmem⟩ := hkids c hc
    dsimp only [Option.map_some]
    by_cases hmade : c.info.synthesized = true
    · -- a made node has no identity, so its own text is put in
      have hsame : ¬ c.same old = true := by
        intro hsame
        have hid : c.id ≠ none := by
          intro hid
          simp [Node.same, hid] at hsame
        rw [(tree.shapedAt (hmem hid)).notMade] at hmade
        cases hmade
      rw [replacedBy, if_pos hmade, if_neg hsame, splice_whole, hwritten, Node.textIn, hwritten]
      exact ⟨hwhole written, rfl⟩
    · have haltered := hcopy (Bool.eq_false_iff.mpr hmade)
      have hsource : c.source = old := (tree.same_iff haltered.source_mem hold).mp hlead
      have horder := haltered.inOrder
      have hprint := haltered.print_eq
      rw [hsource] at horder hprint
      rw [replacedBy, if_neg hmade]
      refine ⟨horder, ?_⟩
      by_cases hsame : c.same old = true
      · have hid : c.id ≠ none := by
          intro hid
          simp [Node.same, hid] at hsame
        rw [if_pos hsame, alterations_of_source (tree.bare c (hmem hid))]
        rfl
      · rw [if_neg hsame, hprint]

theorem printsAltered_of_copy (horigin : n.origin ≠ none) (hcopied : n.info.synthesized = false)
    (hsource : n.source ∈ root.preorder)
    (hkids : ∀ c ∈ n.children, HasText text root c) :
    PrintsAltered text root n := by
  obtain ⟨hfirst, _, hlast⟩ := laid.bounds hsource
  have horder := laid.inOrder n.source hsource
  have hmade : n.source.info.synthesized = false := (tree.shapedAt hsource).notMade
  have hfst : (n.source.children.map fun old =>
      (old, replacedBy text old (n.lastFrom? old))).map Prod.fst = n.source.children := by
    rw [List.map_map]
    exact List.map_id _
  have holds : ∀ x ∈ n.source.children.map fun old => (old, replacedBy text old (n.lastFrom? old)),
      InOrder x.1.info.start x.1.info.stop (x.2.map Patch.span) ∧
        standInText text x.1 (Node.printAll text n.children) =
          .ok (splice text x.1.info.start x.1.info.stop x.2) := by
    intro x hx
    obtain ⟨old, hold, rfl⟩ := List.mem_map.mp hx
    exact laid.standInText_eq tree (Node.child_mem_preorder hold hsource) hkids
  have hpatched : Patched (n.source.children.map fun old =>
      (old, replacedBy text old (n.lastFrom? old))) := fun x hx => (holds x hx).1
  refine ⟨hsource, ?_, ?_⟩
  · rw [alterations_of_origin horigin]
    exact hpatched.inOrder_flatMap (hfst.symm ▸ horder)
  · rw [alterations_of_origin horigin]
    exact hpatched.print_of_origin horigin hcopied hmade hfirst hlast horder hfst
      fun x hx => (holds x hx).2

theorem hasText_of_printable (h : Printable text root n) : HasText text root n := by
  induction h with
  | kept hn =>
    have haltered := laid.printsAltered_of_mem tree hn
    exact ⟨fun _ => haltered, ⟨_, haltered.print_eq⟩, fun _ => hn⟩
  | copied hid horigin hcopied hsource _ ih =>
    have haltered := laid.printsAltered_of_copy tree horigin hcopied hsource ih
    exact ⟨fun _ => haltered, ⟨_, haltered.print_eq⟩, fun hsome => absurd hid hsome⟩
  | made hid hmade hparts _ ih =>
    refine ⟨fun hcopied => ?_, ?_, fun hsome => absurd hid hsome⟩
    · rw [hmade] at hcopied
      cases hcopied
    · obtain ⟨parts, hprint, hlength⟩ := exists_mapM_print fun c hc => (ih c hc).exists_print
      rw [Node.print_of_made hmade, hprint]
      exact exists_printParts fun hkind => hlength.trans (hparts hkind)
  | printed hid hmade hprint =>
    refine ⟨fun hcopied => ?_, ⟨_, hprint⟩, fun hsome => absurd hid hsome⟩
    rw [hmade] at hcopied
    cases hcopied

/-- A copy whose children are those of the source has the text of the source. -/
theorem print_of_children_eq (h : Printable text root n) (hcopied : n.info.synthesized = false)
    (hchildren : n.children = n.source.children) :
    n.print text = .ok (window text n.source.info.start n.source.info.stop) := by
  have haltered := (laid.hasText_of_printable tree h).altered hcopied
  have hnone : alterations text n = [] := by
    by_cases horigin : n.origin = none
    · exact alterations_of_source horigin
    · rw [alterations_of_origin horigin, List.flatMap_map, List.flatMap_eq_nil_iff]
      intro old hold
      have hmem := Node.child_mem_preorder hold haltered.source_mem
      -- the child itself leads back to it, and no other child of the source does
      have hself : n.lastFrom? old = some old := by
        unfold Node.lastFrom?
        rw [hchildren]
        cases hfind : n.source.children.reverse.find? fun c => c.source.same old with
        | none =>
          have hnot := List.find?_eq_none.mp hfind old (List.mem_reverse.mpr hold)
          rw [tree.source_eq hmem] at hnot
          exact absurd ((tree.same_iff hmem hmem).mpr rfl) hnot
        | some c =>
          have hc := Node.child_mem_preorder
            (List.mem_reverse.mp (List.mem_of_find?_eq_some hfind)) haltered.source_mem
          have hsame : c.source.same old = true := by simpa using List.find?_some hfind
          rw [tree.source_eq hc, tree.same_iff hc hmem] at hsame
          rw [hsame]
      rw [hself, replacedBy, if_neg (by simp [(tree.shapedAt hmem).notMade]),
        alterations_of_source (tree.bare old hmem)]
  rw [haltered.print_eq, hnone]
  rfl

end LaidOut

/-! ### Passes -/

/-- The children of a node, each with what a visitor answers for it. -/
def Node.answers {σ : Type} (visit : Node → StateM σ Change) (s : σ) (n : Node) :
    List (Node × Change) :=
  (n.children.mapM (fun c => return (c, ← visit c) : Node → StateM σ (Node × Change)) s).1

theorem Node.afterPass_eq {σ : Type} (visit : Node → StateM σ Change) (s : σ) (n : Node) :
    n.afterPass visit s = n.rebuilt (n.answers visit s) := rfl

theorem Node.answers_spec {σ : Type} (visit : Node → StateM σ Change) (s : σ) (n : Node) :
    (n.answers visit s).map Prod.fst = n.children ∧
      ∀ c ∈ n.answers visit s, ∃ s', c.2 = (visit c.1 s').1 := by
  unfold Node.answers
  induction n.children generalizing s with
  | nil => exact ⟨rfl, fun c hc => absurd hc List.not_mem_nil⟩
  | cons c rest ih =>
    obtain ⟨hfst, hanswers⟩ := ih (visit c s).2
    rw [List.mapM_cons]
    refine ⟨congrArg (c :: ·) hfst, fun d hd => ?_⟩
    rcases List.mem_cons.mp hd with rfl | hd
    · exact ⟨s, rfl⟩
    · exact hanswers d hd

section Passes

variable {text : Text} {root n : Node}

theorem Printable.of_mem_children {c : Node} (h : Printable text root n)
    (hcopied : n.info.synthesized = false) (hc : c ∈ n.children) : Printable text root c := by
  cases h with
  | kept hn => exact .kept (Node.child_mem_preorder hc hn)
  | copied _ _ _ _ hchildren => exact hchildren c hc
  | made _ hmade _ _ =>
    rw [hmade] at hcopied
    cases hcopied
  | printed _ hmade _ =>
    rw [hmade] at hcopied
    cases hcopied

theorem Revision.printable_of_result {change : Change} {r : Node} (h : Revision text root n change)
    (hn : Printable text root n) (hr : change.result n = some r) :
    Printable text root r ∧ r.source = n.source := by
  cases h with
  | keep =>
    rw [Change.result, Option.some.injEq] at hr
    exact hr ▸ ⟨hn, rfl⟩
  | remove => cases hr
  | copy hprintable =>
    rw [Change.result, Option.some.injEq] at hr
    exact hr ▸ ⟨hprintable, Node.source_copyWith n _⟩
  | made _ hprintable hleads =>
    rw [Change.result, Option.some.injEq] at hr
    exact hr ▸ ⟨hprintable, hleads.source_eq⟩

/-- What is left of nodes leads back to where they did, in the same order. -/
theorem map_source_results_sublist {changes : List (Node × Change)}
    (h : ∀ c ∈ changes, Printable text root c.1 ∧ Revision text root c.1 c.2) :
    ((results changes).map Node.source).Sublist ((changes.map Prod.fst).map Node.source) := by
  induction changes with
  | nil => exact List.Sublist.slnil
  | cons c rest ih =>
    obtain ⟨m, change⟩ := c
    have hrest := ih fun d hd => h d (List.mem_cons_of_mem _ hd)
    obtain ⟨hm, hrevision⟩ := h (m, change) List.mem_cons_self
    rw [results_cons, List.map_append]
    cases hresult : change.result m with
    | none => exact hrest.cons _
    | some r =>
      have hr := (hrevision.printable_of_result hm hresult).2
      rw [Option.toList_some, List.map_singleton, hr]
      exact hrest.cons_cons _

/-- What a tree that passes made of the source tree keeps to: its children lead back to children of the
root, each to another one and in their order. -/
structure OverRoot (text : Text) (root n : Node) : Prop where
  printable : Printable text root n
  source_eq : n.source = root
  copied : n.info.synthesized = false
  sublist : (n.children.map Node.source).Sublist root.children

theorem OverRoot.answers {σ : Type} {visit : Node → StateM σ Change} (s : σ) (h : OverRoot text root n)
    (hallowed : Allowed text root visit n) :
    ∀ c ∈ n.answers visit s, Printable text root c.1 ∧ Revision text root c.1 c.2 := by
  intro c hc
  obtain ⟨hfst, hanswers⟩ := n.answers_spec visit s
  have hmem : c.1 ∈ n.children := hfst ▸ List.mem_map_of_mem hc
  obtain ⟨s', hanswer⟩ := hanswers c hc
  rw [hanswer]
  exact ⟨h.printable.of_mem_children h.copied hmem, hallowed c.1 hmem s'⟩

theorem OverRoot.afterPass {σ : Type} {visit : Node → StateM σ Change} (s : σ)
    (hroot : root ∈ root.preorder) (h : OverRoot text root n)
    (hallowed : Allowed text root visit n) : OverRoot text root (n.afterPass visit s) := by
  have hanswers := h.answers s hallowed
  have hfst := (n.answers_spec visit s).1
  rw [Node.afterPass_eq]
  rcases Node.changed_cases n (n.answers visit s) with ⟨_, _, hrebuilt⟩ | ⟨_, hrebuilt⟩
  · rw [hrebuilt]
    exact h
  · have hsource : (n.copyWith (results (n.answers visit s))).source = root := by
      rw [Node.source_copyWith, h.source_eq]
    rw [hrebuilt]
    refine ⟨.copied rfl (Option.some_ne_none n) h.copied (hsource.symm ▸ hroot) ?_, hsource,
      h.copied, ?_⟩
    · intro r hr
      obtain ⟨c, hc, hresult⟩ := List.mem_filterMap.mp hr
      obtain ⟨hprintable, hrevision⟩ := hanswers c hc
      exact (hrevision.printable_of_result hprintable hresult).1
    · have hsub := map_source_results_sublist hanswers
      rw [hfst] at hsub
      exact hsub.trans h.sublist

theorem Passes.overRoot {links : Links} (tree : SourceTree links root) (h : Passes text root n) :
    OverRoot text root n := by
  have hroot := Node.self_mem_preorder root
  induction h with
  | start =>
    refine ⟨.kept hroot, tree.source_eq hroot, (tree.shapedAt hroot).notMade, ?_⟩
    have hself : root.children.map Node.source = root.children.map id :=
      List.map_congr_left fun c hc => tree.source_eq (Node.child_mem_preorder hc hroot)
    rw [hself, List.map_id]
  | pass visit s _ hallowed ih => exact ih.afterPass s hroot hallowed

namespace OverRoot

variable {links : Links} (tree : SourceTree links root) (h : OverRoot text root n)
include h

theorem source_mem {c : Node} (hc : c ∈ n.children) : c.source ∈ root.children :=
  h.sublist.subset (List.mem_map_of_mem hc)

theorem mem_children_afterPass_iff {σ : Type} {visit : Node → StateM σ Change} {r : Node} (s : σ)
    (hallowed : Allowed text root visit n) : r ∈ (n.afterPass visit s).children ↔
      ∃ m change, (m, change) ∈ n.answers visit s ∧ change.result m = some r ∧
        m ∈ n.children ∧ r.source = m.source := by
  have hfst := (n.answers_spec visit s).1
  rw [Node.afterPass_eq, Node.children_rebuilt hfst, results, List.mem_filterMap]
  constructor
  · rintro ⟨⟨m, change⟩, hc, hresult⟩
    obtain ⟨hprintable, hrevision⟩ := h.answers s hallowed (m, change) hc
    exact ⟨m, change, hc, hresult, hfst ▸ List.mem_map_of_mem (f := Prod.fst) hc,
      (hrevision.printable_of_result hprintable hresult).2⟩
  · rintro ⟨m, change, hc, hresult, _⟩
    exact ⟨(m, change), hc, hresult⟩

include tree

theorem nodup : (n.children.map Node.source).Nodup :=
  (tree.nodup_children (Node.self_mem_preorder root)).sublist h.sublist

/-- Which child leads back to a child of the root is no matter of the order. -/
theorem lastFrom?_eq_some_iff {old c : Node} (hold : old ∈ root.children) :
    n.lastFrom? old = some c ↔ c ∈ n.children ∧ c.source = old := by
  have hmem : ∀ d ∈ root.children, d ∈ root.preorder := fun d hd =>
    Node.mem_preorder_of_mem_children hd
  have hfound : ∀ d, n.lastFrom? old = some d → d ∈ n.children ∧ d.source = old := by
    intro d hd
    obtain ⟨hchild, hsame⟩ := Node.mem_children_of_lastFrom? hd
    exact ⟨hchild, (tree.same_iff (hmem _ (h.source_mem hchild)) (hmem old hold)).mp hsame⟩
  refine ⟨hfound c, ?_⟩
  rintro ⟨hc, hsource⟩
  cases hlast : n.lastFrom? old with
  | none =>
    have hnot := List.find?_eq_none.mp hlast c (List.mem_reverse.mpr hc)
    rw [hsource] at hnot
    exact absurd ((tree.same_iff (hmem old hold) (hmem old hold)).mpr rfl) hnot
  | some d =>
    obtain ⟨hd, hdsource⟩ := hfound d hlast
    rw [List.inj_on_of_nodup_map (h.nodup tree) hd hc (hdsource.trans hsource.symm)]

variable {σ : Type} {visit : Node → StateM σ Change} (s : σ) (hallowed : Allowed text root visit n)
include hallowed

/-- After a pass, what leads back to a child of the root is what the visitor made of what led back to
it before. -/
theorem lastFrom?_afterPass {m : Node} {change : Change} (hc : (m, change) ∈ n.answers visit s) :
    m.source ∈ root.children ∧
      (n.afterPass visit s).lastFrom? m.source = change.result m := by
  have hafter := h.afterPass s (Node.self_mem_preorder root) hallowed
  have hfst := (n.answers_spec visit s).1
  have hm : m ∈ n.children := hfst ▸ List.mem_map_of_mem (f := Prod.fst) hc
  have hold := h.source_mem hm
  refine ⟨hold, ?_⟩
  apply Option.ext
  intro r
  rw [hafter.lastFrom?_eq_some_iff tree hold, h.mem_children_afterPass_iff s hallowed]
  constructor
  · rintro ⟨⟨m', change', hc', hresult, hm', hsource⟩, hlead⟩
    have hmm : m' = m := List.inj_on_of_nodup_map (h.nodup tree) hm' hm (hsource.symm.trans hlead)
    have hnodup : ((n.answers visit s).map Prod.fst).Nodup := by
      rw [hfst]
      exact List.Nodup.of_map Node.source (h.nodup tree)
    have hpair := List.inj_on_of_nodup_map hnodup hc' hc hmm
    rw [Prod.mk.injEq] at hpair
    rw [← hpair.1, ← hpair.2, hresult]
  · intro hresult
    obtain ⟨hprintable, hrevision⟩ := h.answers s hallowed (m, change) hc
    have hsource := (hrevision.printable_of_result hprintable hresult).2
    exact ⟨⟨m, change, hc, hresult, hm, hsource⟩, hsource⟩

/-- A child of the root that is gone stays so. -/
theorem lastFrom?_afterPass_of_none {old : Node} (hold : old ∈ root.children)
    (hnone : n.lastFrom? old = none) : (n.afterPass visit s).lastFrom? old = none := by
  have hafter := h.afterPass s (Node.self_mem_preorder root) hallowed
  cases hlast : (n.afterPass visit s).lastFrom? old with
  | none => rfl
  | some r =>
    obtain ⟨hr, hsource⟩ := (hafter.lastFrom?_eq_some_iff tree hold).mp hlast
    obtain ⟨m, _, _, _, hm, hlead⟩ := (h.mem_children_afterPass_iff s hallowed).mp hr
    have hfound := (h.lastFrom?_eq_some_iff tree hold).mpr ⟨hm, hlead.symm.trans hsource⟩
    rw [hnone] at hfound
    cases hfound

end OverRoot

end Passes

/-- Whatever passes make of a tree, it prints as the stretch of the source text in which what is gone is
cut out and what made nodes stand for is replaced by their texts, at every depth; after one more pass it
is what the visitor answered for each child that is gone or replaced. The same law holds of every copy
in the tree, and a copy that has the children of the source prints as the stretch of the source. -/
theorem SourceFile.print_of_passes {name : String} {text : Text} {tree : GrammarTree}
    {file : SourceFile} {n : Node} (h : ofGrammar name text tree = .ok file)
    (hlaid : LaidOut text file.root) (hn : Passes text file.root n) :
    n.print text = .ok (splice text file.root.info.start file.root.info.stop (alterations text n)) ∧
      InOrder file.root.info.start file.root.info.stop ((alterations text n).map Patch.span) ∧
      (∀ (σ : Type) (visit : Node → StateM σ Change) (s : σ), Allowed text file.root visit n →
        (∀ m change, (m, change) ∈ n.answers visit s → m.source ∈ file.root.children ∧
          (n.afterPass visit s).lastFrom? m.source = change.result m) ∧
        ∀ old ∈ file.root.children, n.lastFrom? old = none →
          (n.afterPass visit s).lastFrom? old = none) ∧
      ∀ m, Printable text file.root m → (∃ written, m.print text = .ok written) ∧
        (m.info.synthesized = false →
          m.print text =
            .ok (splice text m.source.info.start m.source.info.stop (alterations text m)) ∧
          (m.children = m.source.children →
            m.print text = .ok (window text m.source.info.start m.source.info.stop))) := by
  have htree := sourceTree h
  have hover := hn.overRoot htree
  have haltered := (hlaid.hasText_of_printable htree hover.printable).altered hover.copied
  have hprint := haltered.print_eq
  have horder := haltered.inOrder
  rw [hover.source_eq] at hprint horder
  refine ⟨hprint, horder, ?_, ?_⟩
  · intro σ visit s hallowed
    exact ⟨fun m change hc => hover.lastFrom?_afterPass htree s hallowed hc,
      fun old hold hnone => hover.lastFrom?_afterPass_of_none htree s hallowed hold hnone⟩
  · intro m hm
    have htext := hlaid.hasText_of_printable htree hm
    exact ⟨htext.exists_print, fun hcopied => ⟨(htext.altered hcopied).print_eq,
      hlaid.print_of_children_eq htree hm hcopied⟩⟩

/-- A visitor that counts its calls, removes the import and puts down the element without its parts. -/
def SmallPage.strip (m : Node) : StateM Nat Change :=
  modifyGet fun count => (if count = 0 then .remove else .replace (m.copyWith []), count + 1)

/-- The page after a pass in which its first child is removed and the other replaced. -/
theorem SourceFile.print_of_passes_smallPage :
    ∃ file n, ofGrammar "page.tsx" SmallPage.text SmallPage.tree = .ok file ∧
      LaidOut SmallPage.text file.root ∧ Passes SmallPage.text file.root n ∧
      n = file.root.afterPass SmallPage.strip 0 ∧
      n.print SmallPage.text = .ok (splice SmallPage.text file.root.info.start file.root.info.stop
        (alterations SmallPage.text n)) := by
  obtain ⟨file, _, hfile, _⟩ := SmallPage.exists_expanded
  have hover : SmallPage.tree.root.stop ≤ (Utf8.encode SmallPage.text).length := by
    decide +kernel
  have hlaid := laidOut hfile SmallPage.wellFormed hover
  have htree := sourceTree hfile
  have hallowed : Allowed SmallPage.text file.root SmallPage.strip file.root := by
    intro m hm count
    have hmem := Node.mem_preorder_of_mem_children hm
    change Revision _ _ _ (if count = 0 then .remove else .replace (m.copyWith []))
    split
    · exact .remove
    · have hsource : (m.copyWith []).source = m := by
        rw [Node.source_copyWith, htree.source_eq hmem]
      exact .copy (.copied rfl (Option.some_ne_none m) (htree.shapedAt hmem).notMade
        (hsource.symm ▸ hmem) fun c hc => absurd hc List.not_mem_nil)
  have hpasses := Passes.pass SmallPage.strip 0 .start hallowed
  exact ⟨file, _, hfile, hlaid, hpasses, rfl, (print_of_passes hfile hlaid hpasses).1⟩

end CondMarkup
