import CondMarkup.Proofs.Success
import CondMarkup.Transform

/-!
One expansion is enough. A node is clear if neither it nor anything below it is a construct. What
becomes of a node of the source is clear: a node that is kept is no construct and stays none when its
children change, and the nodes made for a ternary are neither elements nor imports. A clear node is
kept as it is by a visit, which does nothing but visit the nodes below it. So an expanded file is not
changed by another expansion.
-/

namespace CondMarkup

open Expansion

/-- Neither the node nor any node below it is a construct. -/
def Node.IsClear (marker : String) (n : Node) : Prop := ∀ m ∈ n.preorder, m.isConstruct marker = false

section IsClear

variable {marker : String} {n : Node}

theorem isClear_iff : n.IsClear marker ↔
    n.isConstruct marker = false ∧ ∀ c ∈ n.children, c.IsClear marker := by
  constructor
  · intro h
    refine ⟨h n (Node.self_mem_preorder n), fun c hc m hm => ?_⟩
    exact h m (Node.mem_preorder_iff.mpr (Or.inr ⟨c, hc, hm⟩))
  · rintro ⟨hn, hc⟩ m hm
    rcases Node.mem_preorder_iff.mp hm with rfl | ⟨c, hcn, hmc⟩
    · exact hn
    · exact hc c hcn m hmc

theorem isConstruct_eq_false_of_isPartKind (h : isPartKind n.kind = true) :
    n.isConstruct marker = false := by
  obtain ⟨himport, helement⟩ : n.kind ≠ .importDeclaration ∧ n.kind ≠ .jsxElement := by
    simpa [isPartKind] using h
  simp [Node.isConstruct, Node.isIf, Node.isElse, Node.isElementOf, Node.moduleSpecifier, himport,
    helement]

theorem Node.tagName_of_opening {openTag name : Node} (helement : n.kind = .jsxElement)
    (hopen : n.children.head? = some openTag) (hkind : openTag.kind = .jsxOpeningElement)
    (hname : openTag.children.head? = some name) : n.tagName = name.value := by
  have hbody : n.hasBody = true ∧ n.children ≠ [] := by
    constructor
    · simp [hasBody, helement, Kind.hasBody]
    · intro h
      rw [h] at hopen
      cases hopen
  simp [tagName, opening, if_pos hbody, hopen, hkind, hname]

/-- Whether a node is a construct depends on what it says of itself and on its tag. -/
theorem isConstruct_eq {m : Node} (hinfo : m.info = n.info)
    (htag : n.kind = .jsxElement → m.tagName = n.tagName) :
    m.isConstruct marker = n.isConstruct marker := by
  have hkind : m.kind = n.kind := congrArg NodeInfo.kind hinfo
  have hmodule : m.moduleSpecifier = n.moduleSpecifier := by
    rw [Node.moduleSpecifier, Node.moduleSpecifier, hkind, Node.value, Node.value, hinfo]
  have helement : ∀ tag, m.isElementOf tag = n.isElementOf tag := by
    intro tag
    rw [Node.isElementOf, Node.isElementOf, hkind]
    by_cases h : n.kind = .jsxElement
    · rw [htag h]
    · simp [h]
  rw [Node.isConstruct, Node.isConstruct, Node.isIf, Node.isIf, Node.isElse, Node.isElse, helement,
    helement, hmodule]

/-! ### Made nodes -/

section Made

variable {P : Node → Prop}
  (hpart : ∀ {m : Node} {kind : Kind} {children : List Node}, m.IsMade kind children →
    isPartKind kind = true → P m)
include hpart

/-- What holds of all made parts and of what is put into them holds of all nodes in a made node. -/
theorem Node.IsMade.forall_preorder {kind : Kind} {children : List Node} (h : n.IsMade kind children)
    (hkind : isPartKind kind = true) (hchildren : ∀ c ∈ children, ∀ m ∈ c.preorder, P m) :
    ∀ m ∈ n.preorder, P m := by
  intro m hm
  rcases mem_preorder_iff.mp hm with rfl | ⟨c, hc, hmc⟩
  · exact hpart h hkind
  · exact hchildren c (h.children_eq ▸ hc) m hmc

theorem IsBranch.forall_preorder {ifNode branch : Node} {entries : List Node}
    (h : IsBranch ifNode entries branch) (hentries : ∀ c ∈ entries, ∀ m ∈ c.preorder, P m) :
    ∀ m ∈ branch.preorder, P m := by
  obtain ⟨openTag, list, closeTag, hbranch, hopen, _, hlist, hclose⟩ := h
  refine hbranch.forall_preorder hpart rfl fun c hc => ?_
  simp only [List.mem_cons, List.not_mem_nil, or_false] at hc
  rcases hc with rfl | rfl | rfl
  · exact hopen.forall_preorder hpart rfl fun _ hd => absurd hd List.not_mem_nil
  · exact hlist.forall_preorder hpart rfl hentries
  · exact hclose.forall_preorder hpart rfl fun _ hd => absurd hd List.not_mem_nil

theorem IsElseBranch.forall_preorder {ifNode branch : Node} {entries : List (Node × Change)}
    (h : IsElseBranch ifNode entries branch)
    (hentries : ∀ c ∈ results entries, ∀ m ∈ c.preorder, P m) : ∀ m ∈ branch.preorder, P m := by
  rcases h with ⟨_, hnull⟩ | ⟨_, hbranch⟩
  · exact hnull.forall_preorder hpart rfl fun _ hd => absurd hd List.not_mem_nil
  · exact hbranch.forall_preorder hpart hentries

theorem IsConditionPart.forall_preorder {condition p : Node} {change : Change} {parts : List Node}
    (h : IsConditionPart condition change parts)
    (hcondition : ∀ r, change.result condition = some r → ∀ m ∈ r.preorder, P m) (hp : p ∈ parts) :
    ∀ m ∈ p.preorder, P m := by
  have hresult : ∀ r ∈ (change.result condition).toList, ∀ m ∈ r.preorder, P m := fun r hr =>
    hcondition r (Option.mem_toList.mp hr)
  rw [IsConditionPart] at h
  split at h
  · obtain ⟨q, rfl, hq⟩ := h
    rw [List.mem_singleton] at hp
    subst hp
    exact hq.forall_preorder hpart rfl hresult
  · subst h
    exact hresult p hp

/-- What holds of all made parts holds of all nodes in a ternary if it does in what the condition and
the entries of both branches became. -/
theorem IsTernary.forall_preorder {ifNode condition : Node} {change : Change}
    {yes no : List (Node × Change)} (h : IsTernary ifNode condition change yes no n)
    (hcondition : ∀ r, change.result condition = some r → ∀ m ∈ r.preorder, P m)
    (hyes : ∀ r ∈ results yes, ∀ m ∈ r.preorder, P m)
    (hno : ∀ r ∈ results no, ∀ m ∈ r.preorder, P m) : ∀ m ∈ n.preorder, P m := by
  obtain ⟨ternary, parts, yesBranch, noBranch, hn, _, hternary, hparts, hyesBranch, hnoBranch⟩ := h
  refine hn.forall_preorder hpart rfl fun c hc => ?_
  rw [List.mem_singleton] at hc
  subst hc
  refine hternary.forall_preorder hpart rfl fun c hc => ?_
  rcases List.mem_append.mp hc with hc | hc
  · exact hparts.forall_preorder hpart hcondition hc
  · simp only [List.mem_cons, List.not_mem_nil, or_false] at hc
    rcases hc with rfl | rfl
    · exact hyesBranch.forall_preorder hpart hyes
    · exact hnoBranch.forall_preorder hpart hno

end Made

/-- A ternary is clear if what the condition and the entries of both branches became is. -/
theorem IsTernary.isClear {ifNode condition : Node} {change : Change} {yes no : List (Node × Change)}
    (h : IsTernary ifNode condition change yes no n)
    (hcondition : ∀ r, change.result condition = some r → r.IsClear marker)
    (hyes : ∀ r ∈ results yes, r.IsClear marker) (hno : ∀ r ∈ results no, r.IsClear marker) :
    n.IsClear marker :=
  h.forall_preorder (fun hmade hkind => isConstruct_eq_false_of_isPartKind (hmade.kind_eq ▸ hkind))
    hcondition hyes hno

end IsClear

/-! ### Kept nodes -/

/-- A node that becomes something is clear afterwards. -/
def ClearAfter (marker : String) (_following : List Node) (n : Node) (change : Change) : Prop :=
  ∀ r, change.result n = some r → r.IsClear marker

theorem isClear_of_results {marker : String} {inBody : Bool} {changes : List (Node × Change)}
    (h : Along (ClearAfter marker) inBody changes) : ∀ r ∈ results changes, r.IsClear marker := by
  intro r hr
  obtain ⟨n, change, hmem, hr⟩ := mem_results_iff.mp hr
  obtain ⟨_, hclear⟩ := h.exists_of_mem hmem
  exact hclear r hr

/-- A node that is neither an element nor an import becomes a node that says the same of itself. -/
theorem Becomes.exists_of_isPartKind {s : Setting} {following : List Node} {n : Node}
    {change : Change}
    (h : Becomes s following n change) (hkind : isPartKind n.kind = true) :
    ∃ changes, changes.map Prod.fst = n.children ∧
      Along (Becomes s) (n.kind = .syntaxList) changes ∧
      change.result n = some (n.rebuilt changes) := by
  obtain ⟨changes, _, hfst, halong, rfl⟩ := h.of_plain (isConstruct_eq_false_of_isPartKind hkind)
  exact ⟨changes, hfst, halong, Node.result_changed n changes⟩

/-- The first child of a node, if it is neither an element nor an import, is the first child
afterwards. -/
theorem exists_head_of_becomes {s : Setting} {inBody : Bool} {n first : Node} {rest : List Node}
    {changes : List (Node × Change)} (hcs : n.children = first :: rest)
    (hkind : isPartKind first.kind = true) (hfst : changes.map Prod.fst = n.children)
    (halong : Along (Becomes s) inBody changes) :
    ∃ firstChanges, firstChanges.map Prod.fst = first.children ∧
      Along (Becomes s) (first.kind = .syntaxList) firstChanges ∧
      (n.rebuilt changes).children.head? = some (first.rebuilt firstChanges) := by
  rw [hcs] at hfst
  obtain ⟨⟨m, change⟩, later, rfl, hm, _⟩ := List.map_eq_cons_iff.mp hfst
  obtain rfl : m = first := hm
  obtain ⟨firstChanges, hfirst, hinner, hresult⟩ :=
    (halong [] m change later rfl).exists_of_isPartKind hkind
  refine ⟨firstChanges, hfirst, hinner, ?_⟩
  rw [Node.children_rebuilt (hfst.trans hcs.symm), results_cons, hresult]
  rfl

namespace SourceTree

variable {s : Setting} {root : Node} (tree : SourceTree s.links root)
include tree

/-- The opening tag of an element and the name in it are kept, so the element has the same tag
afterwards. -/
theorem tagName_rebuilt {n : Node} {inBody : Bool} {changes : List (Node × Change)}
    (hn : n ∈ root.preorder) (helement : n.kind = .jsxElement)
    (hfst : changes.map Prod.fst = n.children) (halong : Along (Becomes s) inBody changes) :
    (n.rebuilt changes).tagName = n.tagName := by
  obtain ⟨openTag, list, closeTag, hcs, hopen, _⟩ :=
    exists_of_map_kind_eq_three ((tree.shapedAt hn).element helement)
  have hmem : openTag ∈ root.preorder := Node.child_mem_preorder (by rw [hcs]; simp) hn
  obtain ⟨name, attributes, hparts, hname, _⟩ :=
    exists_of_map_kind_eq_two ((tree.shapedAt hmem).opening hopen)
  obtain ⟨openChanges, hopenFst, hopenAlong, hhead⟩ :=
    exists_head_of_becomes hcs (by rw [hopen]; rfl) hfst halong
  obtain ⟨nameChanges, _, _, hnameHead⟩ :=
    exists_head_of_becomes hparts (by rw [hname]; rfl) hopenFst hopenAlong
  rw [Node.tagName_of_opening helement (by rw [hcs]; rfl) hopen (by rw [hparts]; rfl),
    Node.tagName_of_opening (by rwa [Node.kind_rebuilt]) hhead (by rwa [Node.kind_rebuilt]) hnameHead,
    Node.value, Node.info_rebuilt]
  rfl

/-- What becomes of a node in the tree is clear. -/
theorem clear_of_becomes {following : List Node} {n : Node} {change : Change}
    (h : Becomes s following n change) :
    ReachedAt s.marker root following n → ClearAfter s.marker following n change := by
  induction h with
  | removeImport => exact fun _ r hr => absurd hr (by simp [Change.result])
  | removeElse => exact fun _ r hr => absurd hr (by simp [Change.result])
  | @expand following n condition made change yes no hif _ hcondition hbody _ hother _ _ _ hmade
      ihInner ihYes ihNo =>
    intro hat r hr
    obtain rfl : made = r := Option.some.inj hr
    have hb := ((tree.entries_eq_ok_iff hat.mem (Node.hasBody_of_isIf hif)).mp hbody).1
    exact hmade.isClear (ihInner (hat.condition hif hcondition))
      (isClear_of_results ((tree.along_body hat hif hb).mp ihYes))
      (isClear_of_results ((tree.along_otherwise hat hif hother).mp ihNo))
  | @visitChildren following n changes himport hif helse _ hchildren hchanges ih =>
    intro hat r hr
    have hplain := isConstruct_eq_false_iff.mpr ⟨hif, helse, himport⟩
    rw [Node.result_changed] at hr
    obtain rfl := Option.some.inj hr
    rw [isClear_iff, Node.children_rebuilt hchildren]
    refine ⟨?_, isClear_of_results ((hat.along_children hplain hchildren).mp ih)⟩
    rw [isConstruct_eq (Node.info_rebuilt n changes) fun helement =>
      tree.tagName_rebuilt hat.mem helement hchildren hchanges]
    exact hplain

end SourceTree

/-! ### Another expansion -/

/-- Visits in turn that all keep their nodes leave the node as it is. -/
theorem visitChildren_of_keep {visit : Node → Visited} {steps : Node → List Step} {n : Node}
    (h : ∀ c ∈ n.children, visit c = ⟨steps c, .ok .keep⟩) :
    n.visitChildren visit = ⟨n.children.flatMap steps, .ok .keep⟩ := by
  have hall : ∀ cs : List Node, (∀ c ∈ cs, visit c = ⟨steps c, .ok .keep⟩) →
      (cs.mapM fun c => do return (c, ← visit c) : Journaled Step ExpansionError _) =
        ⟨cs.flatMap steps, .ok (cs.map fun c => (c, .keep))⟩ := by
    intro cs
    induction cs with
    | nil =>
      intro _
      rfl
    | cons c rest ih =>
      intro hcs
      rw [List.mapM_cons, hcs c List.mem_cons_self, ih fun d hd => hcs d (List.mem_cons_of_mem c hd)]
      simp only [Journaled.bind_ok, Journaled.journal_pure, Journaled.outcome_pure, List.append_nil,
        List.flatMap_cons, List.map_cons]
  have hkeep : Node.changedChildren (n.children.map fun c => (c, Change.keep)) = none := by
    rw [Node.changedChildren_eq_none_iff]
    intro c hc
    obtain ⟨d, _, rfl⟩ := List.mem_map.mp hc
    rfl
  rw [Node.visitChildren, hall n.children h, Journaled.bind_ok, hkeep, Journaled.journal_pure,
    Journaled.outcome_pure, List.append_nil]

/-- No entry of the body of a clear node is an `<Else>`. -/
theorem check_of_isClear {marker : String} {n : Node} (h : n.IsClear marker) :
    Pairing.check n = .ok () := by
  rw [check_eq_ok_iff, elsesFollowIfs_iff]
  intro before e after hbody helse
  have hmem : e ∈ n.body := by rw [hbody]; simp
  have hclear := (isConstruct_eq_false_iff.mp (h e (Node.mem_preorder_of_mem_body hmem))).2.1
  rw [helse] at hclear
  cases hclear

/-- A visit of a clear node visits all nodes below it and keeps them. -/
theorem visit_of_isClear {s : Setting} (fuel : Nat) :
    ∀ n : Node, n.IsClear s.marker → n.size ≤ fuel →
      visit s fuel n = ⟨n.preorder.map fun m => .visit m.id, .ok .keep⟩ := by
  induction fuel with
  | zero =>
    intro n _ hsize
    have hpos := n.size_pos
    omega
  | succ fuel ih =>
    intro n hclear hsize
    obtain ⟨hplain, hchildren⟩ := isClear_iff.mp hclear
    obtain ⟨hif, helse, himport⟩ := isConstruct_eq_false_iff.mp hplain
    have hbelow : n.visitChildren (visit s fuel) =
        ⟨n.children.flatMap fun c => c.preorder.map fun m => .visit m.id, .ok .keep⟩ := by
      refine visitChildren_of_keep fun c hc => ih c (hchildren c hc) ?_
      have hlt := Node.size_lt_of_mem_children hc
      omega
    have htreat : treat s (visit s fuel) n = n.visitChildren (visit s fuel) := by
      rw [treat, if_neg himport, hif, helse, check_of_isClear hclear]
      by_cases hbody : n.hasBody = true
      · simp only [if_pos hbody]
        exact Journaled.bind_ok _
      · simp only [if_neg hbody]
        rfl
    rw [visit, htreat, hbelow, Node.preorder_eq n, List.map_cons, List.map_flatMap]
    rfl

namespace SourceFile

variable {file : SourceFile} {marker : String}

/-- If nothing below the root is a construct, all nodes below it are visited and the root is kept. -/
theorem visitChildren_root_of_isClear (h : ∀ c ∈ file.root.children, c.IsClear marker)
    (reportedName : String) :
    file.root.visitChildren
        (visit (file.setting marker reportedName) (visitDepth file.nodes.size file.root)) =
      ⟨file.root.children.flatMap fun c => c.preorder.map fun m => .visit m.id, .ok .keep⟩ := by
  refine visitChildren_of_keep fun c hc => visit_of_isClear _ c (h c hc) ?_
  have hlt := Node.size_lt_of_mem_children hc
  rw [visitDepth]
  omega

theorem expand_of_isClear (h : ∀ c ∈ file.root.children, c.IsClear marker) (reportedName : String) :
    file.expand marker reportedName =
      ⟨file.root.children.flatMap fun c => c.preorder.map fun m => .visit m.id, .ok file⟩ := by
  rw [expand, visitChildren_root_of_isClear h, Journaled.bind_ok, Journaled.journal_pure,
    Journaled.outcome_pure, List.append_nil]
  rfl

/-- Visits are not logged. -/
theorem transformed_of_isClear (h : ∀ c ∈ file.root.children, c.IsClear marker)
    (reportedName : String) : file.transformed marker reportedName = ⟨[], .ok file⟩ := by
  have hlog : ∀ name : String, (file.root.children.flatMap fun c => c.preorder.map fun m =>
      Step.visit m.id).filterMap (Step.record? name) = [] := by
    intro name
    rw [List.filterMap_eq_nil_iff]
    intro step hstep
    obtain ⟨c, _, hstep⟩ := List.mem_flatMap.mp hstep
    obtain ⟨m, _, rfl⟩ := List.mem_map.mp hstep
    rfl
  simp only [transformed, expand_of_isClear h]
  rw [hlog]
  rfl

/-- The nodes below the root of an expanded file are clear. -/
theorem isClear_of_expand {name : String} {text : Text} {tree : GrammarTree} {out : SourceFile}
    {reportedName : String} (hfile : ofGrammar name text tree = .ok file)
    (hout : (file.expand marker reportedName).outcome = .ok out) :
    ∀ c ∈ out.root.children, c.IsClear marker := by
  have hsource : SourceTree (file.setting marker reportedName).links file.root := sourceTree hfile
  obtain ⟨changes, hfst, halong, rfl⟩ := exists_changes_of_expand hfile hout
  have hclear : Along (ClearAfter marker) false changes :=
    (hsource.along_root hfst).mp fun before n change after hsplit =>
      hsource.clear_of_becomes (halong before n change after hsplit)
  intro c hc
  rw [withRoot, Node.children_rebuilt hfst] at hc
  exact isClear_of_results hclear c hc

/-- Below the root of an expanded file there are no constructs, and another expansion of it keeps the
root as it is: the file stays the same, prints the same text, and nothing is logged. -/
theorem expand_again {name : String} {text : Text} {tree : GrammarTree} {out : SourceFile}
    {reportedName : String} (hfile : ofGrammar name text tree = .ok file)
    (hout : (file.expand marker reportedName).outcome = .ok out) (again : String) :
    (∀ c ∈ out.root.children, ∀ m ∈ c.preorder,
      m.isIf = false ∧ m.isElse = false ∧ m.moduleSpecifier ≠ some marker) ∧
    (out.root.visitChildren
      (visit (out.setting marker again) (visitDepth out.nodes.size out.root))).outcome = .ok .keep ∧
    (out.expand marker again).outcome = .ok out ∧
    out.transformed marker again = ⟨[], .ok out⟩ ∧
    (out.transformed marker again >>= printed) = out.printed := by
  have hclear := isClear_of_expand hfile hout
  refine ⟨fun c hc m hm => isConstruct_eq_false_iff.mp (hclear c hc m hm), ?_, ?_, ?_, ?_⟩
  · rw [visitChildren_root_of_isClear hclear]
  · rw [expand_of_isClear hclear]
  · exact transformed_of_isClear hclear again
  · rw [transformed_of_isClear hclear]
    exact Journaled.pure_bind' out printed

/-- The small page, expanded once and again. -/
theorem expand_again_smallPage :
    ∃ file out, ofGrammar "page.tsx" SmallPage.text SmallPage.tree = .ok file ∧
      (file.expand "m" "").outcome = .ok out ∧ (out.expand "m" "").outcome = .ok out ∧
      out.transformed "m" "" = ⟨[], .ok out⟩ := by
  obtain ⟨file, out, hfile, hout, _⟩ := SmallPage.exists_expanded
  obtain ⟨_, _, hexpand, htransformed, _⟩ := expand_again hfile hout ""
  exact ⟨file, out, hfile, hout, hexpand, htransformed⟩

end SourceFile

end CondMarkup
