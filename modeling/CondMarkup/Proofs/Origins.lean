import CondMarkup.Proofs.Containers
import CondMarkup.Proofs.Representation
import CondMarkup.Proofs.SourceKept

/-!
Where origins lead. A node of the source has no origin. A copy has the node as its origin that it was
copied from, and its children lead to the children of that node, those aside that were removed. The braces
that were made for an `<If>` lead to it, and so do the opening tags of their branches: from such a tag to
the braces that are next around it, the `<If>` does not change. On a store, where a chain of origins might
lead in a circle, every chain of the expanded tree comes to an end.
-/

namespace CondMarkup

open Expansion

namespace Node

/-- Whether the node is the opening tag of a fragment that was made. -/
def isBranchOpening (n : Node) : Bool := n.info.synthesized && n.kind = .jsxOpeningFragment

/-- Whether the expansion removes the node: an `<Else>` or an import of the marker module. -/
def isRemoved (marker : String) (n : Node) : Bool :=
  n.isElse || n.moduleSpecifier = some marker

/-- The second node is in the tree of the first, and no braces are around it there. -/
inductive Exposes : Node → Node → Prop
  | self (n : Node) : Exposes n n
  | child {n c o : Node} (hn : n.kind ≠ .jsxExpression) (hc : c ∈ n.children) (h : Exposes c o) :
      Exposes n o

/-- The second node is below the first, and no braces are in between. -/
def Encloses (n o : Node) : Prop := ∃ c ∈ n.children, c.Exposes o

/-- What is not exposed is enclosed by braces. -/
theorem exposes_or_enclosed {n o : Node} (h : o ∈ n.preorder) :
    n.Exposes o ∨ ∃ m ∈ n.preorder, m.kind = .jsxExpression ∧ m.Encloses o := by
  induction n using treeInduction with
  | step n ih =>
    rcases mem_preorder_iff.mp h with rfl | ⟨c, hc, ho⟩
    · exact Or.inl (.self o)
    · rcases ih c hc ho with hexposes | ⟨m, hm, hbraces⟩
      · by_cases hn : n.kind = .jsxExpression
        · exact Or.inr ⟨n, self_mem_preorder n, hn, c, hc, hexposes⟩
        · exact Or.inl (.child hn hc hexposes)
      · exact Or.inr ⟨m, preorder_subset_of_mem_children hc hm, hbraces⟩

/-- Braces show nothing but themselves. -/
theorem Exposes.eq_of_braces {n o : Node} (h : n.Exposes o) (hn : n.kind = .jsxExpression) :
    o = n := by
  cases h with
  | self => rfl
  | child hnot => exact absurd hn hnot

theorem isBranchOpening_eq_false_of_kind {n : Node} (h : n.kind ≠ .jsxOpeningFragment) :
    n.isBranchOpening = false := by
  simp [isBranchOpening, h]

/-- A copy of a node of the source: it says the same of itself and stays in the same place, and its
children lead to different children of the node, in order and without those that are removed. -/
structure IsCopyOf (marker : String) (n m : Node) : Prop where
  origin_eq : m.origin = some n
  info_eq : m.info = n.info
  parent_eq : m.parent = n.parent
  children_eq : m.children.map source = n.children.filter fun c => !c.isRemoved marker
  distinct : (m.children.map source).Nodup

end Node

/-! ### Opening tags in a ternary -/

/-- Opening tags of branches that no braces are around lead to the node. -/
def OpensFor (n r : Node) : Prop := ∀ o, r.Exposes o → o.isBranchOpening = true → o.source = n

/-- All opening tags of branches have braces around them. -/
def Covered (r : Node) : Prop := ∀ o, r.Exposes o → o.isBranchOpening = false

section Openings

variable {ifNode condition n branch : Node} {change : Change} {yes no : List (Node × Change)}

theorem Covered.opensFor {r : Node} (h : Covered r) : OpensFor n r := by
  intro o ho hopening
  rw [h o ho] at hopening
  cases hopening

/-- In a part of a ternary the opening tags are those in its own parts. -/
theorem Node.IsMade.opensFor {part : Node} {kind : Kind} {children : List Node}
    (h : part.IsMade kind children) (hkind : kind ≠ .jsxOpeningFragment)
    (hchildren : ∀ c ∈ children, OpensFor n c) : OpensFor n part := by
  intro o ho hopening
  cases ho with
  | self =>
    rw [Node.isBranchOpening_eq_false_of_kind (by rw [h.kind_eq]; exact hkind)] at hopening
    cases hopening
  | child _ hc ho => exact hchildren _ (h.children_eq ▸ hc) o ho hopening

theorem IsBranch.opensFor {entries : List Node} (h : IsBranch ifNode entries branch)
    (hentries : ∀ r ∈ entries, Covered r) : OpensFor ifNode.source branch := by
  obtain ⟨openTag, list, closeTag, hbranch, hopen, hsource, hlist, hclose⟩ := h
  refine hbranch.opensFor (by decide) fun c hc => ?_
  simp only [List.mem_cons, List.not_mem_nil, or_false] at hc
  rcases hc with rfl | rfl | rfl
  · intro o ho _
    cases ho with
    | self => exact hsource
    | child _ hc => exact absurd (hopen.children_eq ▸ hc) List.not_mem_nil
  · exact hlist.opensFor (by decide) fun r hr => (hentries r hr).opensFor
  · exact hclose.opensFor (by decide) fun c hc => absurd hc List.not_mem_nil

theorem IsElseBranch.opensFor (h : IsElseBranch ifNode no branch)
    (hentries : ∀ r ∈ results no, Covered r) : OpensFor ifNode.source branch := by
  rcases h with ⟨_, hnull⟩ | ⟨_, hbranch⟩
  · exact hnull.opensFor (by decide) fun c hc => absurd hc List.not_mem_nil
  · exact hbranch.opensFor hentries

theorem IsConditionPart.opensFor {parts : List Node} (h : IsConditionPart condition change parts)
    (hcondition : ∀ r, change.result condition = some r → Covered r) :
    ∀ p ∈ parts, OpensFor n p := by
  have hresult : ∀ r ∈ (change.result condition).toList, OpensFor n r := fun r hr =>
    (hcondition r (Option.mem_toList.mp hr)).opensFor
  rw [IsConditionPart] at h
  split at h
  · obtain ⟨p, rfl, hp⟩ := h
    intro q hq
    rw [List.mem_singleton] at hq
    exact hq ▸ hp.opensFor (by decide) hresult
  · exact h ▸ hresult

/-- The opening tags that braces enclose lead to the same `<If>` as the braces. -/
theorem IsTernary.source_of_encloses (h : IsTernary ifNode condition change yes no n)
    (hcondition : ∀ r, change.result condition = some r → Covered r)
    (hyes : ∀ r ∈ results yes, Covered r) (hno : ∀ r ∈ results no, Covered r) :
    ∀ o, n.Encloses o → o.isBranchOpening = true → o.source = n.source := by
  obtain ⟨ternary, parts, yesBranch, noBranch, hn, hsource, hternary, hparts, hyesBranch,
    hnoBranch⟩ := h
  have hopens : OpensFor ifNode.source ternary := by
    refine hternary.opensFor (by decide) fun p hp => ?_
    rcases List.mem_append.mp hp with hp | hp
    · exact hparts.opensFor hcondition p hp
    · simp only [List.mem_cons, List.not_mem_nil, or_false] at hp
      rcases hp with rfl | rfl
      · exact hyesBranch.opensFor hyes
      · exact hnoBranch.opensFor hno
  rintro o ⟨c, hc, ho⟩ hopening
  rw [hn.children_eq, List.mem_singleton] at hc
  subst hc
  rw [hsource]
  exact hopens o ho hopening

end Openings

/-! ### What a node becomes -/

theorem Becomes.result_eq_none_iff {s : Setting} {following : List Node} {n : Node} {change : Change}
    (h : Becomes s following n change) :
    change.result n = none ↔ n.isRemoved s.marker = true := by
  cases h with
  | removeImport himport => simp [Change.result, Node.isRemoved, himport]
  | removeElse helse => simp [Change.result, Node.isRemoved, helse]
  | expand hif =>
    simp [Change.result, Node.isRemoved, Node.isElse_eq_false_of_isIf hif,
      Node.moduleSpecifier_of_isElementOf hif]
  | visitChildren himport _ helse => simp [Node.isRemoved, himport, helse]

/-- A node of an expanded tree that is no part of a ternary. If it was not made, it is a node of the
source or a copy of one; if it was, it is the braces that an `<If>` became. -/
structure Attributed (s : Setting) (root m : Node) : Prop where
  kept : m.info.synthesized = false →
    m ∈ root.preorder ∨ ∃ n ∈ root.preorder, Node.IsCopyOf s.marker n m
  container : m.isContainer = true → ∃ following n, ReachedAt s.marker root following n ∧
    n.isIf = true ∧ Becomes s following n (.replace m) ∧ m.source = n
  enclosed : m.kind = .jsxExpression → ∀ o, m.Encloses o → o.isBranchOpening = true →
    m.isContainer = true ∧ o.source = m.source

/-- What stands in the place of a node is covered, and all in it is attributed. -/
def AttributedAt (s : Setting) (root : Node) (_following : List Node) (n : Node) (change : Change) :
    Prop :=
  ∀ r, change.result n = some r → Covered r ∧ ∀ m ∈ r.representatives, Attributed s root m

section Results

variable {s : Setting} {root : Node} {inBody : Bool} {changes : List (Node × Change)}

theorem covered_of_results (h : Along (AttributedAt s root) inBody changes) :
    ∀ r ∈ results changes, Covered r := by
  intro r hr
  obtain ⟨n, change, hmem, hr⟩ := mem_results_iff.mp hr
  obtain ⟨_, hat⟩ := h.exists_of_mem hmem
  exact (hat r hr).1

theorem attributed_of_results (h : Along (AttributedAt s root) inBody changes) :
    ∀ m ∈ (results changes).flatMap Node.representatives, Attributed s root m := by
  intro m hm
  obtain ⟨r, hr, hm⟩ := List.mem_flatMap.mp hm
  obtain ⟨n, change, hmem, hr⟩ := mem_results_iff.mp hr
  obtain ⟨_, hat⟩ := h.exists_of_mem hmem
  exact (hat r hr).2 m hm

end Results

namespace SourceTree

variable {s : Setting} {root : Node} {changes : List (Node × Change)}
  (tree : SourceTree s.links root)
include tree

/-- What is left of a list of nodes leads to them, without those that are removed. -/
theorem source_results {inBody : Bool} (halong : Along (Becomes s) inBody changes)
    (hmem : ∀ n ∈ changes.map Prod.fst, n ∈ root.preorder) :
    (results changes).map Node.source =
      (changes.map Prod.fst).filter fun n => !n.isRemoved s.marker := by
  induction changes with
  | nil => rfl
  | cons c rest ih =>
    obtain ⟨n, change⟩ := c
    obtain ⟨hn, hrest⟩ := along_cons.mp halong
    rw [List.map_cons, List.forall_mem_cons] at hmem
    rw [results_cons, List.map_append, ih hrest hmem.2, List.map_cons, List.filter_cons]
    cases hresult : change.result n with
    | none =>
      rw [hn.result_eq_none_iff.mp hresult, if_neg (by simp)]
      rfl
    | some r =>
      have hleft : n.isRemoved s.marker = false := by
        rw [← Bool.not_eq_true, ← hn.result_eq_none_iff, hresult]
        simp
      rw [hleft, if_pos (by simp), Option.toList_some, List.map_singleton,
        tree.source_of_result hmem.1 hn hresult]
      rfl

/-- A node that is kept is the node itself or a copy of it. -/
theorem isCopyOf_rebuilt {n : Node} {inBody : Bool} (hn : n ∈ root.preorder)
    (hfst : changes.map Prod.fst = n.children) (halong : Along (Becomes s) inBody changes) :
    n.rebuilt changes = n ∨ Node.IsCopyOf s.marker n (n.rebuilt changes) := by
  rcases Node.changed_cases n changes with ⟨_, _, h⟩ | ⟨_, h⟩
  · exact Or.inl h
  · have hsources := tree.source_results halong fun c hc => Node.child_mem_preorder (hfst ▸ hc) hn
    rw [hfst] at hsources
    rw [h]
    refine Or.inr ⟨rfl, rfl, rfl, hsources, ?_⟩
    rw [Node.children_copyWith, hsources]
    exact (tree.nodup_children hn).sublist List.filter_sublist

/-- A node that is kept is attributed and covered, if what its children became is. -/
theorem attributed_rebuilt {n : Node} {inBody : Bool} (hn : n ∈ root.preorder)
    (hfst : changes.map Prod.fst = n.children) (halong : Along (Becomes s) inBody changes)
    (hresults : Along (AttributedAt s root) inBody changes) :
    Covered (n.rebuilt changes) ∧ ∀ m ∈ (n.rebuilt changes).representatives, Attributed s root m := by
  have hread := tree.synthesized_rebuilt hn changes
  have hnot : (n.rebuilt changes).isContainer = false := by
    rw [Node.isContainer, hread, Bool.false_and]
  constructor
  · intro o ho
    cases ho with
    | self => rw [Node.isBranchOpening, hread, Bool.false_and]
    | child _ hc ho =>
      rw [Node.children_rebuilt hfst] at hc
      exact covered_of_results hresults _ hc o ho
  · intro m hm
    rw [Node.representatives_eq, Node.children_rebuilt hfst, List.mem_append] at hm
    rcases hm with hm | hm
    · obtain rfl : m = n.rebuilt changes := by
        split at hm
        · exact List.mem_singleton.mp hm
        · exact absurd hm List.not_mem_nil
      refine ⟨fun _ => ?_, fun h => ?_, ?_⟩
      · rcases tree.isCopyOf_rebuilt hn hfst halong with h | h
        · exact Or.inl (h.symm ▸ hn)
        · exact Or.inr ⟨n, hn, h⟩
      · rw [hnot] at h
        cases h
      · -- braces of the source enclose no opening tag that was made
        rintro - o ⟨c, hc, ho⟩ hopening
        rw [Node.children_rebuilt hfst] at hc
        rw [covered_of_results hresults _ hc o ho] at hopening
        cases hopening
    · exact attributed_of_results hresults m hm

theorem attributed_of_becomes {following : List Node} {n : Node} {change : Change}
    (h : Becomes s following n change) :
    ReachedAt s.marker root following n → AttributedAt s root following n change := by
  induction h with
  | removeImport => exact fun _ r hr => absurd hr (by simp [Change.result])
  | removeElse => exact fun _ r hr => absurd hr (by simp [Change.result])
  | @expand following n condition made change yes no hif hchecked hcondition hbody hparent hother
      hinner hyes hno hmade ihInner ihYes ihNo =>
    intro hat r hr
    obtain rfl : made = r := Option.some.inj hr
    have hb := ((tree.entries_eq_ok_iff hat.mem (Node.hasBody_of_isIf hif)).mp hbody).1
    have hcontainer := hmade.isContainer
    have hcondition' := ihInner (hat.condition hif hcondition)
    have hyes' := (tree.along_body hat hif hb).mp ihYes
    have hno' := (tree.along_otherwise hat hif hother).mp ihNo
    constructor
    · intro o ho
      rw [ho.eq_of_braces (Node.kind_of_isContainer hcontainer)]
      exact Node.isBranchOpening_eq_false_of_kind
        (by rw [Node.kind_of_isContainer hcontainer]; decide)
    intro m hm
    rw [hmade.representatives_eq, List.mem_cons, List.mem_append, List.mem_append] at hm
    rcases hm with rfl | (hm | hm) | hm
    · -- the braces themselves
      have hbecomes : Becomes s following n (.replace m) :=
        .expand hif hchecked hcondition hbody hparent hother hinner hyes hno hmade
      refine ⟨fun h => ?_, fun _ => ⟨following, n, hat, hif, hbecomes,
        tree.source_of_result hat.mem hbecomes rfl⟩, fun _ => ?_⟩
      · rw [Node.isContainer, h, Bool.false_and] at hcontainer
        cases hcontainer
      · exact fun o ho hopening => ⟨hcontainer, hmade.source_of_encloses
          (fun r hr => (hcondition' r hr).1) (covered_of_results hyes') (covered_of_results hno')
          o ho hopening⟩
    · obtain ⟨r, hr, hm⟩ := List.mem_flatMap.mp hm
      exact (hcondition' r (Option.mem_toList.mp hr)).2 m hm
    · exact attributed_of_results hyes' m hm
    · exact attributed_of_results hno' m hm
  | @visitChildren following n changes himport hif helse _ hchildren hchanges ih =>
    intro hat r hr
    have hplain := isConstruct_eq_false_iff.mpr ⟨hif, helse, himport⟩
    rw [Node.result_changed] at hr
    obtain rfl := Option.some.inj hr
    exact tree.attributed_rebuilt hat.mem hchildren hchanges
      ((hat.along_children hplain hchildren).mp ih)

end SourceTree

/-! ### Chains of origins on a store -/

namespace Store

/-- The chain of origins that begins with the first node ends with the second. -/
inductive LeadsTo (s : Store) : NodeId → NodeId → Prop
  | here {i : NodeId} {n : StoredNode} (h : s.nodes[i]? = some n) (hnone : n.origin = none) :
      LeadsTo s i i
  | next {i o j : NodeId} {n : StoredNode} (h : s.nodes[i]? = some n) (horigin : n.origin = some o)
      (hrest : LeadsTo s o j) : LeadsTo s i j

/-- The second node is in the tree of the first. -/
inductive InTree (s : Store) (i : NodeId) : NodeId → Prop
  | root : InTree s i i
  | child {j c : NodeId} {n : StoredNode} (hj : InTree s i j) (h : s.nodes[j]? = some n)
      (hc : c ∈ n.children) : InTree s i c

theorem exists_leadsTo_of_holdsAt {known depth : Nat} {s : Store} {i : NodeId} {m : Node}
    (h : HoldsAt known s depth i m) : ∃ j, s.LeadsTo i j ∧ HoldsAt known s depth j m.source := by
  induction depth generalizing i m with
  | zero =>
    obtain ⟨_, h, _⟩ := h
    cases h
  | succ depth ih =>
    obtain ⟨stored, origin, children, hstored, horigin, _, rfl⟩ := holdsAt_succ_iff.mp h
    generalize ho : stored.origin = o at horigin
    cases horigin with
    | none => exact ⟨i, .here hstored ho, by rwa [Node.source]⟩
    | some horigin =>
      obtain ⟨j, hlead, hj⟩ := ih horigin
      exact ⟨j, .next hstored ho hlead, by rw [Node.source]; exact hj.mono (Nat.le_succ depth)⟩

/-- The tree of a node holds what the tree that it reads as has. -/
theorem InTree.exists_holds {known : Nat} {s : Store} {i j : NodeId} {root : Node}
    (h : s.InTree i j) (hroot : Holds known s i root) : ∃ m ∈ root.preorder, Holds known s j m := by
  induction h with
  | root => exact ⟨root, Node.self_mem_preorder root, hroot⟩
  | child _ hstored hc ih =>
    obtain ⟨m, hm, hholds⟩ := ih
    obtain ⟨stored, hsame, _, _, _, hchildren⟩ := hholds.exists_stored
    obtain rfl := Option.some.inj (hstored.symm.trans hsame)
    obtain ⟨c, hmem, hcHolds⟩ := exists_of_forall₂ hchildren hc
    exact ⟨c, Node.child_mem_preorder hmem hm, hcHolds⟩

end Store

/-! ### Expanded files -/

/-- Where the origins in the tree `out` lead, which `root` was expanded to. -/
structure OriginsTraced (s : Setting) (root out : Node) : Prop where
  source : ∀ n ∈ root.preorder, n.origin = none
  /-- What was not made is a node of the source or a copy of one. -/
  kept : ∀ m ∈ out.preorder, m.info.synthesized = false →
    m ∈ root.preorder ∨ ∃ n ∈ root.preorder, Node.IsCopyOf s.marker n m
  /-- Braces that were made lead to the `<If>` that became them. -/
  container : ∀ m ∈ out.preorder, m.isContainer = true → ∃ following n,
    ReachedAt s.marker root following n ∧ n.isIf = true ∧ Becomes s following n (.replace m) ∧
      m.source = n
  /-- Opening tags that were made have braces around them. -/
  covered : Covered out
  /-- The braces that are next around them were made for the same `<If>`. -/
  opening : ∀ m ∈ out.preorder, m.kind = .jsxExpression → ∀ o, m.Encloses o →
    o.isBranchOpening = true → m.isContainer = true ∧ o.source = m.source

namespace OriginsTraced

variable {s : Setting} {root out : Node}

/-- An opening tag that was made leads to an `<If>` that the expansion reached. -/
theorem source_of_opening {o : Node} (h : OriginsTraced s root out) (ho : o ∈ out.preorder)
    (hopening : o.isBranchOpening = true) :
    Reached s.marker root o.source ∧ o.source.isIf = true := by
  rcases Node.exposes_or_enclosed ho with hexposes | ⟨m, hm, hbraces, hencloses⟩
  · rw [h.covered o hexposes] at hopening
    cases hopening
  · obtain ⟨hcontainer, hsame⟩ := h.opening m hm hbraces o hencloses hopening
    obtain ⟨_, n, hat, hif, _, hsource⟩ := h.container m hm hcontainer
    rw [hsame, hsource]
    exact ⟨hat.reached, hif⟩

end OriginsTraced

namespace SourceFile

variable {name : String} {text : Text} {tree : GrammarTree} {file out : SourceFile}
  {marker reportedName : String}

theorem originsTraced (hfile : ofGrammar name text tree = .ok file)
    (hout : (file.expand marker reportedName).outcome = .ok out) :
    OriginsTraced (file.setting marker reportedName) file.root out.root := by
  have hsource : SourceTree (file.setting marker reportedName).links file.root := sourceTree hfile
  obtain ⟨changes, hfst, halong, rfl⟩ := exists_changes_of_expand hfile hout
  obtain ⟨hcovered, hattributed⟩ := hsource.attributed_rebuilt (Node.self_mem_preorder file.root) hfst halong
    ((hsource.along_root hfst).mp fun before n change after hsplit =>
      hsource.attributed_of_becomes (halong before n change after hsplit))
  have hread : ∀ m ∈ (file.root.rebuilt changes).preorder, m.info.synthesized = false →
      Attributed (file.setting marker reportedName) file.root m := fun m hm h =>
    hattributed m ((Node.kept_sublist_representatives _).subset
      (List.mem_filter.mpr ⟨hm, by rw [h]; rfl⟩))
  have hmade : ∀ m ∈ (file.root.rebuilt changes).preorder, m.isContainer = true →
      Attributed (file.setting marker reportedName) file.root m := fun m hm h =>
    hattributed m ((Node.made_sublist_representatives _).subset (List.mem_filter.mpr ⟨hm, h⟩))
  refine ⟨hsource.bare, fun m hm h => (hread m hm h).kept h,
    fun m hm h => (hmade m hm h).container h, hcovered, fun m hm hbraces => ?_⟩
  cases h : m.info.synthesized with
  | false => exact (hread m hm h).enclosed hbraces
  | true => exact (hmade m hm (by simp [Node.isContainer, h, hbraces])).enclosed hbraces

/-- In an expanded file every chain of origins ends, and it ends where it should: a node of the source has
no origin; any other node that was not made is a copy of a node of the source, whose children it has
without those that are removed; the braces made for an `<If>` lead to it, and so do the opening tags that
they enclose, and there are no others. The expansion on a store comes to the same tree, and there the
chain from each of its nodes comes to an end at the node that it stands for. -/
theorem origins_of_expand (hfile : ofGrammar name text tree = .ok file)
    (hout : (file.expand marker reportedName).outcome = .ok out) :
    OriginsTraced (file.setting marker reportedName) file.root out.root ∧
    (∀ o ∈ out.root.preorder, o.isBranchOpening = true →
      Reached marker file.root o.source ∧ o.source.isIf = true) ∧
    let run := file.expandOnStore marker reportedName file.store
    let known := file.store.nodes.size
    let after := file.store.performAll run.journal
    ∃ root, run.outcome = .ok root ∧ Holds known after root out.root ∧
      ∀ i, after.InTree root i → ∃ m ∈ out.root.preorder, Holds known after i m ∧
        ∃ j, after.LeadsTo i j ∧ Holds known after j m.source := by
  have htraced := originsTraced hfile hout
  refine ⟨htraced, fun o ho => htraced.source_of_opening ho, ?_⟩
  have houtcome := (refines_expandOnStore hfile marker reportedName).outcome
  rw [hout] at houtcome
  cases hrun : (file.expandOnStore marker reportedName file.store).outcome with
  | error e =>
    rw [hrun] at houtcome
    exact houtcome.elim
  | ok root =>
    rw [hrun] at houtcome
    refine ⟨root, hrun, houtcome, fun i hi => ?_⟩
    obtain ⟨m, hm, hholds⟩ := hi.exists_holds houtcome
    exact ⟨m, hm, hholds, Store.exists_leadsTo_of_holdsAt hholds⟩

/-- On the small page, where one `<If>` stands in the `<Else>` of another. -/
theorem origins_of_expand_smallPage :
    ∃ file out, ofGrammar "page.tsx" SmallPage.text SmallPage.tree = .ok file ∧
      (file.expand "m" "").outcome = .ok out ∧
      OriginsTraced (file.setting "m" "") file.root out.root ∧
      ∃ o ∈ out.root.preorder, o.isBranchOpening = true ∧ Reached "m" file.root o.source ∧
        o.source.isIf = true := by
  have hsome : ((ofGrammar "page.tsx" SmallPage.text SmallPage.tree).toOption.bind fun file =>
      (file.expand "m" "").outcome.toOption.filter fun out =>
        out.root.preorder.any Node.isBranchOpening).isSome = true := by
    rw [ofGrammar, Node.ofGrammar_eq, Conversion.convert_eq,
      Conversion.convert_eq_repeat SmallPage.text 7]
    decide +kernel
  obtain ⟨out, hout⟩ := Option.isSome_iff_exists.mp hsome
  obtain ⟨file, hfile, hout⟩ := Option.bind_eq_some_iff.mp hout
  obtain ⟨hout, hany⟩ := Option.filter_eq_some_iff.mp hout
  obtain ⟨o, ho, hopening⟩ := List.any_eq_true.mp hany
  have hfile := toOption_eq_some_iff.mp hfile
  have hout := toOption_eq_some_iff.mp hout
  obtain ⟨htraced, hsources, _⟩ := origins_of_expand hfile hout
  exact ⟨file, out, hfile, hout, htraced, o, ho, hopening, hsources o ho hopening⟩

end SourceFile

end CondMarkup
