import CondMarkup.Proofs.Idempotence
import CondMarkup.Proofs.CopyText
import CondMarkup.Proofs.Written

/-!
Where the braces of ternaries stand. Markup admits an expression in braces as an entry of a body and as
the value of an attribute. The braces made for an `<If>` stand where the `<If>` stood, so they are
admitted exactly if it stood in a body or was the value of an attribute; an `<If>` that is an ordinary
expression of the program is replaced by braces all the same.
-/

namespace CondMarkup

open Expansion

/-- Whether the node is an expression in braces that was made, or copied from one that was made. -/
def Node.isContainer (n : Node) : Bool := n.info.synthesized && n.kind = .jsxExpression

/-- As the child `c` of the node `p`, an expression in braces is markup: `p` is the list of a body, or
`c` is the value of the attribute `p`. -/
def AdmitsBraces (whole p c : Node) : Prop :=
  (∃ owner ∈ whole.preorder, owner.bodyList = some p) ∨ p.initializer = some c

/-! ### Parents and children -/

/-- Of every node of the tree and each of its children `E` holds. -/
def Node.EveryEdge (E : Node → Node → Prop) (n : Node) : Prop :=
  ∀ p ∈ n.preorder, ∀ c ∈ p.children, E p c

section Edges

variable {E : Node → Node → Prop} {n p c : Node}

theorem everyEdge_iff :
    n.EveryEdge E ↔ (∀ c ∈ n.children, E n c) ∧ ∀ c ∈ n.children, c.EveryEdge E := by
  constructor
  · intro h
    refine ⟨h n (Node.self_mem_preorder n), fun c hc p hp => ?_⟩
    exact h p (Node.mem_preorder_iff.mpr (Or.inr ⟨c, hc, hp⟩))
  · rintro ⟨hn, hc⟩ p hp
    rcases Node.mem_preorder_iff.mp hp with rfl | ⟨c, hcn, hpc⟩
    · exact hn
    · exact hc c hcn p hpc

theorem everyEdge_of_children_eq_nil (h : n.children = []) : n.EveryEdge E := by
  rw [everyEdge_iff, h]
  exact ⟨fun _ hc => absurd hc List.not_mem_nil, fun _ hc => absurd hc List.not_mem_nil⟩

theorem Node.exists_bodyList (h : c ∈ n.body) : ∃ list, n.bodyList = some list ∧ c ∈ list.children := by
  rw [body] at h
  cases hlist : n.bodyList with
  | none =>
    rw [hlist] at h
    exact absurd h List.not_mem_nil
  | some list =>
    rw [hlist] at h
    exact ⟨list, rfl, h⟩

theorem Node.initializer_eq_none (h : n.kind ≠ .jsxAttribute) : n.initializer = none := by
  simp [initializer, h]

theorem AdmitsBraces.cases {whole : Node} (h : AdmitsBraces whole p c) :
    p.kind = .syntaxList ∨ p.initializer = some c :=
  h.imp_left fun ⟨_, _, h⟩ => (Node.mem_of_bodyList h).2

/-- Where every list is the list of its parent, only the kind of the parent matters. -/
theorem admitsBraces_iff {whole : Node} (hroot : whole.kind ≠ .syntaxList)
    (hlists : whole.EveryEdge fun p c => c.kind = .syntaxList → p.bodyList = some c)
    (hp : p ∈ whole.preorder) :
    AdmitsBraces whole p c ↔ p.kind = .syntaxList ∨ p.initializer = some c := by
  refine ⟨AdmitsBraces.cases, fun h => h.imp_left fun hkind => ?_⟩
  rcases Node.exists_parent hp with rfl | ⟨owner, howner, hmem⟩
  · exact absurd hkind hroot
  · exact ⟨owner, howner, hlists owner howner p hmem hkind⟩

end Edges

namespace Node

/-- In a node with three parts of which the middle one is a list, it is the list of the body. -/
theorem bodyList_of_three {n openTag list closeTag : Node} (hbody : n.hasBody = true)
    (hcs : n.children = [openTag, list, closeTag]) (hopen : openTag.kind ≠ .syntaxList)
    (hlist : list.kind = .syntaxList) : n.bodyList = some list := by
  simp [bodyList, hbody, hcs, hopen, hlist]

theorem kind_of_isContainer {n : Node} (h : n.isContainer = true) : n.kind = .jsxExpression := by
  simp only [isContainer, Bool.and_eq_true, decide_eq_true_eq] at h
  exact h.2

theorem isContainer_eq_false_of_kind {n : Node} (h : n.kind ≠ .jsxExpression) :
    n.isContainer = false := by
  simp [isContainer, h]

end Node

namespace SourceTree

variable {s : Setting} {root : Node} (tree : SourceTree s.links root)
include tree

/-- In a source tree, every list is the list of the body of its parent. -/
theorem bodyList_of_list : root.EveryEdge fun p c => c.kind = .syntaxList → p.bodyList = some c := by
  intro p hp c hc hkind
  obtain ⟨owner, howner, hmem, hbody, _⟩ := tree.exists_owner (Node.child_mem_preorder hc hp) hkind
  obtain rfl := tree.parent_unique howner hp hmem hc
  obtain ⟨openTag, list, closeTag, hcs, hlist, _, hopen, hclose⟩ := tree.exists_list hp hbody
  rw [hcs] at hc
  simp only [List.mem_cons, List.not_mem_nil, or_false] at hc
  rcases hc with rfl | rfl | rfl
  · exact absurd hkind hopen
  · exact Node.bodyList_of_three hbody hcs hopen hkind
  · exact absurd hkind hclose

end SourceTree

/-! ### Places in the expanded tree -/

/-- The child `c` of `p` is in the right place: lists are lists of bodies, and the braces that were made
for an `<If>` are markup exactly if the `<If>` was, as the child `q` had in the source. -/
structure WellPlaced (marker : String) (root p c : Node) : Prop where
  list : c.kind = .syntaxList → p.bodyList = some c
  container : c.isContainer = true → Reached marker root c.source ∧ c.source.isIf = true ∧
    ∃ q ∈ root.preorder, c.source ∈ q.children ∧
      (p.kind = .syntaxList ∨ p.initializer = some c ↔
        q.kind = .syntaxList ∨ q.initializer = some c.source)

section Made

variable {marker : String} {root n p c : Node}

theorem wellPlaced_of_kind (hlist : c.kind ≠ .syntaxList) (hbraces : c.kind ≠ .jsxExpression) :
    WellPlaced marker root p c := by
  refine ⟨fun h => absurd h hlist, fun h => ?_⟩
  rw [Node.isContainer_eq_false_of_kind hbraces] at h
  cases h

theorem Node.IsMade.everyEdge {E : Node → Node → Prop} {kind : Kind} {children : List Node}
    (h : n.IsMade kind children) (hchildren : ∀ c ∈ children, E n c ∧ c.EveryEdge E) :
    n.EveryEdge E := by
  rw [everyEdge_iff, h.children_eq]
  exact ⟨fun c hc => (hchildren c hc).1, fun c hc => (hchildren c hc).2⟩

/-- The node is in the right place in any list, and so is everything below it. -/
def FitsList (marker : String) (root r : Node) : Prop :=
  (∀ list : Node, list.kind = .syntaxList → WellPlaced marker root list r) ∧
    r.EveryEdge (WellPlaced marker root)

theorem IsBranch.everyEdge {ifNode branch : Node} {entries : List Node}
    (h : IsBranch ifNode entries branch) (hentries : ∀ r ∈ entries, FitsList marker root r) :
    branch.EveryEdge (WellPlaced marker root) := by
  obtain ⟨openTag, list, closeTag, hbranch, hopen, _, hlist, hclose⟩ := h
  have hbody : branch.bodyList = some list :=
    Node.bodyList_of_three (by rw [Node.hasBody, hbranch.kind_eq]; rfl) hbranch.children_eq
      (by rw [hopen.kind_eq]; decide) hlist.kind_eq
  refine hbranch.everyEdge fun c hc => ?_
  simp only [List.mem_cons, List.not_mem_nil, or_false] at hc
  rcases hc with rfl | rfl | rfl
  · exact ⟨wellPlaced_of_kind (by rw [hopen.kind_eq]; decide) (by rw [hopen.kind_eq]; decide),
      everyEdge_of_children_eq_nil hopen.children_eq⟩
  · refine ⟨⟨fun _ => hbody, fun h => ?_⟩, hlist.everyEdge fun r hr => ?_⟩
    · rw [Node.isContainer_eq_false_of_kind (by rw [hlist.kind_eq]; decide)] at h
      cases h
    · exact ⟨(hentries r hr).1 c hlist.kind_eq, (hentries r hr).2⟩
  · exact ⟨wellPlaced_of_kind (by rw [hclose.kind_eq]; decide) (by rw [hclose.kind_eq]; decide),
      everyEdge_of_children_eq_nil hclose.children_eq⟩

theorem IsElseBranch.everyEdge {ifNode branch : Node} {entries : List (Node × Change)}
    (h : IsElseBranch ifNode entries branch)
    (hentries : ∀ r ∈ results entries, FitsList marker root r) :
    branch.EveryEdge (WellPlaced marker root) := by
  rcases h with ⟨_, hnull⟩ | ⟨_, hbranch⟩
  · exact everyEdge_of_children_eq_nil hnull.children_eq
  · exact hbranch.everyEdge hentries

theorem IsElseBranch.kind_eq {ifNode branch : Node} {entries : List (Node × Change)}
    (h : IsElseBranch ifNode entries branch) :
    branch.kind = .nullKeyword ∨ branch.kind = .jsxFragment := by
  rcases h with ⟨_, hnull⟩ | ⟨_, _, _, _, hbranch, _⟩
  · exact Or.inl hnull.kind_eq
  · exact Or.inr hbranch.kind_eq

/-- The node is in the right place as an operand, and so is everything below it. -/
def FitsOperand (marker : String) (root r : Node) : Prop :=
  (∀ p : Node, p.kind ≠ .syntaxList → p.kind ≠ .jsxAttribute → WellPlaced marker root p r) ∧
    r.EveryEdge (WellPlaced marker root)

theorem IsConditionPart.fitsOperand {condition : Node} {change : Change} {parts : List Node}
    (h : IsConditionPart condition change parts)
    (hcondition : ∀ r, change.result condition = some r → FitsOperand marker root r) (hp : p ∈ parts) :
    FitsOperand marker root p := by
  have hresult : ∀ r ∈ (change.result condition).toList, FitsOperand marker root r := fun r hr =>
    hcondition r (Option.mem_toList.mp hr)
  rw [IsConditionPart] at h
  split at h
  · obtain ⟨q, rfl, hq⟩ := h
    rw [List.mem_singleton] at hp
    subst hp
    refine ⟨fun _ _ _ => wellPlaced_of_kind (by rw [hq.kind_eq]; decide)
      (by rw [hq.kind_eq]; decide), hq.everyEdge fun r hr => ?_⟩
    exact ⟨(hresult r hr).1 p (by rw [hq.kind_eq]; decide) (by rw [hq.kind_eq]; decide),
      (hresult r hr).2⟩
  · subst h
    exact hresult p hp

theorem IsTernary.isContainer {ifNode condition : Node} {change : Change}
    {yes no : List (Node × Change)} (h : IsTernary ifNode condition change yes no n) :
    n.isContainer = true := by
  obtain ⟨_, _, _, _, hn, _⟩ := h
  simp [Node.isContainer, hn.synthesized, hn.kind_eq]

/-- All is well placed in a ternary if what the condition and the entries of both branches became is. -/
theorem IsTernary.everyEdge {ifNode condition : Node} {change : Change} {yes no : List (Node × Change)}
    (h : IsTernary ifNode condition change yes no n)
    (hcondition : ∀ r, change.result condition = some r → FitsOperand marker root r)
    (hyes : ∀ r ∈ results yes, FitsList marker root r)
    (hno : ∀ r ∈ results no, FitsList marker root r) : n.EveryEdge (WellPlaced marker root) := by
  obtain ⟨ternary, parts, yesBranch, noBranch, hn, _, hternary, hparts, hyesBranch, hnoBranch⟩ := h
  have hyesKind : yesBranch.kind = .jsxFragment := by
    obtain ⟨_, _, _, hbranch, _⟩ := hyesBranch
    exact hbranch.kind_eq
  refine hn.everyEdge fun c hc => ?_
  rw [List.mem_singleton] at hc
  subst hc
  refine ⟨wellPlaced_of_kind (by rw [hternary.kind_eq]; decide) (by rw [hternary.kind_eq]; decide),
    hternary.everyEdge fun p hp => ?_⟩
  rcases List.mem_append.mp hp with hp | hp
  · have hfits := hparts.fitsOperand hcondition hp
    exact ⟨hfits.1 c (by rw [hternary.kind_eq]; decide) (by rw [hternary.kind_eq]; decide), hfits.2⟩
  · simp only [List.mem_cons, List.not_mem_nil, or_false] at hp
    rcases hp with rfl | rfl
    · exact ⟨wellPlaced_of_kind (by rw [hyesKind]; decide) (by rw [hyesKind]; decide),
        hyesBranch.everyEdge hyes⟩
    · refine ⟨?_, hnoBranch.everyEdge hno⟩
      rcases hnoBranch.kind_eq with hkind | hkind <;>
        exact wellPlaced_of_kind (by rw [hkind]; decide) (by rw [hkind]; decide)

end Made

/-- Everything below what a node becomes is in the right place. -/
def PlacedAfter (marker : String) (root : Node) (_following : List Node) (n : Node)
    (change : Change) : Prop :=
  ∀ r, change.result n = some r → r.EveryEdge (WellPlaced marker root)

/-- What takes the place of an `<If>` is an expression in braces; any other node goes on saying the same
of itself. -/
theorem Becomes.info_of_result {s : Setting} {following : List Node} {n r : Node} {change : Change}
    (h : Becomes s following n change) (hr : change.result n = some r) :
    (n.isIf = true ∧ r.isContainer = true) ∨ r.info = n.info := by
  cases h with
  | removeImport => cases hr
  | removeElse => cases hr
  | expand hif _ _ _ _ _ _ _ _ hmade =>
    obtain rfl := Option.some.inj hr
    exact Or.inl ⟨hif, hmade.isContainer⟩
  | visitChildren =>
    rw [Node.result_changed] at hr
    obtain rfl := Option.some.inj hr
    exact Or.inr (Node.info_rebuilt _ _)

namespace SourceTree

variable {s : Setting} {root : Node} (tree : SourceTree s.links root)
include tree

theorem isContainer_eq_false {n r : Node} (hn : n ∈ root.preorder) (h : r.info = n.info) :
    r.isContainer = false := by
  rw [Node.isContainer, h, (tree.shapedAt hn).notMade, Bool.false_and]

/-- What the child `m` of `q` becomes is in the right place below `p` if `p` has a list where `q` has
one, and admits braces where `q` does. -/
theorem wellPlaced_of_result {p q m r : Node} {following : List Node} {change : Change}
    (hq : q ∈ root.preorder) (hm : m ∈ q.children) (hreached : Reached s.marker root m)
    (h : Becomes s following m change) (hr : change.result m = some r)
    (hlist : m.kind = .syntaxList → p.bodyList = some r)
    (hplace : m.isIf = true → (p.kind = .syntaxList ∨ p.initializer = some r ↔
      q.kind = .syntaxList ∨ q.initializer = some m)) : WellPlaced s.marker root p r := by
  have hmem := Node.child_mem_preorder hm hq
  rcases h.info_of_result hr with ⟨hif, hcontainer⟩ | hinfo
  · refine ⟨fun hkind => ?_, fun _ => ?_⟩
    · rw [Node.kind_of_isContainer hcontainer] at hkind
      cases hkind
    · rw [tree.source_of_result hmem h hr]
      exact ⟨hreached, hif, q, hq, hm, hplace hif⟩
  · refine ⟨fun hkind => hlist ?_, fun hcontainer => ?_⟩
    · rw [← hkind, Node.kind, Node.kind, hinfo]
    · rw [tree.isContainer_eq_false hmem hinfo] at hcontainer
      cases hcontainer

/-- Below a node that has no body there is no list. -/
theorem kind_ne_syntaxList {q m : Node} (hq : q ∈ root.preorder) (hbody : q.hasBody = false)
    (hm : m ∈ q.children) : m.kind ≠ .syntaxList := by
  intro hkind
  apply (tree.shapedAt hq).noList hbody
  rw [List.map_map]
  exact List.mem_map.mpr ⟨m, hm, hkind⟩

/-- What the entries of a body become fits any list. -/
theorem fitsList_of_results {owner : Node} {changes : List (Node × Change)}
    (howner : owner ∈ root.preorder) (hfst : changes.map Prod.fst = owner.body)
    (hreached : ∀ c ∈ owner.body, Reached s.marker root c) (halong : Along (Becomes s) true changes)
    (hbelow : Along (PlacedAfter s.marker root) true changes) :
    ∀ r ∈ results changes, FitsList s.marker root r := by
  intro r hr
  obtain ⟨m, change, hmem, hr⟩ := mem_results_iff.mp hr
  have hm : m ∈ owner.body := hfst ▸ List.mem_map_of_mem (f := Prod.fst) hmem
  obtain ⟨list, hl, hkind, hb⟩ := tree.list_mem howner (Node.hasBody_of_mem_body hm)
  have hq := Node.child_mem_preorder hl howner
  obtain ⟨_, hbecomes⟩ := halong.exists_of_mem hmem
  obtain ⟨_, hplaced⟩ := hbelow.exists_of_mem hmem
  have hnoList : m.kind ≠ .syntaxList :=
    tree.kind_ne_syntaxList hq (by rw [Node.hasBody, hkind]; rfl) (hb ▸ hm)
  refine ⟨fun p hp => ?_, hplaced r hr⟩
  exact tree.wellPlaced_of_result hq (hb ▸ hm) (hreached m hm) hbecomes hr
    (fun h => absurd h hnoList) fun _ => ⟨fun _ => Or.inl hkind, fun _ => Or.inl hp⟩

/-- What the condition of an `<If>` becomes fits as an operand. -/
theorem fitsOperand_of_result {n e r : Node} {following : List Node} {change : Change}
    (hn : n ∈ root.preorder) (he : n.condition = .ok e) (hreached : Reached s.marker root e)
    (hbecomes : Becomes s following e change) (hbelow : PlacedAfter s.marker root following e change)
    (hr : change.result e = some r) : FitsOperand s.marker root r := by
  obtain ⟨v, hv, hkind, hmem⟩ := mem_of_condition hn he
  have hnoList : e.kind ≠ .syntaxList :=
    tree.kind_ne_syntaxList hv (by rw [Node.hasBody, hkind]; rfl) hmem
  refine ⟨fun p hlist hattribute => ?_, hbelow r hr⟩
  refine tree.wellPlaced_of_result hv hmem hreached hbecomes hr (fun h => absurd h hnoList) fun _ => ?_
  -- neither the braces in the source nor the operand of the ternary admits braces
  rw [Node.initializer_eq_none hattribute, Node.initializer_eq_none (by rw [hkind]; decide), hkind]
  simp [hlist]

/-- A list among the children is the list of the body before and after. -/
theorem bodyList_rebuilt {n m r : Node} {inBody : Bool} {change : Change}
    {changes : List (Node × Change)} (hn : n ∈ root.preorder)
    (hfst : changes.map Prod.fst = n.children) (halong : Along (Becomes s) inBody changes)
    (hmem : (m, change) ∈ changes) (hkind : m.kind = .syntaxList) (hr : change.result m = some r) :
    (n.rebuilt changes).bodyList = some r := by
  have hchild : ∀ {c : Node × Change}, c ∈ changes → c.1 ∈ n.children := fun hc =>
    hfst ▸ List.mem_map_of_mem hc
  have hbody : n.hasBody = true := by
    by_contra h
    exact tree.kind_ne_syntaxList hn (by simpa using h) (hchild hmem) hkind
  have hnodup : (changes.map Prod.fst).Nodup := hfst ▸ tree.nodup_children hn
  have hlist := tree.bodyList_of_list n hn m (hchild hmem) hkind
  have hresult : ∀ {c : Node × Change} {x : Node}, c ∈ changes → c.2.result c.1 = some x →
      (x.kind = .syntaxList ↔ c.1.kind = .syntaxList) := by
    intro c x hc hx
    obtain ⟨_, hbecomes⟩ := halong.exists_of_mem hc
    rcases hbecomes.info_of_result hx with ⟨hif, hcontainer⟩ | hinfo
    · simp [Node.kind_of_isContainer hcontainer, Node.kind_of_isElementOf hif]
    · rw [Node.kind, Node.kind, hinfo]
  -- of what the children become, only `r` is a list
  have honly : ∀ x ∈ results changes, x.kind = .syntaxList → x = r := by
    intro x hx hxkind
    obtain ⟨c, other, hc, hx⟩ := mem_results_iff.mp hx
    have hother := tree.bodyList_of_list n hn c (hchild hc) ((hresult hc hx).mp hxkind)
    rw [hlist, Option.some.injEq] at hother
    have heq := List.inj_on_of_nodup_map hnodup hc hmem hother.symm
    rw [Prod.mk.injEq] at heq
    rw [heq.1, heq.2, hr, Option.some.injEq] at hx
    exact hx.symm
  have hfound : ((results changes).find? fun c => c.kind = .syntaxList).isSome = true := by
    rw [List.find?_isSome]
    exact ⟨r, mem_results_iff.mpr ⟨m, change, hmem, hr⟩, decide_eq_true ((hresult hmem hr).mpr hkind)⟩
  obtain ⟨x, hx⟩ := Option.isSome_iff_exists.mp hfound
  rw [Node.bodyList, Node.hasBody, Node.kind_rebuilt, ← Node.hasBody, if_pos hbody,
    Node.children_rebuilt hfst, hx,
    honly x (List.mem_of_find?_eq_some hx) (by simpa using List.find?_some hx)]

omit tree in
/-- An `<If>` in an attribute is what follows its name. -/
theorem children_of_attribute {n m : Node} (horder : root.Everywhere Conversion.PartsInOrder)
    (hn : n ∈ root.preorder) (hkind : n.kind = .jsxAttribute) (hm : m ∈ n.children)
    (hif : m.isIf = true) : ∃ name, n.children = [name, m] ∧ name.kind = .identifier := by
  have hmkind : m.kind = .jsxElement := Node.kind_of_isElementOf hif
  rcases (horder n hn).valued hkind with hnil | ⟨info, rest, hparts, hname, hrest⟩
  · rw [List.map_eq_nil_iff.mp hnil] at hm
    exact absurd hm List.not_mem_nil
  · obtain ⟨name, values, hcs, rfl, rfl⟩ := List.map_eq_cons_iff.mp hparts
    rw [List.length_map] at hrest
    rw [hcs, List.mem_cons] at hm
    rcases hm with rfl | hm
    · rw [Node.kind, hname] at hmkind
      cases hmkind
    · obtain ⟨before, after, rfl⟩ := List.append_of_mem hm
      rw [List.length_append, List.length_cons] at hrest
      have hbefore : before = [] := List.eq_nil_of_length_eq_zero (by omega)
      have hafter : after = [] := List.eq_nil_of_length_eq_zero (by omega)
      exact ⟨name, by rw [hcs, hbefore, hafter, List.nil_append], hname⟩

omit tree in
/-- What an `<If>` becomes is the value of an attribute if the `<If>` was. -/
theorem initializer_rebuilt {n m r : Node} {inBody : Bool} {change : Change}
    {changes : List (Node × Change)} (horder : root.Everywhere Conversion.PartsInOrder)
    (hn : n ∈ root.preorder) (hfst : changes.map Prod.fst = n.children)
    (halong : Along (Becomes s) inBody changes) (hmem : (m, change) ∈ changes)
    (hif : m.isIf = true) (hr : change.result m = some r) :
    (n.rebuilt changes).initializer = some r ↔ n.initializer = some m := by
  by_cases hkind : n.kind = .jsxAttribute
  · have hm : m ∈ n.children := hfst ▸ List.mem_map_of_mem (f := Prod.fst) hmem
    obtain ⟨name, hcs, hname⟩ := children_of_attribute horder hn hkind hm hif
    have hvalue : n.initializer = some m := by simp [Node.initializer, hkind, hcs]
    have hresults : ∃ name', results changes = [name', r] := by
      rw [hcs] at hfst
      obtain ⟨⟨first, nameChange⟩, rest, rfl, rfl, hrest⟩ := List.map_eq_cons_iff.mp hfst
      obtain ⟨⟨_, other⟩, none, rfl, rfl, hnone⟩ := List.map_eq_cons_iff.mp hrest
      obtain rfl := List.map_eq_nil_iff.mp hnone
      obtain ⟨hbecomes, _⟩ := along_cons.mp halong
      obtain ⟨nameChanges, _, _, hname'⟩ :=
        hbecomes.exists_of_isPartKind (by rw [hname]; rfl)
      obtain rfl : change = other := by
        rcases List.mem_cons.mp hmem with h | h
        · rw [Prod.mk.injEq] at h
          rw [← h.1, Node.kind_of_isElementOf hif] at hname
          cases hname
        · exact (Prod.mk.inj (List.mem_singleton.mp h)).2
      refine ⟨first.rebuilt nameChanges, ?_⟩
      rw [results_cons, results_cons, results_nil, hname', hr]
      rfl
    obtain ⟨name', hresults⟩ := hresults
    refine iff_of_true ?_ hvalue
    simp [Node.initializer, Node.kind_rebuilt, hkind, Node.children_rebuilt hfst, hresults]
  · rw [Node.initializer_eq_none hkind, Node.initializer_eq_none (by rwa [Node.kind_rebuilt])]
    simp

/-- The children of a node that is no construct are in the right places afterwards. -/
theorem everyEdge_rebuilt {n : Node} {inBody : Bool} {changes : List (Node × Change)}
    (horder : root.Everywhere Conversion.PartsInOrder) (hn : n ∈ root.preorder)
    (hfst : changes.map Prod.fst = n.children) (halong : Along (Becomes s) inBody changes)
    (hreached : ∀ c ∈ n.children, Reached s.marker root c)
    (hbelow : Along (PlacedAfter s.marker root) inBody changes) :
    (n.rebuilt changes).EveryEdge (WellPlaced s.marker root) := by
  rw [everyEdge_iff, Node.children_rebuilt hfst]
  constructor
  · intro r hr
    obtain ⟨m, change, hmem, hr⟩ := mem_results_iff.mp hr
    have hm : m ∈ n.children := hfst ▸ List.mem_map_of_mem (f := Prod.fst) hmem
    obtain ⟨_, hbecomes⟩ := halong.exists_of_mem hmem
    refine tree.wellPlaced_of_result hn hm (hreached m hm) hbecomes hr
      (fun hkind => tree.bodyList_rebuilt hn hfst halong hmem hkind hr) fun hif => ?_
    rw [Node.kind_rebuilt, initializer_rebuilt horder hn hfst halong hmem hif hr]
  · intro r hr
    obtain ⟨m, change, hmem, hr⟩ := mem_results_iff.mp hr
    obtain ⟨_, hplaced⟩ := hbelow.exists_of_mem hmem
    exact hplaced r hr

/-- Below what a node becomes, everything is in the right place. -/
theorem placedAfter_of_becomes (horder : root.Everywhere Conversion.PartsInOrder)
    {following : List Node} {n : Node} {change : Change} (h : Becomes s following n change) :
    ReachedAt s.marker root following n → PlacedAfter s.marker root following n change := by
  induction h with
  | removeImport => exact fun _ r hr => absurd hr (by simp [Change.result])
  | removeElse => exact fun _ r hr => absurd hr (by simp [Change.result])
  | @expand following n condition made change yes no hif _ hcondition hbody _ hother hinner hyes hno
      hmade ihInner ihYes ihNo =>
    intro hat r hr
    obtain rfl : made = r := Option.some.inj hr
    have hb := ((tree.entries_eq_ok_iff hat.mem (Node.hasBody_of_isIf hif)).mp hbody).1
    have hatCondition := hat.condition hif hcondition
    refine hmade.everyEdge (fun r => ?_) ?_ ?_
    · exact tree.fitsOperand_of_result hat.mem hcondition hatCondition.reached hinner
        (ihInner hatCondition)
    · exact tree.fitsList_of_results hat.mem hb (fun c hc => .body hat.reached hif hc) hyes
        ((tree.along_body hat hif hb).mp ihYes)
    · rcases tree.body_of_leadingElse hat.placed hother with hnil | ⟨e, he, hmem, _, hfst⟩
      · rw [List.map_eq_nil_iff.mp hnil, results_nil]
        exact fun _ hr => absurd hr List.not_mem_nil
      · have hnext := (tree.nextElse_iff hat.placed).mpr he
        exact tree.fitsList_of_results hmem hfst (fun c hc => .otherwise hat.reached hif hnext hc) hno
          ((tree.along_otherwise hat hif hother).mp ihNo)
  | @visitChildren following n changes himport hif helse _ hchildren hchanges ih =>
    intro hat r hr
    have hplain := isConstruct_eq_false_iff.mpr ⟨hif, helse, himport⟩
    rw [Node.result_changed] at hr
    obtain rfl := Option.some.inj hr
    exact tree.everyEdge_rebuilt horder hat.mem hchildren hchanges
      (fun c hc => .inside hat.reached hplain hc) ((hat.along_children hplain hchildren).mp ih)

section Root

variable {changes : List (Node × Change)} (hfst : changes.map Prod.fst = root.children)
  (halong : Along (Becomes s) false changes)
include hfst halong

/-- In the expanded tree, everything is in the right place. -/
theorem everyEdge_root (horder : root.Everywhere Conversion.PartsInOrder) :
    (root.rebuilt changes).EveryEdge (WellPlaced s.marker root) :=
  tree.everyEdge_rebuilt horder (Node.self_mem_preorder root) hfst halong (fun _ hc => .child hc)
    ((tree.along_root hfst).mp fun before n change after hsplit =>
      tree.placedAfter_of_becomes horder (halong before n change after hsplit))

/-- For an `<If>` that is reached, braces were made, and they are a child somewhere. -/
theorem exists_container {n : Node} (hreached : Reached s.marker root n) (hif : n.isIf = true) :
    ∃ p ∈ (root.rebuilt changes).preorder, ∃ c ∈ p.children, c.isContainer = true ∧ c.source = n := by
  obtain ⟨following, change, hplaced, hbecomes, hwhole⟩ :=
    tree.locatedIn_of_reached hfst halong hreached
  obtain ⟨_, _, _, _, made, _, _, _, _, _, _, _, _, hmade, rfl⟩ := hbecomes.of_isIf hif
  have hsource : made.source = n := tree.source_of_result (mem_of_placed hplaced) hbecomes rfl
  have hcontainer := hmade.isContainer
  rcases Node.exists_parent (hwhole made rfl (Node.self_mem_preorder made)) with rfl | ⟨p, hp, hmem⟩
  · rw [tree.isContainer_eq_false (Node.self_mem_preorder root) (Node.info_rebuilt _ _)] at hcontainer
    cases hcontainer
  · exact ⟨p, hp, made, hmem, hcontainer, hsource⟩

end Root

end SourceTree

theorem SourceFile.partsInOrder {name : String} {text : Text} {tree : GrammarTree}
    {file : SourceFile} (h : ofGrammar name text tree = .ok file) :
    file.root.Everywhere Conversion.PartsInOrder :=
  everywhere (fun _ _ _ _ _ h => ⟨h.opening, h.valued⟩) h

/-- Every pair of braces that was made in an expanded file was made for an `<If>` that the expansion
reached, and markup admits them exactly if it would admit them in the place of the `<If>`. So all
braces are in markup if and only if all the `<If>`s that are reached are. -/
theorem SourceFile.containers_of_expand {name : String} {text : Text} {tree : GrammarTree}
    {file out : SourceFile} {marker reportedName : String}
    (hfile : ofGrammar name text tree = .ok file)
    (hout : (file.expand marker reportedName).outcome = .ok out) :
    out.root.isContainer = false ∧
    (∀ p ∈ out.root.preorder, ∀ c ∈ p.children, c.isContainer = true →
      Reached marker file.root c.source ∧ c.source.isIf = true ∧
      ∃ q ∈ file.root.preorder, c.source ∈ q.children ∧
        (AdmitsBraces out.root p c ↔ AdmitsBraces file.root q c.source)) ∧
    ((∀ p ∈ out.root.preorder, ∀ c ∈ p.children, c.isContainer = true → AdmitsBraces out.root p c) ↔
      ∀ q ∈ file.root.preorder, ∀ n ∈ q.children, Reached marker file.root n → n.isIf = true →
        AdmitsBraces file.root q n) := by
  have hsource : SourceTree (file.setting marker reportedName).links file.root := sourceTree hfile
  obtain ⟨changes, hfst, halong, rfl⟩ := exists_changes_of_expand hfile hout
  have hedges := hsource.everyEdge_root hfst halong (partsInOrder hfile)
  have hrootKind : (file.root.rebuilt changes).kind ≠ .syntaxList := by
    rw [Node.kind_rebuilt]
    exact hsource.rootKind
  have hadmits : ∀ {p c : Node}, p ∈ (file.root.rebuilt changes).preorder →
      (AdmitsBraces (file.root.rebuilt changes) p c ↔
        p.kind = .syntaxList ∨ p.initializer = some c) :=
    fun hp => admitsBraces_iff hrootKind (fun p hp c hc => (hedges p hp c hc).list) hp
  have hadmitsSource : ∀ {q m : Node}, q ∈ file.root.preorder →
      (AdmitsBraces file.root q m ↔ q.kind = .syntaxList ∨ q.initializer = some m) :=
    fun hq => admitsBraces_iff hsource.rootKind hsource.bodyList_of_list hq
  have hplaces : ∀ p ∈ (file.root.rebuilt changes).preorder, ∀ c ∈ p.children, c.isContainer = true →
      Reached marker file.root c.source ∧ c.source.isIf = true ∧
      ∃ q ∈ file.root.preorder, c.source ∈ q.children ∧
        (AdmitsBraces (file.root.rebuilt changes) p c ↔ AdmitsBraces file.root q c.source) := by
    intro p hp c hc hcontainer
    obtain ⟨hreached, hif, q, hq, hmem, hiff⟩ := (hedges p hp c hc).container hcontainer
    exact ⟨hreached, hif, q, hq, hmem, by rw [hadmits hp, hadmitsSource hq, hiff]⟩
  refine ⟨?_, hplaces, fun h => ?_, fun h => ?_⟩
  · exact hsource.isContainer_eq_false (Node.self_mem_preorder file.root) (Node.info_rebuilt _ _)
  · intro q hq n hn hreached hif
    obtain ⟨p, hp, c, hmem, hcontainer, rfl⟩ := hsource.exists_container hfst halong hreached hif
    obtain ⟨_, _, q', hq', hmem', hiff⟩ := hplaces p hp c hmem hcontainer
    obtain rfl := hsource.parent_unique hq hq' hn hmem'
    exact hiff.mp (h p hp c hmem hcontainer)
  · intro p hp c hc hcontainer
    obtain ⟨hreached, hif, q, hq, hmem, hiff⟩ := hplaces p hp c hc hcontainer
    exact hiff.mpr (h q hq c.source hmem hreached hif)

/-- The small page, where braces are made in a body. -/
theorem SourceFile.containers_of_expand_smallPage :
    ∃ file out, ofGrammar "page.tsx" SmallPage.text SmallPage.tree = .ok file ∧
      (file.expand "m" "").outcome = .ok out ∧ ∃ owner ∈ out.root.preorder, ∃ c ∈ owner.body,
        c.isContainer = true ∧ Reached "m" file.root c.source ∧ c.source.isIf = true ∧
        ∃ q ∈ file.root.preorder, c.source ∈ q.children ∧ AdmitsBraces file.root q c.source := by
  have hsome : ((ofGrammar "page.tsx" SmallPage.text SmallPage.tree).toOption.bind fun file =>
      (file.expand "m" "").outcome.toOption.filter fun out =>
        out.root.preorder.any fun owner => owner.body.any Node.isContainer).isSome = true := by
    rw [ofGrammar, Node.ofGrammar_eq, Conversion.convert_eq,
      Conversion.convert_eq_repeat SmallPage.text 7]
    decide +kernel
  obtain ⟨out, hout⟩ := Option.isSome_iff_exists.mp hsome
  obtain ⟨file, hfile, hout⟩ := Option.bind_eq_some_iff.mp hout
  obtain ⟨hout, hany⟩ := Option.filter_eq_some_iff.mp hout
  obtain ⟨owner, howner, hany⟩ := List.any_eq_true.mp hany
  obtain ⟨c, hc, hcontainer⟩ := List.any_eq_true.mp hany
  have hfile := toOption_eq_some_iff.mp hfile
  have hout := toOption_eq_some_iff.mp hout
  obtain ⟨list, hlist, hmem⟩ := Node.exists_bodyList hc
  have hp := Node.child_mem_preorder (Node.mem_of_bodyList hlist).1 howner
  obtain ⟨hreached, hif, q, hq, hsource, hiff⟩ :=
    (containers_of_expand hfile hout).2.1 list hp c hmem hcontainer
  exact ⟨file, out, hfile, hout, owner, howner, c, hc, hcontainer, hreached, hif, q, hq, hsource,
    hiff.mp (Or.inl ⟨owner, howner, hlist⟩)⟩

namespace OperandPage

/-- A program that gives an `<If>` a name. -/
def text : Text := "const a = <If condition={x}>A</If>;".toList

def tree : GrammarTree where
  root := .mk "program" 0 35 true none
    [.mk "lexical_declaration" 0 35 true none
      [.mk "const" 0 5 false (some "kind") [],
        .mk "variable_declarator" 6 34 true none
          [SmallPage.leaf "identifier" 6 7 (some "name"), .mk "=" 8 9 false none [],
            SmallPage.element 10 28 29 34
              [SmallPage.leaf "identifier" 11 13 (some "name"),
                SmallPage.condition "identifier" 14 27]
              [SmallPage.leaf "jsx_text" 28 29 none]],
        .mk ";" 34 35 false none []]]

end OperandPage

/-- The `<If>` that is given a name is replaced by braces, which are not markup there. -/
theorem SourceFile.container_outside_markup :
    ∃ file out, ofGrammar "page.tsx" OperandPage.text OperandPage.tree = .ok file ∧
      (file.expand "m" "").outcome = .ok out ∧
      out.print = .ok "const a = {x ? <>A</> : null};".toList ∧
      ∃ p ∈ out.root.preorder, ∃ c ∈ p.children, c.isContainer = true ∧
        ¬ AdmitsBraces out.root p c := by
  have hsome : ((ofGrammar "page.tsx" OperandPage.text OperandPage.tree).toOption.bind fun file =>
      (file.expand "m" "").outcome.toOption.filter fun out =>
        out.print = .ok "const a = {x ? <>A</> : null};".toList &&
          out.root.preorder.any fun p => p.kind ≠ .syntaxList && p.kind ≠ .jsxAttribute &&
            p.children.any Node.isContainer).isSome = true := by
    rw [ofGrammar, Node.ofGrammar_eq, Conversion.convert_eq,
      Conversion.convert_eq_repeat OperandPage.text 7]
    decide +kernel
  obtain ⟨out, hout⟩ := Option.isSome_iff_exists.mp hsome
  obtain ⟨file, hfile, hout⟩ := Option.bind_eq_some_iff.mp hout
  obtain ⟨hout, hplaced⟩ := Option.filter_eq_some_iff.mp hout
  simp only [Bool.and_eq_true, decide_eq_true_eq, List.any_eq_true] at hplaced
  obtain ⟨hprint, p, hp, ⟨hlist, hattribute⟩, c, hc, hcontainer⟩ := hplaced
  refine ⟨file, out, toOption_eq_some_iff.mp hfile, toOption_eq_some_iff.mp hout, hprint, p, hp, c, hc,
    hcontainer, fun hadmits => ?_⟩
  rcases hadmits.cases with hkind | hvalue
  · exact hlist hkind
  · rw [Node.initializer_eq_none hattribute] at hvalue
    cases hvalue

end CondMarkup
