import CondMarkup.Proofs.Parts

/-!
The nodes of a source tree that an expansion reaches. It starts with the children of the root and goes
on to the children of every node that is not a construct; of an `<If>` it reaches the condition, the
entries of the body, and the entries of the body of the `<Else>` that is its next sibling, blank text
aside. Everything else below a construct is passed over. If the expansion succeeds, every node that is
reached becomes something, and what it becomes is part of the expanded tree.
-/

namespace CondMarkup

open Expansion

/-- The nodes that the expansion replaces or removes: `<If>`, `<Else>`, and the imports of the marker
module. -/
def Node.isConstruct (marker : String) (n : Node) : Bool :=
  n.isIf || n.isElse || n.moduleSpecifier = some marker

inductive Reached (marker : String) (root : Node) : Node → Prop
  | child {c : Node} (h : c ∈ root.children) : Reached marker root c
  | inside {n c : Node} (hn : Reached marker root n) (hplain : n.isConstruct marker = false)
      (h : c ∈ n.children) : Reached marker root c
  | condition {n e : Node} (hn : Reached marker root n) (hif : n.isIf = true)
      (h : n.condition = .ok e) : Reached marker root e
  | body {n c : Node} (hn : Reached marker root n) (hif : n.isIf = true) (h : c ∈ n.body) :
      Reached marker root c
  | otherwise {n e c : Node} (hn : Reached marker root n) (hif : n.isIf = true)
      (he : NextElse root n e) (h : c ∈ e.body) : Reached marker root c

theorem placed_of_mem_children {root n c : Node} (hn : n ∈ root.preorder) (hc : c ∈ n.children) :
    ∃ following, Placed root c following := by
  obtain ⟨before, rest, hcs⟩ := List.append_of_mem hc
  exact ⟨_, placed_of_children hn hcs⟩

namespace SourceTree

variable {links : Links} {root : Node} (tree : SourceTree links root)
include tree

/-- Among the entries of its body, an `<If>` looks for its `<Else>` after itself. -/
theorem nextElse_iff {n e : Node} {following : List Node} (hplaced : Placed root n following) :
    NextElse root n e ↔ StartsWithElse following e := by
  constructor
  · rintro ⟨p, hp, before, rest, hbody, he⟩
    rwa [tree.placed_unique hplaced (tree.placed_of_body hp hbody)]
  · intro he
    cases hparent : n.markupParent links with
    | none =>
      rw [tree.following_eq_nil hplaced hparent] at he
      exact absurd he not_startsWithElse_nil
    | some p =>
      obtain ⟨hp, hmem⟩ := (tree.markupParent_eq_some_iff (mem_of_placed hplaced)).mp hparent
      obtain ⟨before, hbody⟩ := tree.following_of_body hplaced hp hmem
      exact ⟨p, hp, before, following, hbody, he⟩

theorem mem_of_nextElse {n e : Node} (h : NextElse root n e) : e ∈ root.preorder := by
  obtain ⟨p, hp, before, following, hbody, he⟩ := h
  exact tree.mem_of_mem_body hp (by rw [hbody]; simp [he.mem])

theorem placed_of_mem_body {n c : Node} (hn : n ∈ root.preorder) (hc : c ∈ n.body) :
    ∃ following, Placed root c following := by
  obtain ⟨before, rest, hbody⟩ := List.append_of_mem hc
  exact ⟨rest, tree.placed_of_body hn hbody⟩

/-- Every node that is reached has a place in the tree. -/
theorem placed_of_reached {marker : String} {n : Node} (h : Reached marker root n) :
    ∃ following, Placed root n following := by
  induction h with
  | child h => exact placed_of_mem_children (Node.self_mem_preorder root) h
  | inside _ _ h ih =>
    obtain ⟨_, hplaced⟩ := ih
    exact placed_of_mem_children (mem_of_placed hplaced) h
  | condition _ hif h ih =>
    obtain ⟨_, hplaced⟩ := ih
    exact ⟨[], placed_condition (mem_of_placed hplaced) h⟩
  | body _ _ h ih =>
    obtain ⟨_, hplaced⟩ := ih
    exact tree.placed_of_mem_body (mem_of_placed hplaced) h
  | otherwise _ _ he h _ => exact tree.placed_of_mem_body (tree.mem_of_nextElse he) h

theorem mem_of_reached {marker : String} {n : Node} (h : Reached marker root n) :
    n ∈ root.preorder := by
  obtain ⟨_, hplaced⟩ := tree.placed_of_reached h
  exact mem_of_placed hplaced

end SourceTree

/-! ### Nodes that are reached, in their places -/

/-- The node is reached and stands in front of `following`. -/
structure ReachedAt (marker : String) (root : Node) (following : List Node) (n : Node) : Prop where
  placed : Placed root n following
  reached : Reached marker root n

section ReachedAt

variable {marker : String} {root n : Node} {following : List Node} {changes : List (Node × Change)}

theorem ReachedAt.mem (h : ReachedAt marker root following n) : n ∈ root.preorder :=
  mem_of_placed h.placed

theorem along_reachedAt {inBody : Bool}
    (hplaced : Along (fun following n _ => Placed root n following) inBody changes)
    (hreached : ∀ c ∈ changes.map Prod.fst, Reached marker root c) :
    Along (fun following n _ => ReachedAt marker root following n) inBody changes :=
  hplaced.mp fun _ _ _ _ hsplit hn => ⟨hn, hreached _ (by rw [hsplit]; simp)⟩

theorem ReachedAt.condition {e : Node} (h : ReachedAt marker root following n)
    (hif : n.isIf = true) (he : n.condition = .ok e) : ReachedAt marker root [] e :=
  ⟨placed_condition h.mem he, .condition h.reached hif he⟩

/-- The children of a node that is no construct are reached in their places. -/
theorem ReachedAt.along_children (h : ReachedAt marker root following n)
    (hplain : n.isConstruct marker = false) (hfst : changes.map Prod.fst = n.children) :
    Along (fun following n _ => ReachedAt marker root following n) (n.kind = .syntaxList) changes :=
  along_reachedAt (along_placed h.mem hfst) fun _ hc => .inside h.reached hplain (hfst ▸ hc)

namespace SourceTree

variable {links : Links} (tree : SourceTree links root)
include tree

theorem along_root (hfst : changes.map Prod.fst = root.children) :
    Along (fun following n _ => ReachedAt marker root following n) false changes := by
  have hplaced := along_placed (Node.self_mem_preorder root) hfst
  rw [decide_eq_false tree.rootKind] at hplaced
  exact along_reachedAt hplaced fun _ hc => .child (hfst ▸ hc)

/-- The entries of an `<If>` are reached in their places. -/
theorem along_body (h : ReachedAt marker root following n) (hif : n.isIf = true)
    (hfst : changes.map Prod.fst = n.body) :
    Along (fun following n _ => ReachedAt marker root following n) true changes :=
  along_reachedAt (tree.along_placed_body h.mem hfst) fun _ hc => .body h.reached hif (hfst ▸ hc)

/-- So are those of its `<Else>`. -/
theorem along_otherwise (h : ReachedAt marker root following n) (hif : n.isIf = true)
    (hother : Pairing.leadingElse following = .ok (changes.map Prod.fst)) :
    Along (fun following n _ => ReachedAt marker root following n) true changes := by
  rcases tree.body_of_leadingElse h.placed hother with hnil | ⟨e, he, hmem, _, hfst⟩
  · rw [List.map_eq_nil_iff.mp hnil]
    exact along_nil
  · have hnext := (tree.nextElse_iff h.placed).mpr he
    exact along_reachedAt (tree.along_placed_body hmem hfst) fun _ hc =>
      .otherwise h.reached hif hnext (hfst ▸ hc)

end SourceTree

end ReachedAt

/-! ### What a node becomes, by what it is -/

section Inversion

variable {s : Setting} {following : List Node} {n : Node} {change : Change}

theorem isConstruct_eq_false_iff {marker : String} : n.isConstruct marker = false ↔
    n.isIf = false ∧ n.isElse = false ∧ n.moduleSpecifier ≠ some marker := by
  simp [Node.isConstruct, and_assoc]

theorem Becomes.of_isIf (h : Becomes s following n change) (hif : n.isIf = true) :
    ∃ condition inner yes no made, Checked n ∧ n.condition = .ok condition ∧
      n.entries = .ok (yes.map Prod.fst) ∧
      (∀ p, n.markupParent s.links = some p → ∃ entries, p.entries = .ok entries) ∧
      Pairing.leadingElse following = .ok (no.map Prod.fst) ∧ Becomes s [] condition inner ∧
      Along (Becomes s) true yes ∧ Along (Becomes s) true no ∧
      IsTernary n condition inner yes no made ∧ change = .replace made := by
  cases h with
  | removeImport himport =>
    rw [Node.moduleSpecifier_of_isElementOf hif] at himport
    cases himport
  | removeElse helse =>
    rw [Node.isElse_eq_false_of_isIf hif] at helse
    cases helse
  | expand _ hchecked hcondition hbody hparent hother hinner hyes hno hmade =>
    exact ⟨_, _, _, _, _, hchecked, hcondition, hbody, hparent, hother, hinner, hyes, hno, hmade,
      rfl⟩
  | visitChildren _ hnot =>
    rw [hif] at hnot
    cases hnot

theorem Becomes.of_plain (h : Becomes s following n change)
    (hplain : n.isConstruct s.marker = false) :
    ∃ changes, Checked n ∧ changes.map Prod.fst = n.children ∧
      Along (Becomes s) (n.kind = .syntaxList) changes ∧ change = n.changed changes := by
  obtain ⟨hif, helse, himport⟩ := isConstruct_eq_false_iff.mp hplain
  cases h with
  | removeImport h => exact absurd h himport
  | removeElse h =>
    rw [helse] at h
    cases h
  | expand h =>
    rw [hif] at h
    cases h
  | visitChildren _ _ _ hchecked hchildren hchanges =>
    exact ⟨_, hchecked, hchildren, hchanges, rfl⟩

theorem Becomes.of_isElse (h : Becomes s following n change) (helse : n.isElse = true) :
    Checked n ∧ (∃ p, n.markupParent s.links = some p) ∧ change = .remove := by
  cases h with
  | removeImport himport =>
    rw [Node.moduleSpecifier_of_isElementOf helse] at himport
    cases himport
  | removeElse _ hchecked hparent => exact ⟨hchecked, hparent, rfl⟩
  | expand hif =>
    rw [Node.isElse_eq_false_of_isIf hif] at helse
    cases helse
  | visitChildren _ _ hnot =>
    rw [helse] at hnot
    cases hnot

theorem Along.remove_of_isElse {inBody : Bool} {changes : List (Node × Change)}
    (h : Along (Becomes s) inBody changes) : ∀ c ∈ changes, c.1.isElse = true → c.2 = .remove := by
  intro c hc helse
  obtain ⟨_, hbecomes⟩ := h.exists_of_mem hc
  exact (hbecomes.of_isElse helse).2.2

/-- What takes the place of a node stands for it and is not a node of the source. -/
theorem Becomes.of_replace {r : Node} (h : Becomes s following n change) (hr : change = .replace r) :
    r.source = n.source ∧ r.id = none := by
  cases h with
  | removeImport => cases hr
  | removeElse => cases hr
  | expand _ _ _ _ _ _ _ _ _ hmade =>
    obtain ⟨_, _, _, _, hmade, hsource, _⟩ := hmade
    rw [Change.replace.injEq] at hr
    rw [← hr]
    exact ⟨hsource, hmade.id_eq⟩
  | @visitChildren _ _ changes _ _ _ _ _ _ =>
    rcases Node.changed_cases n changes with ⟨_, hkeep, _⟩ | ⟨hreplace, _⟩
    · rw [hkeep] at hr
      cases hr
    · rw [hreplace, Change.replace.injEq] at hr
      rw [← hr]
      exact ⟨Node.source_copyWith n _, rfl⟩

end Inversion

/-! ### Where the results are -/

theorem mem_results_iff {r : Node} {changes : List (Node × Change)} :
    r ∈ results changes ↔ ∃ n change, (n, change) ∈ changes ∧ change.result n = some r := by
  rw [results, List.mem_filterMap]
  exact Prod.exists

theorem Node.preorder_subset_of_mem_children {c n : Node} (h : c ∈ n.children) :
    c.preorder ⊆ n.preorder := (preorder_sublist (mem_preorder_of_mem_children h)).subset

theorem IsBranch.subset {ifNode branch r : Node} {entries : List Node}
    (h : IsBranch ifNode entries branch) (hr : r ∈ entries) : r.preorder ⊆ branch.preorder := by
  obtain ⟨openTag, list, closeTag, hbranch, _, _, hlist, _⟩ := h
  have hl : list ∈ branch.children := by rw [hbranch.children_eq]; simp
  refine List.Subset.trans (Node.preorder_subset_of_mem_children ?_)
    (Node.preorder_subset_of_mem_children hl)
  rwa [hlist.children_eq]

/-- What the condition and the entries of an `<If>` become is all part of its ternary. -/
theorem IsTernary.subset {ifNode condition n : Node} {inner : Change} {yes no : List (Node × Change)}
    (h : IsTernary ifNode condition inner yes no n) :
    (∀ r, inner.result condition = some r → r.preorder ⊆ n.preorder) ∧
      (∀ r ∈ results yes, r.preorder ⊆ n.preorder) ∧
      ∀ r ∈ results no, r.preorder ⊆ n.preorder := by
  obtain ⟨ternary, parts, yesBranch, noBranch, hn, _, hternary, hparts, hyes, hno⟩ := h
  have houter : ternary.preorder ⊆ n.preorder :=
    Node.preorder_subset_of_mem_children (by rw [hn.children_eq]; simp)
  have hpart : ∀ p ∈ parts ++ [yesBranch, noBranch], p.preorder ⊆ n.preorder := fun p hp =>
    List.Subset.trans
      (Node.preorder_subset_of_mem_children (by rw [hternary.children_eq]; exact hp)) houter
  refine ⟨fun r hr => ?_, fun r hr => ?_, fun r hr => ?_⟩
  · rw [IsConditionPart, hr, Option.toList_some] at hparts
    split at hparts
    · obtain ⟨p, rfl, hp⟩ := hparts
      refine List.Subset.trans (Node.preorder_subset_of_mem_children ?_) (hpart p (by simp))
      rw [hp.children_eq]
      exact List.mem_singleton_self r
    · exact hpart r (by rw [hparts]; simp)
  · exact List.Subset.trans (hyes.subset hr) (hpart yesBranch (by simp))
  · rcases hno with ⟨rfl, _⟩ | ⟨_, hno⟩
    · exact absurd hr List.not_mem_nil
    · exact List.Subset.trans (hno.subset hr) (hpart noBranch (by simp))

/-- A node becomes something, and what it becomes is part of the tree of `whole`. -/
def LocatedIn (s : Setting) (root whole n : Node) : Prop :=
  ∃ following change, Placed root n following ∧ Becomes s following n change ∧
    ∀ r, change.result n = some r → r.preorder ⊆ whole.preorder

/-- Nodes that become something, and what they become is part of the tree of `whole`. -/
theorem locatedIn_of_along {s : Setting} {root whole c : Node} {inBody : Bool}
    {changes : List (Node × Change)}
    (hplaced : Along (fun following n _ => Placed root n following) inBody changes)
    (halong : Along (Becomes s) inBody changes)
    (hwhole : ∀ r ∈ results changes, r.preorder ⊆ whole.preorder)
    (hc : c ∈ changes.map Prod.fst) : LocatedIn s root whole c := by
  obtain ⟨⟨d, change⟩, hmem, hd⟩ := List.mem_map.mp hc
  obtain rfl : d = c := hd
  obtain ⟨before, after, hsplit⟩ := List.append_of_mem hmem
  exact ⟨_, change, hplaced before d change after hsplit, halong before d change after hsplit,
    fun r hr => hwhole r (mem_results_iff.mpr ⟨d, change, hmem, hr⟩)⟩

namespace SourceTree

variable {s : Setting} {root : Node} {changes : List (Node × Change)}
  (tree : SourceTree s.links root)
include tree

/-- An `<Else>` that is removed is an entry of a body. -/
theorem isElse_eq_false_of_apart {p c : Node} {following : List Node} {change : Change}
    (hp : p ∈ root.preorder) (hkind : p.kind ≠ .syntaxList) (hc : c ∈ p.children)
    (h : Becomes s following c change) : c.isElse = false := by
  by_contra helse
  rw [Bool.not_eq_false] at helse
  obtain ⟨_, ⟨q, hq⟩, _⟩ := h.of_isElse helse
  obtain ⟨hqmem, hmem⟩ := (tree.markupParent_eq_some_iff (Node.child_mem_preorder hc hp)).mp hq
  obtain ⟨list, hl, hlist, hb⟩ := tree.list_mem hqmem (Node.hasBody_of_mem_body hmem)
  rw [hb] at hmem
  exact hkind (tree.parent_unique hp (Node.child_mem_preorder hl hqmem) hc hmem ▸ hlist)

/-- A condition is not removed unless it is an import. -/
theorem exists_result_of_condition {n e : Node} {following : List Node} {change : Change}
    (hn : n ∈ root.preorder) (h : n.condition = .ok e) (hkind : e.kind ≠ .importDeclaration)
    (hbecomes : Becomes s following e change) : ∃ r, change.result e = some r := by
  obtain ⟨v, hv, hvkind, he⟩ := mem_of_condition hn h
  have helse : e.isElse = false :=
    tree.isElse_eq_false_of_apart hv (by rw [hvkind]; decide) he hbecomes
  cases hbecomes with
  | removeImport himport =>
    rw [Node.moduleSpecifier, if_neg hkind] at himport
    cases himport
  | removeElse h =>
    rw [helse] at h
    cases h
  | expand => exact ⟨_, rfl⟩
  | visitChildren => exact ⟨_, Node.result_changed _ _⟩

/-- Every node that is reached becomes something that is part of the expanded tree. -/
theorem locatedIn_of_reached (hfst : changes.map Prod.fst = root.children)
    (halong : Along (Becomes s) false changes) {n : Node} (h : Reached s.marker root n) :
    LocatedIn s root (root.rebuilt changes) n := by
  have hresults : ∀ {m : Node} {cs : List (Node × Change)}, cs.map Prod.fst = m.children →
      ∀ r ∈ results cs, r.preorder ⊆ (m.rebuilt cs).preorder := fun hcs r hr =>
    Node.preorder_subset_of_mem_children (by rw [Node.children_rebuilt hcs]; exact hr)
  -- the path to the node is retraced: each step leads to a part of what the node before became
  induction h with
  | child h =>
    have hplaced := along_placed (Node.self_mem_preorder root) hfst
    rw [decide_eq_false tree.rootKind] at hplaced
    exact locatedIn_of_along hplaced halong (hresults hfst) (hfst ▸ h)
  | inside _ hplain h ih =>
    obtain ⟨following, change, hplaced, hbecomes, hwhole⟩ := ih
    obtain ⟨cs, _, hcs, hchanges, rfl⟩ := hbecomes.of_plain hplain
    refine locatedIn_of_along (along_placed (mem_of_placed hplaced) hcs) hchanges (fun r hr => ?_)
      (hcs ▸ h)
    exact List.Subset.trans (hresults hcs r hr) (hwhole _ (Node.result_changed _ _))
  | condition _ hif h ih =>
    obtain ⟨following, change, hplaced, hbecomes, hwhole⟩ := ih
    obtain ⟨e, inner, yes, no, made, _, hcondition, _, _, _, hinner, _, _, hmade, rfl⟩ :=
      hbecomes.of_isIf hif
    rw [h, Except.ok.injEq] at hcondition
    subst hcondition
    refine ⟨[], inner, placed_condition (mem_of_placed hplaced) h, hinner, fun r hr => ?_⟩
    exact List.Subset.trans (hmade.subset.1 r hr) (hwhole made rfl)
  | body _ hif h ih =>
    obtain ⟨following, change, hplaced, hbecomes, hwhole⟩ := ih
    obtain ⟨e, inner, yes, no, made, _, _, hbody, _, _, _, hyes, _, hmade, rfl⟩ :=
      hbecomes.of_isIf hif
    have hn := mem_of_placed hplaced
    have hb := ((tree.entries_eq_ok_iff hn (Node.hasBody_of_isIf hif)).mp hbody).1
    refine locatedIn_of_along (tree.along_placed_body hn hb) hyes (fun r hr => ?_) (hb ▸ h)
    exact List.Subset.trans (hmade.subset.2.1 r hr) (hwhole made rfl)
  | otherwise _ hif he h ih =>
    obtain ⟨following, change, hplaced, hbecomes, hwhole⟩ := ih
    obtain ⟨_, inner, yes, no, made, _, _, _, _, hother, _, _, hno, hmade, rfl⟩ :=
      hbecomes.of_isIf hif
    have heFollowing := (tree.nextElse_iff hplaced).mp he
    have hmem := tree.mem_of_nextElse he
    rw [heFollowing.leadingElse_eq,
      tree.entries_eq_ok_iff hmem (Node.hasBody_of_isElse heFollowing.isElse)] at hother
    refine locatedIn_of_along (tree.along_placed_body hmem hother.1) hno (fun r hr => ?_)
      (hother.1 ▸ h)
    exact List.Subset.trans (hmade.subset.2.2 r hr) (hwhole made rfl)

end SourceTree

end CondMarkup
