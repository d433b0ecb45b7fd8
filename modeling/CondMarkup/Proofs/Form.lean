import CondMarkup.Proofs.Location

/-!
The form of the tree of a parsed file, whatever grammar tree it was made from, and what follows from
it for the expansion. `TreeForm` says that parents and children belong together, what elements and
fragments are made of, and where lists are found. Three of the causes of an error blame the form of a
tree and not the use of the tags. Only elements and fragments of the source tree are ever taken apart,
and these have the right form, so the expansion of a parsed file never fails with one of those causes.
-/

namespace CondMarkup

open Expansion

/-- The form of the tree of a parsed file. -/
structure TreeForm (links : Links) (root : Node) : Prop where
  rootParent : root.parent = none
  /-- The parent of a node is the node among whose children it is. -/
  parentOf_iff : ∀ c ∈ root.preorder, ∀ p,
    links.parentOf c = some p ↔ p ∈ root.preorder ∧ c ∈ p.children
  /-- An element has an opening tag with a name and attributes, a list, and a closing tag. -/
  element : ∀ n ∈ root.preorder, n.kind = .jsxElement → ∃ openTag list closeTag name attributes,
    n.children = [openTag, list, closeTag] ∧ openTag.kind = .jsxOpeningElement ∧
      list.kind = .syntaxList ∧ closeTag.kind = .jsxClosingElement ∧
      openTag.children = [name, attributes] ∧ name.kind = .identifier ∧ name.value.isSome = true ∧
      attributes.kind = .jsxAttributes
  fragment : ∀ n ∈ root.preorder, n.kind = .jsxFragment → ∃ openTag list closeTag,
    n.children = [openTag, list, closeTag] ∧ openTag.kind = .jsxOpeningFragment ∧
      list.kind = .syntaxList ∧ closeTag.kind = .jsxClosingFragment
  /-- A list is found between the tags of an element or fragment and nowhere else. -/
  list : ∀ m ∈ root.preorder, m.kind = .syntaxList → ∃ owner ∈ root.preorder,
    owner.hasBody = true ∧ ∃ openTag closeTag, owner.children = [openTag, m, closeTag]

/-- Whether a cause blames the form of a tree: the number of the parts of an element, a list that is
missing, or an `<If>` that its own parent does not hold. -/
def Cause.blamesForm : Cause → Bool
  | .partCount .. | .noList .. | .notAmongSiblings => true
  | _ => false

/-! ### Causes that blame the use of the tags -/

theorem Node.blamesForm_of_condition {n : Node} {cause : Cause} (h : n.condition = .error cause) :
    cause.blamesForm = false := by
  rw [condition] at h
  split at h
  · exact Except.error.inj h ▸ rfl
  · split at h
    · exact Except.error.inj h ▸ rfl
    · split at h
      · exact Except.error.inj h ▸ rfl
      · split at h
        · exact Except.error.inj h ▸ rfl
        · cases h

namespace Expansion

theorem whenFalse_eq_error_iff {links : Links} {ifNode : Node} {cause : Cause} :
    Branches.whenFalse links ifNode = .error cause ↔ elseEntries links ifNode = .error cause := by
  rw [Branches.whenFalse, elseEntries]
  cases ifNode.markupParent links with
  | none =>
    constructor <;> intro h <;> cases h
  | some parent =>
    simp only [bind_eq_error_iff]
    constructor
    · rintro (h | ⟨entries, _, h⟩)
      · exact h
      · cases entries <;> cases h
    · exact Or.inl

/-- A ternary is refused for its condition, for the entries of the `<If>` or for those of its
`<Else>`. -/
theorem ternary_eq_error_cases {links : Links} {ifNode : Node} {cause : Cause}
    (h : Branches.ternary links ifNode = .error cause) :
    ifNode.condition = .error cause ∨ ifNode.entries = .error cause ∨
      elseEntries links ifNode = .error cause := by
  rcases bind_eq_error_iff.mp h with h | ⟨_, _, h⟩
  · exact Or.inl h
  rcases bind_eq_error_iff.mp h with h | ⟨_, _, h⟩
  · rcases bind_eq_error_iff.mp h with h | ⟨_, _, h⟩
    · exact Or.inr (Or.inl h)
    · cases h
  rcases bind_eq_error_iff.mp h with h | ⟨_, _, h⟩
  · exact Or.inr (Or.inr (whenFalse_eq_error_iff.mp h))
  · cases h

end Expansion

namespace SourceTree

variable {links : Links} {root : Node} (tree : SourceTree links root)
include tree

/-- The entries of an element or fragment of the source are refused only for their kinds. -/
theorem blamesForm_of_entries {n : Node} {cause : Cause} (hn : n ∈ root.preorder)
    (hbody : n.hasBody = true) (h : n.entries = .error cause) : cause.blamesForm = false := by
  obtain ⟨openTag, list, closeTag, hcs, hlist, _⟩ := tree.exists_list hn hbody
  rw [Node.entries, hcs] at h
  simp only [hlist, ne_eq, not_true_eq_false, if_false] at h
  split at h
  · cases h
  · exact Except.error.inj h ▸ rfl

/-- An `<If>` of the source is found among the entries of its parent, so that only the entries of the
parent or of the `<Else>` can be refused. -/
theorem blamesForm_of_elseEntries {n : Node} {following : List Node} {cause : Cause}
    (hplaced : Placed root n following) (h : elseEntries links n = .error cause) :
    cause.blamesForm = false := by
  have hn := mem_of_placed hplaced
  rw [elseEntries] at h
  cases hparent : n.markupParent links with
  | none =>
    rw [hparent] at h
    cases h
  | some p =>
    obtain ⟨hp, hmem⟩ := (tree.markupParent_eq_some_iff hn).mp hparent
    have hbody := Node.hasBody_of_mem_body hmem
    rw [hparent] at h
    rcases bind_eq_error_iff.mp h with h | ⟨entries, hentries, h⟩
    · exact tree.blamesForm_of_entries hp hbody h
    obtain ⟨rfl, _⟩ := (tree.entries_eq_ok_iff hp hbody).mp hentries
    rw [tree.after_body hplaced hp hmem] at h
    rcases leadingElse_cases following with ⟨e, he, hsearch⟩ | ⟨_, hsearch⟩
    · exact tree.blamesForm_of_entries (mem_of_following hplaced he.mem)
        (Node.hasBody_of_isElse he.isElse) (hsearch.symm.trans h)
    · cases hsearch.symm.trans h

/-- No node that is visited is refused for the form of a tree. -/
theorem blamesForm_of_plan {s : Setting} (hlinks : s.links = links) {fuel : Nat} {n : Node}
    {cause : Cause} (hfits : Fits root fuel n) (h : plan s n = .error cause) :
    cause.blamesForm = false := by
  rcases plan_eq_error_cases h with rfl | ⟨hif, h⟩ | rfl
  · rfl
  · obtain ⟨following, hplaced, _⟩ := hfits.placed_of_element (Node.kind_of_isElementOf hif)
    rcases ternary_eq_error_cases h with h | h | h
    · exact Node.blamesForm_of_condition h
    · exact tree.blamesForm_of_entries (mem_of_placed hplaced) (Node.hasBody_of_isIf hif) h
    · exact tree.blamesForm_of_elseEntries hplaced (hlinks ▸ h)
  · rfl

theorem treeForm (hwritten : root.Everywhere Written) : TreeForm links root where
  rootParent := tree.rootParent
  parentOf_iff := by
    intro c hc p
    constructor
    · intro h
      rcases Node.exists_parent hc with rfl | ⟨q, hq, hmem⟩
      · rw [Links.parentOf, tree.rootParent] at h
        cases h
      · rw [tree.parentOf_child hq hmem, Option.some.injEq] at h
        exact h ▸ ⟨hq, hmem⟩
    · rintro ⟨hp, hmem⟩
      exact tree.parentOf_child hp hmem
  element := by
    intro n hn hkind
    obtain ⟨openTag, list, closeTag, hcs, hopen, hlist, hclose⟩ :=
      exists_of_map_kind_eq_three ((tree.shapedAt hn).element hkind)
    have hmem : openTag ∈ root.preorder := Node.child_mem_preorder (by rw [hcs]; simp) hn
    obtain ⟨name, attributes, hparts, hname, hattributes⟩ :=
      exists_of_map_kind_eq_two ((tree.shapedAt hmem).opening hopen)
    obtain ⟨first, rest, hfirst, hvalue⟩ := (hwritten openTag hmem).named hopen
    rw [hparts, List.map_cons, List.cons.injEq] at hfirst
    refine ⟨openTag, list, closeTag, name, attributes, hcs, hopen, hlist, hclose, hparts, hname, ?_,
      hattributes⟩
    rw [Node.value, hfirst.1]
    exact hvalue
  fragment := fun n hn hkind => exists_of_map_kind_eq_three ((tree.shapedAt hn).fragment hkind)
  list := by
    intro m hm hkind
    obtain ⟨owner, howner, hmem, hbody, _⟩ := tree.exists_owner hm hkind
    obtain ⟨openTag, list, closeTag, hcs, _, _, hopen, hclose⟩ := tree.exists_list howner hbody
    rw [hcs] at hmem
    simp only [List.mem_cons, List.not_mem_nil, or_false] at hmem
    rcases hmem with rfl | rfl | rfl
    · exact absurd hkind hopen
    · exact ⟨owner, howner, hbody, openTag, closeTag, hcs⟩
    · exact absurd hkind hclose

end SourceTree

/-- The tree of a parsed file has the right form, and so its expansion never fails for the form of a
tree. -/
theorem SourceFile.treeForm_and_error_of_expand {name : String} {text : Text} {tree : GrammarTree}
    {file : SourceFile} (hfile : ofGrammar name text tree = .ok file) :
    TreeForm file.links file.root ∧ ∀ marker reportedName err,
      (file.expand marker reportedName).outcome = .error err → ∃ e, err = .misuse e ∧
        e.what.category ≠ .inconsistency ∧ (∀ parent count, e.what ≠ .partCount parent count) ∧
        ∀ parent found, e.what ≠ .noList parent found := by
  refine ⟨(sourceTree hfile).treeForm (written hfile), fun marker reportedName err h => ?_⟩
  have hsource : SourceTree (file.setting marker reportedName).links file.root := sourceTree hfile
  obtain ⟨cause, hraised, rfl⟩ := exists_raised hfile h
  obtain ⟨top, htop, hplan⟩ := hraised.found
  obtain ⟨left, hleft⟩ := fits_of_activeVisits hfile (List.mem_of_getLast? htop)
  have hform := hsource.blamesForm_of_plan rfl hleft hplan
  refine ⟨_, rfl, ?_⟩
  rw [what_located]
  refine ⟨?_, ?_, ?_⟩
  · intro hcategory
    cases cause <;> cases hcategory
    cases hform
  · rintro parent count rfl
    cases hform
  · rintro parent found rfl
    cases hform

/-- The tree of the page has the right form, and the error that ends its expansion blames no tree. -/
theorem SourceFile.treeForm_and_error_of_expand_orphanPage :
    ∃ file e, ofGrammar "page.tsx" OrphanPage.text OrphanPage.tree = .ok file ∧
      TreeForm file.links file.root ∧ (file.expand "m" "").outcome = .error (.misuse e) ∧
      e.what.category ≠ .inconsistency := by
  obtain ⟨file, hfile, hexpand⟩ := OrphanPage.exists_error
  obtain ⟨hform, herror⟩ := treeForm_and_error_of_expand hfile
  obtain ⟨e, he, hcategory, _⟩ := herror "m" "" _ hexpand
  exact ⟨file, e, hfile, hform, hexpand.trans (congrArg Except.error he), hcategory⟩

end CondMarkup
