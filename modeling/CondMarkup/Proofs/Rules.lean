import CondMarkup.Proofs.SourceTree
import CondMarkup.Proofs.Ternary

/-!
The expansion as a relation between the nodes of a source tree and what becomes of them. `Becomes s
following n change` says that `n`, in front of the entries `following` of its body, changes in that
way; there is one rule for each of the four things that are done with a node. The parts of a ternary
do not occur in the rules, and neither does the fuel of the visits: `becomes_of_visit` derives the
relation from a visit that succeeds.
-/

namespace CondMarkup

open Expansion

/-! ### What takes the place of an `<If>` -/

/-- The node was made, or copied from one that was made; it is of the kind and has the children. -/
structure Node.IsMade (kind : Kind) (children : List Node) (n : Node) : Prop where
  kind_eq : n.kind = kind
  synthesized : n.info.synthesized = true
  children_eq : n.children = children
  id_eq : n.id = none

theorem Node.isMade_make (kind : Kind) (children : List Node) (value : Option String) :
    (make kind children value).IsMade kind children := ⟨rfl, rfl, rfl, rfl⟩

theorem Node.id_rebuilt {n : Node} (h : n.id = none) (changes : List (Node × Change)) :
    (n.rebuilt changes).id = none := by
  rcases changed_cases n changes with ⟨_, _, h'⟩ | ⟨_, h'⟩
  · rw [h', h]
  · rw [h', id_copyWith]

theorem Node.IsMade.rebuilt {n : Node} {kind : Kind} {changes : List (Node × Change)}
    (h : n.IsMade kind (changes.map Prod.fst)) : (n.rebuilt changes).IsMade kind (results changes) where
  kind_eq := (kind_rebuilt n changes).trans h.kind_eq
  synthesized := by rw [info_rebuilt]; exact h.synthesized
  children_eq := children_rebuilt h.children_eq.symm
  id_eq := id_rebuilt h.id_eq changes

/-- A fragment made for an `<If>` around the given entries. -/
def IsBranch (ifNode : Node) (entries : List Node) (branch : Node) : Prop :=
  ∃ openTag list closeTag, branch.IsMade .jsxFragment [openTag, list, closeTag] ∧
    openTag.IsMade .jsxOpeningFragment [] ∧ openTag.source = ifNode.source ∧
    list.IsMade .syntaxList entries ∧ closeTag.IsMade .jsxClosingFragment []

/-- The second branch: `null` if there are no entries of an `<Else>`. -/
def IsElseBranch (ifNode : Node) (entries : List (Node × Change)) (branch : Node) : Prop :=
  (entries = [] ∧ branch.IsMade .nullKeyword []) ∨
    (entries ≠ [] ∧ IsBranch ifNode (results entries) branch)

/-- What stands for the condition in a ternary. -/
def IsConditionPart (condition : Node) (change : Change) (parts : List Node) : Prop :=
  if condition.bindsLoosely then
    ∃ p, parts = [p] ∧ p.IsMade .parenthesizedExpression (change.result condition).toList
  else parts = (change.result condition).toList

/-- The ternary in braces that stands for an `<If>`, where the condition and the entries of both
branches change as given. -/
def IsTernary (ifNode condition : Node) (change : Change) (yes no : List (Node × Change))
    (n : Node) : Prop :=
  ∃ ternary parts yesBranch noBranch, n.IsMade .jsxExpression [ternary] ∧
    n.source = ifNode.source ∧
    ternary.IsMade .conditionalExpression (parts ++ [yesBranch, noBranch]) ∧
    IsConditionPart condition change parts ∧ IsBranch ifNode (results yes) yesBranch ∧
    IsElseBranch ifNode no noBranch

theorem result_branchChange (ifNode : Node) (entries : List (Node × Change)) :
    ∃ branch, (branchChange ifNode entries).result (Branches.wrap ifNode (entries.map Prod.fst)) =
      some branch ∧ IsBranch ifNode (results entries) branch := by
  have hlist : (Node.makeList (entries.map Prod.fst)).IsMade .syntaxList (entries.map Prod.fst) :=
    Node.isMade_make _ _ _
  refine ⟨_, Node.result_changed _ _, Branches.openingFor ifNode,
    (Node.makeList (entries.map Prod.fst)).rebuilt entries, Node.makeClosingFragment, ?_,
    ⟨rfl, rfl, rfl, rfl⟩, ?_, hlist.rebuilt, ⟨rfl, rfl, rfl, rfl⟩⟩
  · refine ⟨Node.kind_rebuilt _ _, by rw [Node.info_rebuilt]; rfl, ?_, Node.id_rebuilt rfl _⟩
    rw [Node.children_rebuilt rfl, results_cons, results_cons, results_cons, Node.result_changed]
    rfl
  · rw [Branches.openingFor, Node.withOrigin, Node.source]

theorem result_elseChange (ifNode : Node) (entries : List (Node × Change)) :
    ∃ branch, (elseChange ifNode entries).result (elseBranch ifNode (entries.map Prod.fst)) =
      some branch ∧ IsElseBranch ifNode entries branch := by
  rw [elseChange, elseBranch]
  by_cases h : entries.map Prod.fst = []
  · rw [if_pos h, if_pos h]
    exact ⟨_, rfl, Or.inl ⟨List.map_eq_nil_iff.mp h, rfl, rfl, rfl, rfl⟩⟩
  · rw [if_neg h, if_neg h]
    obtain ⟨branch, hbranch, hmade⟩ := result_branchChange ifNode entries
    exact ⟨branch, hbranch, Or.inr ⟨fun he => h (by rw [he]; rfl), hmade⟩⟩

theorem isConditionPart_result (condition : Node) (change : Change) :
    IsConditionPart condition change
      ((conditionChange condition change).result (conditionPart condition)).toList := by
  rw [IsConditionPart, conditionChange, conditionPart]
  by_cases hloose : condition.bindsLoosely = true
  · rw [if_pos hloose, if_pos hloose, if_pos hloose]
    refine ⟨_, by rw [Node.result_changed]; rfl, Node.kind_rebuilt _ _, ?_, ?_,
      Node.id_rebuilt rfl _⟩
    · rw [Node.info_rebuilt]
      rfl
    · rw [Node.children_rebuilt rfl, results_cons, results_nil, List.append_nil]
  · rw [if_neg hloose, if_neg hloose, if_neg hloose]

theorem isTernary_expanded (ifNode condition : Node) (change : Change)
    (yes no : List (Node × Change)) :
    IsTernary ifNode condition change yes no (expanded ifNode condition change yes no) := by
  obtain ⟨yesBranch, hyes, hyesMade⟩ := result_branchChange ifNode yes
  obtain ⟨noBranch, hno, hnoMade⟩ := result_elseChange ifNode no
  let parts := [(conditionPart condition, conditionChange condition change),
    (Branches.wrap ifNode (yes.map Prod.fst), branchChange ifNode yes),
    (elseBranch ifNode (no.map Prod.fst), elseChange ifNode no)]
  let conditional := conditionalOf ifNode condition (yes.map Prod.fst) (no.map Prod.fst)
  have hparts : results parts =
      ((conditionChange condition change).result (conditionPart condition)).toList ++
        [yesBranch, noBranch] := by
    rw [results_cons, results_cons, results_cons, hyes, hno, results_nil]
    rfl
  have hinner : (conditional.rebuilt parts).IsMade .conditionalExpression (results parts) :=
    Node.IsMade.rebuilt ⟨rfl, rfl, rfl, rfl⟩
  have houter : ((Node.makeExpression conditional).rebuilt
      [(conditional, conditional.changed parts)]).IsMade .jsxExpression
        [conditional.rebuilt parts] := by
    have h : (Node.makeExpression conditional).IsMade .jsxExpression
        ([(conditional, conditional.changed parts)].map Prod.fst) := ⟨rfl, rfl, rfl, rfl⟩
    have hresults : results [(conditional, conditional.changed parts)] =
        [conditional.rebuilt parts] := by
      rw [results_cons, Node.result_changed]
      rfl
    exact hresults ▸ h.rebuilt
  refine ⟨conditional.rebuilt parts, _, yesBranch, noBranch, ?_, ?_, hparts ▸ hinner,
    isConditionPart_result condition change, hyesMade, hnoMade⟩
  · exact ⟨houter.kind_eq, houter.synthesized, houter.children_eq, houter.id_eq⟩
  · rw [expanded, Node.withOrigin, Node.source]

/-! ### The rules -/

/-- Every node of a list, in front of those after it if the list is the body of something. -/
def Along (R : List Node → Node → Change → Prop) (inBody : Bool) (changes : List (Node × Change)) :
    Prop :=
  ∀ before n change after, changes = before ++ (n, change) :: after →
    R (if inBody then after.map Prod.fst else []) n change

theorem along_cons {R : List Node → Node → Change → Prop} {inBody : Bool} {n : Node}
    {change : Change} {rest : List (Node × Change)} :
    Along R inBody ((n, change) :: rest) ↔
      R (if inBody then rest.map Prod.fst else []) n change ∧ Along R inBody rest := by
  constructor
  · intro h
    exact ⟨h [] n change rest rfl, fun before m c after hr => h ((n, change) :: before) m c after
      (by rw [hr, List.cons_append])⟩
  · rintro ⟨hn, hrest⟩ before m c after hr
    cases before with
    | nil =>
      rw [List.nil_append, List.cons.injEq, Prod.mk.injEq] at hr
      obtain ⟨⟨rfl, rfl⟩, rfl⟩ := hr
      exact hn
    | cons b before =>
      rw [List.cons_append, List.cons.injEq] at hr
      exact hrest before m c after hr.2

theorem along_nil {R : List Node → Node → Change → Prop} {inBody : Bool} : Along R inBody [] := by
  intro before n change after h
  simp at h

theorem Along.exists_of_mem {R : List Node → Node → Change → Prop} {inBody : Bool}
    {changes : List (Node × Change)} (h : Along R inBody changes) {c : Node × Change}
    (hc : c ∈ changes) : ∃ following, R following c.1 c.2 := by
  obtain ⟨before, after, hsplit⟩ := List.append_of_mem hc
  exact ⟨_, h before c.1 c.2 after hsplit⟩

theorem Along.mp {P R : List Node → Node → Change → Prop} {inBody : Bool}
    {changes : List (Node × Change)} (hp : Along P inBody changes)
    (h : ∀ before n change after, changes = before ++ (n, change) :: after →
      P (if inBody then after.map Prod.fst else []) n change →
        R (if inBody then after.map Prod.fst else []) n change) : Along R inBody changes := by
  intro before n change after hsplit
  exact h before n change after hsplit (hp before n change after hsplit)

inductive Becomes (s : Setting) : List Node → Node → Change → Prop
  | removeImport {following : List Node} {n : Node} (himport : n.moduleSpecifier = some s.marker) :
      Becomes s following n .remove
  | removeElse {following : List Node} {n : Node} (helse : n.isElse = true) (hchecked : Checked n)
      (hparent : ∃ p, n.markupParent s.links = some p) : Becomes s following n .remove
  | expand {following : List Node} {n condition made : Node} {change : Change}
      {yes no : List (Node × Change)} (hif : n.isIf = true) (hchecked : Checked n)
      (hcondition : n.condition = .ok condition) (hbody : n.entries = .ok (yes.map Prod.fst))
      (hparent : ∀ p, n.markupParent s.links = some p → ∃ entries, p.entries = .ok entries)
      (hother : Pairing.leadingElse following = .ok (no.map Prod.fst))
      (hinner : Becomes s [] condition change) (hyes : Along (Becomes s) true yes)
      (hno : Along (Becomes s) true no) (hmade : IsTernary n condition change yes no made) :
      Becomes s following n (.replace made)
  | visitChildren {following : List Node} {n : Node} {changes : List (Node × Change)}
      (himport : n.moduleSpecifier ≠ some s.marker) (hif : n.isIf = false)
      (helse : n.isElse = false) (hchecked : Checked n)
      (hchildren : changes.map Prod.fst = n.children)
      (hchanges : Along (Becomes s) (n.kind = .syntaxList) changes) :
      Becomes s following n (n.changed changes)

end CondMarkup
