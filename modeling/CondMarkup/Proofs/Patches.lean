import CondMarkup.Proofs.Parts
import CondMarkup.Proofs.Spans

/-!
The expansion as a splice of the source text. Outside of the constructs the text is copied; an `<Else>`
and an import of the marker module are cut out; and an `<If>` is replaced by the text of its ternary,
whose parts are splices themselves: of the stretch of the condition, of the stretch between the tags,
and of the stretch between the tags of the `<Else>` that comes next. No node is made or copied here.
-/

namespace CondMarkup

/-- The text of a ternary in braces with a fragment as its first branch. -/
def ternaryText (condition whenTrue whenFalse : Text) : Text :=
  '{' :: condition ++ " ? <>".toList ++ whenTrue ++ "</> : ".toList ++ whenFalse ++ ['}']

/-- The text of an expression as the condition of a ternary. -/
def operandText (e : Node) (written : Text) : Text :=
  if e.bindsLoosely then '(' :: written ++ [')'] else written

theorem Node.mem_of_bodyList {n list : Node} (h : n.bodyList = some list) :
    list ∈ n.children ∧ list.kind = .syntaxList := by
  rw [bodyList] at h
  split at h
  · exact ⟨List.mem_of_find?_eq_some h, by simpa using List.find?_some h⟩
  · cases h

theorem size_le_of_nextElse? {following : List Node} {e : Node} (h : nextElse? following = some e) :
    e.size ≤ Node.sizeAll following :=
  Node.size_le_sizeAll (nextElse?_eq_some_iff.mp h).mem

section Patches

variable (marker : String) (text : Text)

mutual

/-- The outermost constructs in the tree of a node that stands in front of `following`, each with the
text that takes its place. -/
def patches (following : List Node) (n : Node) : List Patch :=
  if n.isIf then
    let condition := match _h : n.condition with
      | .ok e => operandText e (splice text e.info.start e.info.stop (patches [] e))
      | .error _ => []
    let whenFalse := match _h : nextElse? following with
      | some e => if e.body = [] then "null".toList
        else "<>".toList ++ bodyText e ++ "</>".toList
      | none => "null".toList
    [⟨n.info.start, n.info.stop, ternaryText condition (bodyText n) whenFalse⟩]
  else if n.isElse ∨ n.moduleSpecifier = some marker then [⟨n.info.start, n.info.stop, []⟩]
  else patchesAll (n.kind = .syntaxList) n.children
termination_by 3 * (n.size + Node.sizeAll following)
decreasing_by
  · have := Node.size_condition_lt _h
    simp only [Node.sizeAll]
    omega
  · have := size_le_of_nextElse? _h
    have := Node.sizeAll_body_lt e
    have := Node.size_pos n
    omega
  · have := Node.sizeAll_body_lt n
    omega
  · have := Node.sizeAll_children_lt n
    omega

/-- The same for siblings, which stand in front of each other if they are the entries of a body. -/
def patchesAll (inBody : Bool) : List Node → List Patch
  | [] => []
  | n :: rest => patches (if inBody then rest else []) n ++ patchesAll inBody rest
termination_by ns => 3 * Node.sizeAll ns + 1
decreasing_by
  · split
    · simp only [Node.sizeAll]
      omega
    · simp only [Node.sizeAll]
      omega
  · have := n.size_pos
    simp only [Node.sizeAll]
    omega

/-- The text between the tags of an element or fragment with its constructs replaced. -/
def bodyText (n : Node) : Text :=
  match _h : n.bodyList with
  | some list => splice text list.info.start list.info.stop (patchesAll true list.children)
  | none => []
termination_by 3 * Node.sizeAll n.body + 2
decreasing_by
  · simp only [Node.body, _h, Option.map_some, Option.getD_some]
    omega

end

/-- The text of the condition of a ternary for an `<If>` with the condition `e`. -/
def conditionText (e : Node) : Text :=
  operandText e (splice text e.info.start e.info.stop (patches marker text [] e))

/-- The text of the second branch of a ternary for an `<If>` in front of `following`. -/
def otherwiseText (following : List Node) : Text :=
  match nextElse? following with
  | some e => if e.body = [] then "null".toList
    else "<>".toList ++ bodyText marker text e ++ "</>".toList
  | none => "null".toList

end Patches

section Equations

variable {marker : String} {text : Text} {following : List Node} {n : Node}

theorem patches_of_isIf {e : Node} (hif : n.isIf = true) (he : n.condition = .ok e) :
    patches marker text following n = [⟨n.info.start, n.info.stop,
      ternaryText (conditionText marker text e) (bodyText marker text n)
        (otherwiseText marker text following)⟩] := by
  rw [patches, if_pos hif]
  split
  · rename_i e' he'
    rw [he, Except.ok.injEq] at he'
    subst he'
    rw [otherwiseText, conditionText]
    split <;> simp_all
  · rename_i cause hcause
    rw [he] at hcause
    cases hcause

theorem patches_of_isElse (helse : n.isElse = true) :
    patches marker text following n = [⟨n.info.start, n.info.stop, []⟩] := by
  rw [patches, if_neg (by rw [Node.isIf_eq_false_of_isElse helse]; exact Bool.false_ne_true),
    if_pos (Or.inl helse)]

theorem patches_of_import (himport : n.moduleSpecifier = some marker) :
    patches marker text following n = [⟨n.info.start, n.info.stop, []⟩] := by
  rw [patches, if_neg (by rw [Node.isIf_eq_false_of_import himport]; exact Bool.false_ne_true),
    if_pos (Or.inr himport)]

theorem patches_of_plain (hif : n.isIf = false) (helse : n.isElse = false)
    (himport : n.moduleSpecifier ≠ some marker) :
    patches marker text following n = patchesAll marker text (n.kind = .syntaxList) n.children := by
  rw [patches, if_neg (by rw [hif]; exact Bool.false_ne_true), if_neg]
  rintro (h | h)
  · rw [helse] at h
    cases h
  · exact himport h

end Equations

/-! ### Patches in order -/

section Order

variable {marker : String} {text : Text} {inBody : Bool} {a b : Int}

theorem inOrder_patchesAll {cs : List Node} (h : InOrder a b (cs.map Node.span))
    (hcs : ∀ c ∈ cs, ∀ following, InOrder c.info.start c.info.stop
      ((patches marker text following c).map Patch.span)) :
    InOrder a b ((patchesAll marker text inBody cs).map Patch.span) := by
  induction cs generalizing a with
  | nil =>
    rw [patchesAll]
    exact h
  | cons c rest ih =>
    obtain ⟨hstart, _, hrest⟩ := h
    rw [patchesAll, List.map_append]
    have hfirst := (hcs c List.mem_cons_self (if inBody then rest else [])).widen hstart
      (Int.le_refl _)
    exact hfirst.append (ih hrest fun d hd => hcs d (List.mem_cons_of_mem c hd))

namespace SpansText

variable {root : Node} (spans : SpansText text root)
include spans

/-- What is replaced in the tree of a node lies within the node. -/
theorem inOrder_patches {n : Node} :
    n ∈ root.preorder → ∀ following, InOrder n.info.start n.info.stop
      ((patches marker text following n).map Patch.span) := by
  induction n using Node.treeInduction with
  | step n ih =>
    intro hn following
    have hwhole : ∀ replacement : Text, InOrder n.info.start n.info.stop
        (([⟨n.info.start, n.info.stop, replacement⟩] : List Patch).map Patch.span) := fun _ =>
      ⟨Int.le_refl _, (spans.bounds hn).2.1, Int.le_refl _⟩
    rw [patches]
    split
    · exact hwhole _
    · split
      · exact hwhole []
      · exact inOrder_patchesAll (spans.inOrder hn) fun c hc =>
          ih c hc (Node.child_mem_preorder hc hn)

/-- A splice of siblings, one after the other. -/
theorem splice_cons {c : Node} {rest : List Node} (hall : ∀ d ∈ c :: rest, d ∈ root.preorder)
    (h : InOrder a b ((c :: rest).map Node.span)) (ha : 0 ≤ a) (hb : b ≤ text.length) :
    splice text a b (patchesAll marker text inBody (c :: rest)) =
      window text a c.info.start ++ splice text c.info.start c.info.stop
          (patches marker text (if inBody then rest else []) c) ++
        splice text c.info.stop b (patchesAll marker text inBody rest) := by
  obtain ⟨hstart, _, hrest⟩ := h
  have hfirst : InOrder c.info.start c.info.stop
      ((patches marker text (if inBody then rest else []) c).map Patch.span) :=
    spans.inOrder_patches (hall c List.mem_cons_self) _
  have hothers : InOrder c.info.stop b ((patchesAll marker text inBody rest).map Patch.span) :=
    inOrder_patchesAll hrest fun d hd => spans.inOrder_patches (hall d (List.mem_cons_of_mem c hd))
  have hstop : c.info.stop ≤ text.length := Int.le_trans hothers.le hb
  rw [patchesAll, splice_append ha (hfirst.widen hstart (Int.le_refl _)) hothers hb,
    splice_eq_window_append ha hstart hfirst hstop]

end SpansText

end Order

end CondMarkup
