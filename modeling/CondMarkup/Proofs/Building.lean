import CondMarkup.Markup.Building
import CondMarkup.Proofs.Conversion
import CondMarkup.Proofs.Numbering

/-!
The tree that is built is the converted tree, numbered: node by node, what is made for a holder is what
the converter yields with the identities in order and the holder's identity in every child. So what is
known of converted trees and of numbered ones holds of the trees of files.
-/

namespace CondMarkup.Building

open Conversion
open Utf8 (DecodeError)

/-- The step makes the converted node, numbered from the next identity on, for the holder; it fails as the
conversion does. -/
def Makes (step : Build Node) (holder : Option NodeId) (converted : Except DecodeError Node) : Prop :=
  ∀ next, step.run next = converted.map fun n => n.number holder next

/-- The step makes the converted nodes, all for one holder. -/
def MakesAll (step : Build (List Node)) (holder : NodeId)
    (converted : Except DecodeError (List Node)) : Prop :=
  ∀ next, step.run next = converted.map fun ns => Node.numberAll holder next ns

section Steps

variable {holder : Option NodeId} {id : NodeId} {step : Build Node}
  {steps : Build (List Node)} {converted : Except DecodeError Node}
  {rest ns : Except DecodeError (List Node)}

/-- What is made after a stretch of the text was read. -/
theorem makes_lift_bind {α : Type} {x : Except DecodeError α} {f : α → Build Node}
    {g : α → Except DecodeError Node} (h : ∀ a, Makes (f a) holder (g a)) :
    Makes (do f (← x)) holder (do g (← x)) := by
  cases x with
  | error e => exact fun _ => rfl
  | ok a => exact h a

theorem makesAll_lift_bind {α : Type} {x : Except DecodeError α} {f : α → Build (List Node)}
    {g : α → Except DecodeError (List Node)} (h : ∀ a, MakesAll (f a) id (g a)) :
    MakesAll (do f (← x)) id (do g (← x)) := by
  cases x with
  | error e => exact fun _ => rfl
  | ok a => exact h a

/-- A node takes its identity before its children do. -/
theorem makes_held (holder : Option NodeId) (info : NodeInfo) {children : NodeId → Build (List Node)}
    (h : ∀ id, MakesAll (children id) id ns) :
    Makes (held holder info children) holder (do return Node.fresh info (← ns)) := by
  intro next
  show ((children next).run (next + 1) >>= fun r => _) = _
  rw [h next (next + 1)]
  cases ns <;> rfl

theorem makesAll_nil : MakesAll (return []) id (return []) := fun _ => rfl

theorem MakesAll.append {before : Build (List Node)} (h : MakesAll before id ns)
    (hs : MakesAll steps id rest) :
    MakesAll (do return (← before) ++ (← steps)) id (do return (← ns) ++ (← rest)) := by
  intro next
  show (before.run next >>= fun r => _) = _
  rw [h next]
  cases ns with
  | error e => rfl
  | ok ns =>
    show (steps.run (Node.numberAll id next ns).2 >>= fun r => _) = _
    rw [hs]
    cases rest with
    | error e => rfl
    | ok ms => exact congrArg Except.ok (Node.numberAll_append id ns ms next).symm

theorem Makes.cons (h : Makes step (some id) converted) (hs : MakesAll steps id rest) :
    MakesAll (do return (← step) :: (← steps)) id (do return (← converted) :: (← rest)) := by
  intro next
  show (step.run next >>= fun r => _) = _
  rw [h next]
  cases converted with
  | error e => rfl
  | ok n =>
    show (steps.run (n.number (some id) next).2 >>= fun r => _) = _
    rw [hs]
    cases rest <;> rfl

theorem Makes.single (h : Makes step (some id) converted) :
    MakesAll (do return [← step]) id (do return [← converted]) := by
  simpa using h.cons makesAll_nil

theorem makesAll_mapM {cs : List GrammarNode} {f : GrammarNode → Build Node}
    {g : GrammarNode → Except DecodeError Node} (h : ∀ c ∈ cs, Makes (f c) (some id) (g c)) :
    MakesAll (cs.mapM f) id (cs.mapM g) := by
  induction cs with
  | nil => exact makesAll_nil
  | cons c cs ih =>
    rw [List.mapM_cons, List.mapM_cons]
    exact (h c List.mem_cons_self).cons (ih fun d hd => h d (List.mem_cons_of_mem c hd))

end Steps

section Parts

variable {t : Text} {id : NodeId} {holder : Option NodeId} {n openTag name : GrammarNode}

theorem makes_identifier (n : GrammarNode) :
    Makes (buildIdentifier t id n) (some id) (identifierOf t n) :=
  makes_lift_bind fun _ => makes_held _ _ fun _ => makesAll_nil

theorem makesAll_text (start stop : Nat) :
    MakesAll (buildText t id start stop) id (textBetween t start stop) := by
  rw [buildText, textBetween]
  split
  · refine makesAll_lift_bind fun value => ?_
    exact (makes_held (some id) _ fun _ => makesAll_nil).single
  · exact makesAll_nil

/-- The entries of a body, where each child is made as it is converted. -/
theorem makesAll_entries {f : GrammarNode → Build Node} {g : GrammarNode → Except DecodeError Node}
    {cs : List GrammarNode} (stop : Nat) (h : ∀ c ∈ cs, Makes (f c) (some id) (g c)) : ∀ start,
    MakesAll (buildEntries t id start stop (cs.map fun c => (c, f c))) id
      (bodyEntries t start stop (cs.map fun c => (c, g c))) := by
  induction cs with
  | nil => exact fun start => makesAll_text start stop
  | cons c cs ih =>
    intro start
    have hrest := ih fun d hd => h d (List.mem_cons_of_mem c hd)
    rw [List.map_cons, List.map_cons, buildEntries, bodyEntries]
    split
    · exact hrest start
    · have happend := (makesAll_text (t := t) start c.start).append
        ((h c List.mem_cons_self).cons (hrest c.stop))
      simpa using happend

/-- All that is smaller than a grammar node is made as it is converted. -/
def MakesBelow (t : Text) (n : GrammarNode) : Prop :=
  ∀ c, sizeOf c < sizeOf n → ∀ id, Makes (build t (some id) c) (some id) (convert t false c)

theorem MakesBelow.child (h : MakesBelow t n) {c : GrammarNode} (hc : c ∈ n.children) (id : NodeId) :
    Makes (build t (some id) c) (some id) (convert t false c) :=
  h c (GrammarNode.sizeOf_lt_of_mem_children hc) id

theorem MakesBelow.of_child (h : MakesBelow t n) {c : GrammarNode} (hc : c ∈ n.children) :
    MakesBelow t c :=
  fun d hd => h d (Nat.lt_trans hd (GrammarNode.sizeOf_lt_of_mem_children hc))

theorem MakesBelow.children (h : MakesBelow t n) (id : NodeId) :
    MakesAll (n.children.mapM (build t (some id))) id (n.children.mapM (convert t false)) :=
  makesAll_mapM fun _ hc => h.child hc id

theorem makesAll_tagParts (h : MakesBelow t n) :
    MakesAll (buildTagParts t id n) id (convertTagParts t n) := by
  rw [buildTagParts, convertTagParts]
  simp only [List.mapM_subtype, List.unattach_attach]
  cases n.child? "name" with
  | none => exact makesAll_nil
  | some name =>
    have hattributes : ∀ list, MakesAll
        ((n.childrenIn "attribute").mapM fun a =>
          if a.type = "jsx_expression" then
            held (some list) (infoOf t a .jsxSpreadAttribute) fun spread =>
              a.children.mapM (build t (some spread))
          else build t (some list) a) list
        ((n.childrenIn "attribute").mapM fun a =>
          if a.type = "jsx_expression" then do
            return inPlace t a .jsxSpreadAttribute (← a.children.mapM (convert t false))
          else convert t false a) := by
      intro list
      refine makesAll_mapM fun a ha => ?_
      have hmem := GrammarNode.mem_children_of_mem_childrenIn ha
      split
      · exact makes_held _ _ (h.of_child hmem).children
      · exact h.child hmem list
    have hlist := makes_held (some id) (attributesInfo t name (n.childrenIn "attribute")) hattributes
    have hparts := (makes_identifier (t := t) name).cons hlist.single
    simp only [bind_assoc, pure_bind] at hparts
    exact hparts

theorem convertTagParts_of_nameless (h : n.child? "name" = none) : convertTagParts t n = .ok [] := by
  rw [convertTagParts_eq, tagPartsWith, h]
  rfl

/-- The tags of an element or fragment and the list between them. -/
theorem makesAll_elementParts (closeTag : GrammarNode) (openKind closeKind : Kind)
    (h : MakesBelow t n) (hopen : n.child? "open_tag" = some openTag) :
    MakesAll (do
        let openNode ← held (some id) (infoOf t openTag openKind) fun tag => buildTagParts t tag openTag
        let list ← held (some id) (infoOver t openTag.stop closeTag.start
            { kind := .syntaxList, typeName := "SyntaxList" }) fun list =>
          buildEntries t list openTag.stop closeTag.start
            ((n.childrenWithout ["open_tag", "close_tag"]).map fun c => (c, build t (some list) c))
        let closeNode ← held (some id) (infoOf t closeTag closeKind) fun _ => return []
        return [openNode, list, closeNode]) id
      (do
        let parts ← convertTagParts t openTag
        let entries ← bodyEntries t openTag.stop closeTag.start
          ((n.childrenWithout ["open_tag", "close_tag"]).map fun c => (c, convert t false c))
        return [inPlace t openTag openKind parts, listBetween t openTag closeTag entries,
          inPlace t closeTag closeKind []]) := by
  have hparts := makes_held (some id) (infoOf t openTag openKind) fun tag =>
    makesAll_tagParts (h.of_child (GrammarNode.mem_children_of_child? hopen))
  have hinner : ∀ list, ∀ c ∈ n.childrenWithout ["open_tag", "close_tag"],
      Makes (build t (some list) c) (some list) (convert t false c) := fun list c hc =>
    h.child (GrammarNode.mem_children_of_mem_childrenWithout hc) list
  have hlist := makes_held (some id) (infoOver t openTag.stop closeTag.start
      { kind := .syntaxList, typeName := "SyntaxList" }) fun list =>
    makesAll_entries (t := t) closeTag.start (hinner list) openTag.stop
  have hclose := makes_held (some id) (infoOf t closeTag closeKind) fun _ => makesAll_nil
  have hall := hparts.cons (hlist.cons hclose.single)
  simp only [bind_assoc, pure_bind] at hall
  exact hall

/-! ### The forms of nodes -/

theorem makes_element (h : MakesBelow t n) (htype : isElementType n.type) :
    Makes (build t holder n) holder (convert t holder.isNone n) := by
  rw [build, convert, if_pos htype, if_pos htype]
  simp only [List.mapM_subtype, List.map_subtype, List.unattach_attach]
  cases hopen : n.child? "open_tag" with
  | none => exact makes_held _ _ h.children
  | some openTag =>
    cases n.child? "close_tag" with
    | none => exact makes_held _ _ h.children
    | some closeTag =>
      dsimp only
      cases hname : openTag.child? "name" with
      | none =>
        have hparts := makes_held holder (infoOf t n .jsxFragment) fun id =>
          makesAll_elementParts closeTag .jsxOpeningFragment .jsxClosingFragment h hopen
        rw [convertTagParts_of_nameless hname] at hparts ⊢
        simp only [bind_assoc, pure_bind] at hparts
        exact hparts
      | some name =>
        have hparts := makes_held holder (infoOf t n .jsxElement) fun id =>
          makesAll_elementParts closeTag .jsxOpeningElement .jsxClosingElement h hopen
        simp only [bind_assoc, pure_bind] at hparts
        exact hparts

theorem makes_attribute (h : MakesBelow t n) (htype : n.type = "jsx_attribute") :
    Makes (build t holder n) holder (convert t holder.isNone n) := by
  rw [build, convert]
  simp only [htype, String.reduceEq, or_self, if_false, if_true]
  cases n.namedChildren.head? with
  | none => exact makes_held _ _ fun _ => makesAll_nil
  | some name =>
    have hname := makes_held holder (infoOf t n .jsxAttribute) fun id =>
      (makes_identifier (t := t) name).single
    simp only [bind_assoc, pure_bind] at hname
    cases hlast : n.namedChildren.getLast? with
    | none => exact hname
    | some value =>
      dsimp only
      split
      · have hmem := GrammarNode.mem_children_of_mem_namedChildren (List.mem_of_getLast? hlast)
        have hboth := makes_held holder (infoOf t n .jsxAttribute) fun id =>
          (makes_identifier (t := t) name).cons (h.child hmem id).single
        simp only [bind_assoc, pure_bind] at hboth
        exact hboth
      · exact hname

theorem makes_import (h : MakesBelow t n) (htype : n.type = "import_statement") :
    Makes (build t holder n) holder (convert t holder.isNone n) := by
  rw [build, convert]
  simp only [htype, String.reduceEq, or_self, if_false, if_true, List.mapM_subtype,
    List.unattach_attach]
  intro next
  show ((n.children.mapM (build t (some next))).run (next + 1) >>= fun r => _) = _
  rw [h.children next (next + 1)]
  -- the children come before the text of the module is read
  cases n.children.mapM (convert t false) with
  | error e => rfl
  | ok children =>
    cases n.child? "source" with
    | none => rfl
    | some source =>
      dsimp only
      cases textOf t source <;> rfl

theorem makes_plain (h : MakesBelow t n) (htype : ¬ isSpecialType n.type) :
    Makes (build t holder n) holder (convert t holder.isNone n) := by
  rw [convert_of_plain htype, plainWith, build]
  simp only [not_or] at htype
  simp only [htype, or_self, if_false, List.mapM_subtype, List.unattach_attach]
  refine makes_lift_bind fun value => ?_
  cases holder with
  | none =>
    exact makes_held none { infoOf t n (Kind.ofGrammarType n.type) value with
      start := 0, stop := t.length } h.children
  | some id => exact makes_held (some id) _ h.children

end Parts

/-- A node is made as it is converted, and numbered. -/
theorem makes_build (t : Text) (holder : Option NodeId) (n : GrammarNode) :
    Makes (build t holder n) holder (convert t holder.isNone n) := by
  induction hsize : sizeOf n using Nat.strongRecOn generalizing n holder with
  | _ size ih =>
    have below : MakesBelow t n := fun c hc id => ih _ (hsize ▸ hc) (some id) c rfl
    by_cases htype : isSpecialType n.type
    · rcases htype with htype | htype | htype | htype
      · exact makes_element below htype
      · rw [build, convert]
        simp only [htype, String.reduceEq, or_self, if_false, if_true]
        exact makes_held _ _ fun _ => makesAll_tagParts below
      · exact makes_attribute below htype
      · exact makes_import below htype
    · exact makes_plain below htype

end CondMarkup.Building

namespace CondMarkup

/-- The tree of a parsed text is the converted tree, numbered from zero on. -/
theorem Node.ofGrammar_eq (t : Text) (tree : GrammarTree) : Node.ofGrammar t tree =
    (Conversion.convert t true tree.root).map fun n => (n.number none 0).1 := by
  have hmakes := Building.makes_build t none tree.root 0
  rw [Option.isNone_none] at hmakes
  show Prod.fst <$> (Building.build t none tree.root).run 0 = _
  rw [hmakes]
  cases Conversion.convert t true tree.root <;> rfl

end CondMarkup
