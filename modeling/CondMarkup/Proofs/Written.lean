import CondMarkup.Proofs.Spans

/-!
What holds of the nodes of a parsed tree whether or not the grammar tree is well formed: each starts
somewhere in the text, and the first part of the opening tag of an element is its name as it is
written.
-/

namespace CondMarkup

open Conversion

/-- What a parsed node and its parts say about themselves. -/
structure Written (info : NodeInfo) (parts : List NodeInfo) : Prop where
  started : 0 ≤ info.start
  named : info.kind = .jsxOpeningElement →
    ∃ name rest, parts = name :: rest ∧ name.value.isSome = true

namespace Conversion

/-- The parts that the conversion gives to a node come in a certain order if the node is an opening tag
or an attribute: both start with a name, and an attribute has at most one part more. -/
structure PartsInOrder (info : NodeInfo) (parts : List NodeInfo) : Prop where
  opening : info.kind = .jsxOpeningElement →
    ∃ name rest, parts = name :: rest ∧ name.value.isSome = true
  valued : info.kind = .jsxAttribute → parts = [] ∨
    ∃ name rest, parts = name :: rest ∧ name.kind = .identifier ∧ rest.length ≤ 1

/-- Whether nothing is known of the parts of a node by its kind. -/
def mayHaveAnyParts (k : Kind) : Bool :=
  k ≠ .jsxOpeningElement && k ≠ .jsxAttribute && k ≠ .jsxExpression

theorem partsInOrder_of_kind_ne {info : NodeInfo} (hopening : info.kind ≠ .jsxOpeningElement)
    (hattribute : info.kind ≠ .jsxAttribute) (parts : List NodeInfo) : PartsInOrder info parts :=
  ⟨fun hkind => absurd hkind hopening, fun hkind => absurd hkind hattribute⟩

theorem ofGrammarType_ne_of_not_special {type : String} (h : ¬ isSpecialType type) :
    Kind.ofGrammarType type ≠ .jsxOpeningElement ∧ Kind.ofGrammarType type ≠ .jsxAttribute := by
  unfold Kind.ofGrammarType
  split
  case h_4 => exact absurd (Or.inr (Or.inr (Or.inl rfl))) h
  all_goals exact ⟨by decide, by decide⟩

section Everywhere

variable {t : Text} {P : NodeInfo → List NodeInfo → Prop}
  (hP : ∀ info parts (start stop : Nat), info.kind ≠ .jsxExpression → PartsInOrder info parts →
    P { info with start := charPosition t start, stop := charPosition t stop } parts)
  {start stop : Nat} {info : NodeInfo} {children : List Node}
include hP

theorem everywhere_of_partsInOrder (hkind : info.kind ≠ .jsxExpression)
    (hparts : PartsInOrder info (children.map Node.info))
    (hchildren : ∀ c ∈ children, c.Everywhere P) :
    (spanned t start stop info children).Everywhere P := by
  rw [Node.everywhere_iff]
  exact ⟨hP info _ start stop hkind hparts, hchildren⟩

theorem everywhere_of_anyParts (hkind : mayHaveAnyParts info.kind = true)
    (hchildren : ∀ c ∈ children, c.Everywhere P) :
    (spanned t start stop info children).Everywhere P := by
  simp only [mayHaveAnyParts, Bool.and_eq_true, decide_eq_true_eq] at hkind
  exact everywhere_of_partsInOrder hP hkind.2 (partsInOrder_of_kind_ne hkind.1.1 hkind.1.2 _)
    hchildren

theorem everywhere_leaf (hkind : mayHaveAnyParts info.kind = true) :
    (spanned t start stop info []).Everywhere P :=
  everywhere_of_anyParts hP hkind fun _ hc => absurd hc List.not_mem_nil

theorem everywhere_tagParts {tag name : GrammarNode} {value : String}
    {attributes : List (GrammarNode × Node)} (h : ∀ p ∈ attributes, p.2.Everywhere P) :
    ∀ c ∈ tagParts t tag name value (attributes.map Prod.snd), c.Everywhere P := by
  intro c hc
  rw [tagParts, List.mem_cons, List.mem_singleton] at hc
  rcases hc with rfl | rfl
  · exact everywhere_leaf hP rfl
  · refine everywhere_of_anyParts hP rfl fun c hc => ?_
    obtain ⟨p, hp, rfl⟩ := List.mem_map.mp hc
    exact h p hp

theorem everywhere_listBetween {openTag closeTag : GrammarNode} {entries : List Node}
    {solid : List (GrammarNode × Node)}
    (hentries : bodyEntries t openTag.stop closeTag.start (solid.map fun p => (p.1, .ok p.2)) =
      .ok entries)
    (h : ∀ p ∈ solid, p.2.Everywhere P) :
    (listBetween t openTag closeTag entries).Everywhere P := by
  refine everywhere_of_anyParts hP rfl fun c hc => ?_
  rcases mem_bodyEntries hentries hc with ⟨a, b, v, rfl⟩ | hc
  · exact everywhere_leaf hP rfl
  · obtain ⟨p, hp, rfl⟩ := List.mem_map.mp hc
    exact h p hp

/-- A node with three parts. -/
theorem everywhere_three {g : GrammarNode} {k : Kind} {a b c : Node} (hkind : mayHaveAnyParts k = true)
    (ha : a.Everywhere P) (hb : b.Everywhere P) (hc : c.Everywhere P) :
    (inPlace t g k [a, b, c]).Everywhere P := by
  refine everywhere_of_anyParts hP hkind fun d hd => ?_
  simp only [List.mem_cons, List.not_mem_nil, or_false] at hd
  rcases hd with rfl | rfl | rfl
  · exact ha
  · exact hb
  · exact hc

/-- A condition holds everywhere in a converted tree if it holds of every node whose parts are in order
and that is no expression, and of every node that keeps its children, by what is known of the grammar
nodes. -/
theorem Converts.everywhere {Q : GrammarNode → Prop} (hQ : ∀ g, Q g → ∀ c ∈ g.children, Q c)
    (hplain : ∀ (g : GrammarNode) (children : List (GrammarNode × Node)) (value : Option String), Q g →
      ¬ isSpecialType g.type → children.map Prod.fst = g.children →
      (∀ p ∈ children, Converts t false p.1 p.2) →
        P (inPlace t g (Kind.ofGrammarType g.type) (children.map Prod.snd) value).info
          ((children.map Prod.snd).map Node.info))
    {inTag : Bool} {g : GrammarNode} {n : Node} (h : Converts t inTag g n) :
    Q g → n.Everywhere P := by
  have hbelow : ∀ {g : GrammarNode} {ps : List (GrammarNode × Node)} {cs : List GrammarNode}, Q g →
      ps.map Prod.fst = cs → (∀ c ∈ cs, c ∈ g.children) → (∀ p ∈ ps, Q p.1 → p.2.Everywhere P) →
      ∀ p ∈ ps, p.2.Everywhere P := by
    intro g ps cs hg hfst hcs ih p hp
    exact ih p hp (hQ g hg p.1 (hcs p.1 (hfst ▸ List.mem_map_of_mem hp)))
  have hsnd : ∀ {ps : List (GrammarNode × Node)}, (∀ p ∈ ps, p.2.Everywhere P) →
      ∀ c ∈ ps.map Prod.snd, c.Everywhere P := by
    intro ps hps c hc
    obtain ⟨p, hp, rfl⟩ := List.mem_map.mp hc
    exact hps p hp
  have hsolidMem : ∀ {g : GrammarNode}, ∀ c ∈ solidChildren g, c ∈ g.children := fun c hc =>
    GrammarNode.mem_children_of_mem_childrenWithout (List.mem_of_mem_filter hc)
  -- only the rules for elements and attributes make nodes whose parts come in an order
  induction h with
  | @element g openTag _ _ _ _ _ _ _ hopen _ _ hattributes _ hsolid _ hentries ihA ihS =>
    intro hg
    have htag := hQ g hg openTag (GrammarNode.mem_children_of_child? hopen)
    refine everywhere_three hP rfl ?_
      (everywhere_listBetween hP hentries (hbelow hg hsolid hsolidMem ihS)) (everywhere_leaf hP rfl)
    exact everywhere_of_partsInOrder hP (by simp) ⟨fun _ => ⟨_, _, rfl, rfl⟩, (fun h => by cases h)⟩
      (everywhere_tagParts hP (hbelow htag hattributes
        (fun _ => GrammarNode.mem_children_of_mem_childrenIn) ihA))
  | fragment _ _ _ _ hsolid _ hentries ihS =>
    intro hg
    exact everywhere_three hP rfl (everywhere_leaf hP rfl)
      (everywhere_listBetween hP hentries (hbelow hg hsolid hsolidMem ihS)) (everywhere_leaf hP rfl)
  | unterminated _ _ hchildren _ ih =>
    intro hg
    exact everywhere_of_anyParts hP rfl (hsnd (hbelow hg hchildren (fun _ hc => hc) ih))
  | selfClosing _ _ hattributes _ ih =>
    intro hg
    exact everywhere_of_anyParts hP rfl (everywhere_tagParts hP (hbelow hg hattributes
      (fun _ => GrammarNode.mem_children_of_mem_childrenIn) ih))
  | selfClosingNameless => exact fun _ => everywhere_leaf hP rfl
  | attributeNameless =>
    intro _
    exact everywhere_of_partsInOrder hP (by simp) ⟨(fun h => by cases h), fun _ => Or.inl rfl⟩
      fun _ hc => absurd hc List.not_mem_nil
  | attributeName =>
    intro _
    refine everywhere_of_partsInOrder hP (by simp)
      ⟨(fun h => by cases h), fun _ => Or.inr ⟨_, _, rfl, rfl, Nat.zero_le 1⟩⟩ fun c hc => ?_
    rw [List.mem_singleton] at hc
    subst hc
    exact everywhere_leaf hP rfl
  | @attributeValued g name last between _ _ _ hnamed _ ih =>
    intro hg
    have hlast : last ∈ g.namedChildren := by
      rw [hnamed]
      simp
    refine everywhere_of_partsInOrder hP (by simp)
      ⟨(fun h => by cases h), fun _ => Or.inr ⟨_, _, rfl, rfl, Nat.le_refl 1⟩⟩ fun c hc => ?_
    rw [List.mem_cons, List.mem_singleton] at hc
    rcases hc with rfl | rfl
    · exact everywhere_leaf hP rfl
    · exact ih (hQ g hg last (GrammarNode.mem_children_of_mem_namedChildren hlast))
  | importStatement _ hchildren _ ih =>
    intro hg
    exact everywhere_of_anyParts hP rfl (hsnd (hbelow hg hchildren (fun _ hc => hc) ih))
  | @plain g children value htype hchildren hconverted ih =>
    intro hg
    rw [Node.everywhere_iff]
    exact ⟨hplain g children value hg htype hchildren hconverted,
      hsnd (hbelow hg hchildren (fun _ hc => hc) ih)⟩
  | spread _ hchildren _ ih =>
    intro hg
    exact everywhere_of_anyParts hP rfl (hsnd (hbelow hg hchildren (fun _ hc => hc) ih))
  | inTag _ _ ih => exact ih

end Everywhere

end Conversion

/-- What holds of every node whose parts are in order, wherever the node lies, holds everywhere in the
tree of a parsed file. -/
theorem SourceFile.everywhere {P : NodeInfo → List NodeInfo → Prop}
    (hP : ∀ info parts (start stop : Int), 0 ≤ start → PartsInOrder info parts →
      P { info with start, stop } parts)
    {name : String} {text : Text} {tree : GrammarTree} {file : SourceFile}
    (h : ofGrammar name text tree = .ok file) : file.root.Everywhere P := by
  have heverywhere : ∀ {P : NodeInfo → List NodeInfo → Prop} {m : Node},
      (∀ info parts (start stop : Nat), PartsInOrder info parts →
        P { info with start := charPosition text start, stop := charPosition text stop } parts) →
      Converts text false tree.root m → m.Everywhere P := by
    intro P m hP hm
    refine hm.everywhere (fun info parts start stop _ => hP info parts start stop)
      (Q := fun _ => True) (fun _ _ _ _ => trivial) (fun g children value _ htype _ _ => ?_) trivial
    obtain ⟨hopening, hattribute⟩ := ofGrammarType_ne_of_not_special htype
    exact hP _ _ g.start g.stop (partsInOrder_of_kind_ne hopening hattribute _)
  have hplaced : ∀ info parts (start stop : Nat), PartsInOrder info parts →
      P { info with start := charPosition text start, stop := charPosition text stop } parts :=
    fun info parts start stop => hP info parts _ _ (charPosition_nonneg text start)
  obtain ⟨n, hn, rfl⟩ := ofGrammar_eq_ok h
  obtain ⟨m, hm, ⟨_, rfl⟩ | ⟨_, rfl⟩⟩ := convert_root hn
  · exact (heverywhere hplaced hm).number none 0
  · -- the root says where it starts and stops for itself
    have horder : m.Everywhere PartsInOrder :=
      heverywhere (fun _ _ _ _ h => ⟨h.opening, h.valued⟩) hm
    have hwhole := heverywhere hplaced hm
    rw [Node.everywhere_iff] at horder hwhole
    refine Node.Everywhere.number ?_ none 0
    rw [Node.everywhere_iff]
    exact ⟨hP m.info _ 0 text.length (Int.le_refl 0) horder.1, hwhole.2⟩

theorem SourceFile.written {name : String} {text : Text} {tree : GrammarTree} {file : SourceFile}
    (h : ofGrammar name text tree = .ok file) : file.root.Everywhere Written :=
  everywhere (fun _ _ _ _ hstart hparts => ⟨hstart, hparts.opening⟩) h

end CondMarkup
