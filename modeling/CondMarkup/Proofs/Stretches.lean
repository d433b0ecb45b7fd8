import CondMarkup.Proofs.Bodies

/-!
The stretches of a text that the nodes of its tree stand over. In a well-formed grammar tree that is cut
between characters, a converted node stands over a grammar node, and the characters that it spans are those
that the bytes of the grammar node are read as. Three things stand over no grammar node: the list of the
attributes of a tag, the list between two tags, and the texts in such a list. They lie in order within the
node around them like all others, so that every node is a stretch of the text within that of its parent.
-/

namespace CondMarkup

open Conversion

namespace Conversion

/-- The node has the name and the place of the grammar node, and spans the characters that the bytes of
the grammar node are read as. -/
structure StandsOver (t : Text) (g : GrammarNode) (n : Node) : Prop where
  typeName_eq : n.typeName = g.type
  named_eq : n.info.named = g.named
  span_eq : n.span = place t g
  slice_eq : sliceBytes t g.start g.stop = .ok (window t n.info.start n.info.stop)

/-- The tree of a node that stands over one of the grammar nodes, with all below it. A list belongs to the
node around it, so its entries stand over the same grammar nodes as the other parts of that node; the texts
in the list of a body stand over none, and have no parts. -/
inductive ReadFrom (t : Text) : List GrammarNode → Node → Prop
  | node {gs : List GrammarNode} {g : GrammarNode} {n : Node} (hg : g ∈ gs) (stands : StandsOver t g n)
      (below : ∀ c ∈ n.children, ReadFrom t g.children c) : ReadFrom t gs n
  | attributes {gs : List GrammarNode} {n : Node} (kind_eq : n.kind = .jsxAttributes)
      (below : ∀ c ∈ n.children, ReadFrom t gs c) : ReadFrom t gs n
  | body {gs : List GrammarNode} {n : Node} (kind_eq : n.kind = .syntaxList)
      (texts : ∀ c ∈ n.children, c.kind = .jsxText → c.children = [])
      (below : ∀ c ∈ n.children, c.kind ≠ .jsxText → ReadFrom t gs c) : ReadFrom t gs n

variable {t : Text} {g : GrammarNode} {gs : List GrammarNode}

/-! ### Converted nodes -/

theorem standsOver_inPlace (hg : g.Cut t) (kind : Kind) (children : List Node)
    (value : Option String) : StandsOver t g (inPlace t g kind children value) :=
  ⟨rfl, rfl, rfl, textOf_eq hg⟩

theorem readFrom_leaf (hmem : g ∈ gs) (hg : g.Cut t) (kind : Kind) (value : Option String) :
    ReadFrom t gs (inPlace t g kind [] value) :=
  .node hmem (standsOver_inPlace hg kind [] value) fun _ hc => absurd hc List.not_mem_nil

theorem Converts.standsOver {inTag : Bool} {n : Node} (h : Converts t inTag g n) (hg : g.Cut t) :
    StandsOver t g n := by
  induction h with
  | inTag _ _ ih => exact ih hg
  | _ => exact standsOver_inPlace hg _ _ _

section Parts

variable {ps : List (GrammarNode × Node)} {inTag : Bool}
  (hps : ∀ p ∈ ps, Converts t inTag p.1 p.2)
  (ih : ∀ p ∈ ps, p.1.Cut t → ∀ c ∈ p.2.children, ReadFrom t p.1.children c)
include hps ih

/-- Children of a grammar node, each with what it becomes. -/
theorem readFrom_of_pairs {cs : List GrammarNode} (hg : g.Cut t) (hfst : ps.map Prod.fst = cs)
    (hcs : ∀ c ∈ cs, c ∈ g.children) : ∀ p ∈ ps, ReadFrom t g.children p.2 := by
  intro p hp
  have hmem : p.1 ∈ g.children := hcs p.1 (hfst ▸ List.mem_map_of_mem hp)
  have hcut := hg.of_mem_children hmem
  exact .node hmem ((hps p hp).standsOver hcut) (ih p hp hcut)

theorem readFrom_kept {n : Node} (hg : g.Cut t) (hfst : ps.map Prod.fst = g.children)
    (hn : n ∈ ps.map Prod.snd) : ReadFrom t g.children n := by
  obtain ⟨p, hp, rfl⟩ := List.mem_map.mp hn
  exact readFrom_of_pairs hps ih hg hfst (fun _ hc => hc) p hp

/-- The name of a tag, and the list of its attributes. -/
theorem readFrom_tagParts {name : GrammarNode} {written : String} {n : Node} (hg : g.Cut t)
    (hname : g.child? "name" = some name) (hfst : ps.map Prod.fst = g.childrenIn "attribute")
    (hn : n ∈ tagParts t g name written (ps.map Prod.snd)) : ReadFrom t g.children n := by
  rw [tagParts, List.mem_cons, List.mem_singleton] at hn
  rcases hn with rfl | rfl
  · exact readFrom_leaf (GrammarNode.mem_children_of_child? hname) (hg.of_child? hname) _ _
  · refine .attributes rfl fun c hc => ?_
    obtain ⟨p, hp, rfl⟩ := List.mem_map.mp hc
    exact readFrom_of_pairs hps ih hg hfst (fun _ => GrammarNode.mem_children_of_mem_childrenIn) p hp

end Parts

/-- The list between two tags. -/
theorem readFrom_listBetween {solid : List (GrammarNode × Node)} {openTag closeTag : GrammarNode}
    {entries : List Node} (hg : g.Cut t) (hfst : solid.map Prod.fst = solidChildren g)
    (hsolid : ∀ p ∈ solid, Converts t false p.1 p.2)
    (ih : ∀ p ∈ solid, p.1.Cut t → ∀ c ∈ p.2.children, ReadFrom t p.1.children c)
    (hentries : bodyEntries t openTag.stop closeTag.start (solid.map fun p => (p.1, .ok p.2)) =
      .ok entries) :
    ReadFrom t g.children (listBetween t openTag closeTag entries) := by
  refine .body rfl (fun c hc hkind => ?_) fun c hc hkind => ?_
  · rcases mem_bodyEntries hentries hc with ⟨a, b, v, rfl⟩ | hc
    · rfl
    · -- what the other children become is never a text
      obtain ⟨p, hp, rfl⟩ := List.mem_map.mp hc
      have hmem : p.1 ∈ solidChildren g := hfst ▸ List.mem_map_of_mem hp
      have htype := (List.mem_filter.mp hmem).2
      exact absurd hkind ((hsolid p hp).kind_ne_jsxText (by simpa using htype))
  · rcases mem_bodyEntries hentries hc with ⟨a, b, v, rfl⟩ | hc
    · exact absurd rfl hkind
    · obtain ⟨p, hp, rfl⟩ := List.mem_map.mp hc
      exact readFrom_of_pairs hsolid ih hg hfst (fun _ h =>
        GrammarNode.mem_children_of_mem_childrenWithout (List.mem_of_mem_filter h)) p hp

/-- An element or fragment with both tags. -/
theorem readFrom_threeParts {openTag closeTag : GrammarNode} {openKind closeKind : Kind}
    {openParts : List Node} {list n : Node} (hg : g.Cut t)
    (hopen : g.child? "open_tag" = some openTag) (hclose : g.child? "close_tag" = some closeTag)
    (hparts : ∀ c ∈ openParts, ReadFrom t openTag.children c) (hlist : ReadFrom t g.children list)
    (hn : n ∈ [inPlace t openTag openKind openParts, list, inPlace t closeTag closeKind []]) :
    ReadFrom t g.children n := by
  simp only [List.mem_cons, List.not_mem_nil, or_false] at hn
  rcases hn with rfl | rfl | rfl
  · exact .node (GrammarNode.mem_children_of_child? hopen)
      (standsOver_inPlace (hg.of_child? hopen) _ _ _) hparts
  · exact hlist
  · exact readFrom_leaf (GrammarNode.mem_children_of_child? hclose) (hg.of_child? hclose) _ _

/-- The parts of a converted node are read from the children of the grammar node. -/
theorem Converts.readFrom_children {inTag : Bool} {n : Node} (h : Converts t inTag g n) :
    g.Cut t → ∀ c ∈ n.children, ReadFrom t g.children c := by
  -- a tag reads its own children, a body passes its entries on, and all else keeps its children
  induction h with
  | element _ hopen hclose hname hattributes hconverted hsolid hparts hentries ihAttributes ihSolid =>
    intro hg c hc
    refine readFrom_threeParts hg hopen hclose (fun d hd => ?_)
      (readFrom_listBetween hg hsolid hparts ihSolid hentries) hc
    exact readFrom_tagParts hconverted ihAttributes (hg.of_child? hopen) hname hattributes hd
  | fragment _ hopen hclose _ hsolid hparts hentries ihSolid =>
    intro hg c hc
    exact readFrom_threeParts hg hopen hclose (fun d hd => absurd hd List.not_mem_nil)
      (readFrom_listBetween hg hsolid hparts ihSolid hentries) hc
  | unterminated _ _ hchildren hparts ih =>
    exact fun hg c hc => readFrom_kept hparts ih hg hchildren hc
  | selfClosing _ hname hattributes hconverted ih =>
    exact fun hg c hc => readFrom_tagParts hconverted ih hg hname hattributes hc
  | selfClosingNameless => exact fun _ c hc => absurd hc List.not_mem_nil
  | attributeNameless => exact fun _ c hc => absurd hc List.not_mem_nil
  | attributeName _ hnamed =>
    intro hg c hc
    have hname := GrammarNode.mem_children_of_mem_namedChildren (hnamed ▸ List.mem_cons_self)
    rw [children_inPlace, List.mem_singleton] at hc
    subst hc
    exact readFrom_leaf hname (hg.of_mem_children hname) _ _
  | attributeValued _ hnamed hvalue ih =>
    intro hg c hc
    have hname := GrammarNode.mem_children_of_mem_namedChildren (hnamed ▸ List.mem_cons_self)
    have hlast := GrammarNode.mem_children_of_mem_namedChildren (hnamed ▸ List.mem_cons_of_mem _
      (List.mem_append_right _ List.mem_cons_self))
    rw [children_inPlace, List.mem_cons, List.mem_singleton] at hc
    rcases hc with rfl | rfl
    · exact readFrom_leaf hname (hg.of_mem_children hname) _ _
    · have hcut := hg.of_mem_children hlast
      exact .node hlast (hvalue.standsOver hcut) (ih hcut)
  | importStatement _ hchildren hparts ih =>
    exact fun hg c hc => readFrom_kept hparts ih hg hchildren hc
  | plain _ hchildren hparts ih => exact fun hg c hc => readFrom_kept hparts ih hg hchildren hc
  | spread _ hchildren hparts ih => exact fun hg c hc => readFrom_kept hparts ih hg hchildren hc
  | inTag _ _ ih => exact ih

/-- The root stands over its grammar node, unless it spans the whole text. -/
theorem readFrom_root {n : Node} (h : convert t true g = .ok n) (hg : g.Cut t) :
    (isSpecialType g.type → StandsOver t g n) ∧ ∀ c ∈ n.children, ReadFrom t g.children c := by
  obtain ⟨m, hm, ⟨_, rfl⟩ | ⟨hplain, rfl⟩⟩ := convert_root h
  · exact ⟨fun _ => hm.standsOver hg, hm.readFrom_children hg⟩
  · exact ⟨fun hspecial => absurd hspecial hplain, hm.readFrom_children hg⟩

/-! ### Trees -/

theorem StandsOver.number {n : Node} (h : StandsOver t g n) (parent : Option NodeId) (next : NodeId) :
    StandsOver t g (n.number parent next).1 := by
  obtain ⟨htype, hnamed, hspan, hslice⟩ := h
  rw [Node.typeName, ← Node.info_number parent next] at htype
  rw [← Node.info_number parent next] at hnamed hslice
  rw [Node.span, ← Node.info_number parent next] at hspan
  exact ⟨htype, hnamed, hspan, hslice⟩

/-- A numbered tree is read from the same grammar nodes. -/
theorem ReadFrom.number {n : Node} (h : ReadFrom t gs n) :
    ∀ parent next, ReadFrom t gs (n.number parent next).1 := by
  induction h with
  | node hg stands _ ih =>
    intro parent next
    refine .node hg (stands.number parent next) fun c hc => ?_
    obtain ⟨d, hd, start, rfl⟩ := Node.exists_of_mem_children_number hc
    exact ih d hd (some next) start
  | attributes hkind _ ih =>
    intro parent next
    refine .attributes ((Node.kind_number parent next _).trans hkind) fun c hc => ?_
    obtain ⟨d, hd, start, rfl⟩ := Node.exists_of_mem_children_number hc
    exact ih d hd (some next) start
  | body hkind htexts _ ih =>
    intro parent next
    refine .body ((Node.kind_number parent next _).trans hkind) (fun c hc htext => ?_)
      fun c hc htext => ?_
    · obtain ⟨d, hd, start, rfl⟩ := Node.exists_of_mem_children_number hc
      rw [Node.kind_number] at htext
      rw [Node.children_number, htexts d hd htext]
      rfl
    · obtain ⟨d, hd, start, rfl⟩ := Node.exists_of_mem_children_number hc
      rw [Node.kind_number] at htext
      exact ih d hd htext (some next) start

end Conversion

/-- Whether a node of a tree is one of those that stand over no grammar node. -/
def Node.IsGatheredIn (n root : Node) : Prop :=
  n.kind = .jsxAttributes ∨ n.kind = .syntaxList ∨
    n.kind = .jsxText ∧ ∃ list ∈ root.preorder, list.kind = .syntaxList ∧ n ∈ list.children

/-- In a tree that is read from grammar nodes, lists and their texts are all that stands over none. -/
theorem Conversion.ReadFrom.isGatheredIn_or {t : Text} {gs : List GrammarNode} {n root : Node}
    {top : GrammarNode} (h : ReadFrom t gs n) (hgs : ∀ g ∈ gs, g.Within top)
    (hn : n ∈ root.preorder) :
    ∀ m ∈ n.preorder, m.IsGatheredIn root ∨ ∃ g, g.Within top ∧ StandsOver t g m := by
  induction h with
  | @node gs g n hg stands _ ih =>
    intro m hm
    rcases Node.mem_preorder_iff.mp hm with rfl | ⟨c, hc, hmc⟩
    · exact Or.inr ⟨g, hgs g hg, stands⟩
    · exact ih c hc (fun k hk => (hgs g hg).of_mem_children hk) (Node.child_mem_preorder hc hn) m hmc
  | attributes hkind _ ih =>
    intro m hm
    rcases Node.mem_preorder_iff.mp hm with rfl | ⟨c, hc, hmc⟩
    · exact Or.inl (Or.inl hkind)
    · exact ih c hc hgs (Node.child_mem_preorder hc hn) m hmc
  | @body gs n hkind htexts _ ih =>
    intro m hm
    rcases Node.mem_preorder_iff.mp hm with rfl | ⟨c, hc, hmc⟩
    · exact Or.inl (Or.inr (Or.inl hkind))
    by_cases htext : c.kind = .jsxText
    · -- a text has no parts, so it is the only node of its tree
      rw [Node.preorder_eq, htexts c hc htext, List.flatMap_nil, List.mem_singleton] at hmc
      subst hmc
      exact Or.inl (Or.inr (Or.inr ⟨htext, n, hn, hkind, hc⟩))
    · exact ih c hc htext hgs (Node.child_mem_preorder hc hn) m hmc

/-- The stretches of the nodes of a parsed text. Every node is a stretch of the text within that of its
parent, and children follow one another. The root spans the text, or stands over its grammar node if that
is one whose parts are rearranged. Every other node stands over a grammar node, except lists and the texts
in them. By `readFrom` it is a child of the grammar node that the node above stands over. -/
structure KeepsStretches (text : Text) (g : GrammarNode) (root : Node) : Prop where
  bounds : ∀ n ∈ root.preorder,
    0 ≤ n.info.start ∧ n.info.start ≤ n.info.stop ∧ n.info.stop ≤ text.length
  within : ∀ n ∈ root.preorder, ∀ c ∈ n.children,
    n.info.start ≤ c.info.start ∧ c.info.stop ≤ n.info.stop
  apart : ∀ n ∈ root.preorder, n.children.Pairwise fun a b => a.info.stop ≤ b.info.start
  at_root : if isSpecialType g.type then StandsOver text g root else root.span = (0, (text.length : Int))
  standsOver : ∀ n ∈ root.preorder, n ≠ root →
    n.IsGatheredIn root ∨ ∃ h, h.Within g ∧ StandsOver text h n
  readFrom : ∀ c ∈ root.children, ReadFrom text g.children c

/-- A parsed tree is read from its grammar tree. -/
theorem SourceFile.readFrom {name : String} {text : Text} {tree : GrammarTree} {file : SourceFile}
    (h : ofGrammar name text tree = .ok file) (hcut : tree.root.Cut text) :
    (isSpecialType tree.root.type → StandsOver text tree.root file.root) ∧
      ∀ c ∈ file.root.children, ReadFrom text tree.root.children c := by
  obtain ⟨n, hn, rfl⟩ := ofGrammar_eq_ok h
  obtain ⟨hroot, hchildren⟩ := readFrom_root hn hcut
  refine ⟨fun hspecial => (hroot hspecial).number none 0, fun c hc => ?_⟩
  obtain ⟨d, hd, start, rfl⟩ := Node.exists_of_mem_children_number hc
  exact (hchildren d hd).number _ _

/-- A text with a well-formed grammar tree that is cut between its characters is parsed, and its nodes keep
to their stretches. -/
theorem SourceFile.exists_keepsStretches {text : Text} {tree : GrammarTree}
    (hformed : tree.root.WellFormed) (hcut : tree.root.Cut text) (name : String) :
    ∃ file, ofGrammar name text tree = .ok file ∧ KeepsStretches text tree.root file.root := by
  obtain ⟨file, hfile⟩ := exists_ofGrammar_of_cut hcut name
  have hover := hcut.cutAt.stop.le
  have hlaid := laidOut hfile hformed hover
  obtain ⟨hroot, hread⟩ := readFrom hfile hcut
  refine ⟨file, hfile, fun n hn => hlaid.bounds hn, fun n hn c hc => hlaid.within hn hc,
    fun n hn => hlaid.apart hn, ?_, fun n hn hne => ?_, hread⟩
  · have hspan := (spanned_root hfile hformed hover).2
    split
    · rename_i hspecial
      exact hroot hspecial
    · rename_i hplain
      rw [hspan, if_neg hplain]
  · obtain ⟨c, hc, hnc⟩ := (Node.mem_preorder_iff.mp hn).resolve_left hne
    exact (hread c hc).isGatheredIn_or (fun g hg => .child hg (.root g))
      (Node.mem_preorder_of_mem_children hc) n hnc

namespace WidePage

/-- Characters of two bytes in front of an element, in its attribute and in its body. -/
def text : Text := "ä <b c=\"é\">ü<i/></b>".toList

def tree : GrammarTree where
  root := .mk "program" 0 23 true none
    [SmallPage.leaf "identifier" 0 2 none,
      SmallPage.element 3 13 19 23
        [SmallPage.leaf "identifier" 4 5 (some "name"),
          .mk "jsx_attribute" 6 12 true (some "attribute")
            [SmallPage.leaf "property_identifier" 6 7 none, SmallPage.leaf "string" 8 12 none]]
        [SmallPage.leaf "jsx_text" 13 15 none,
          .mk "jsx_self_closing_element" 15 19 true none
            [SmallPage.leaf "identifier" 16 17 (some "name")]]]

theorem wellFormed : tree.root.WellFormed := by
  simp [tree, SmallPage.element, SmallPage.leaf, GrammarNode.wellFormed_mk_iff,
    GrammarNode.orderedAt_iff, GrammarNode.IsTag, GrammarNode.child?, GrammarNode.childrenIn,
    GrammarNode.span, InOrder]

theorem cut : tree.root.Cut text := by
  refine wellFormed.cut_of_within ?_
  simp only [tree, SmallPage.element, SmallPage.leaf, GrammarNode.within_mk_iff, List.mem_cons,
    List.not_mem_nil, List.cons_append, List.nil_append, or_false, false_and, exists_false,
    exists_eq_or_imp, exists_eq_left, or_imp, forall_and, forall_eq, GrammarNode.start,
    GrammarNode.stop]
  decide +kernel

end WidePage

/-- The wide page is well-formed, and no character of it is cut. -/
theorem SourceFile.exists_keepsStretches_widePage :
    WidePage.tree.root.WellFormed ∧ WidePage.tree.root.Cut WidePage.text ∧
      ∃ file, ofGrammar "page.tsx" WidePage.text WidePage.tree = .ok file ∧
        KeepsStretches WidePage.text WidePage.tree.root file.root :=
  ⟨WidePage.wellFormed, WidePage.cut,
    exists_keepsStretches WidePage.wellFormed WidePage.cut "page.tsx"⟩

end CondMarkup
