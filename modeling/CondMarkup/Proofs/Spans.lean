import Mathlib.Tactic.MkIffOfInductiveProp
import CondMarkup.Proofs.Splice
import CondMarkup.Proofs.SourceTree

/-!
Where the nodes of a parsed text stand. In a well-formed grammar tree children lie within their parent
in order, and so do the nodes that they become. The entries of a body even fill it, since the text
between its other children becomes entries too. Nothing is asked of the boundaries of characters: a
byte within a character counts as the character.
-/

namespace CondMarkup

open Conversion

/-! ### Well-formed grammar trees -/

namespace GrammarNode

def span (g : GrammarNode) : Int × Int := (g.start, g.stop)

/-- Whether the node is the tag of an element. -/
def IsTag (g : GrammarNode) : Prop :=
  g.type = "jsx_self_closing_element" ∨ g.field = some "open_tag"

/-- What a well-formed tree keeps to at a node. -/
@[mk_iff]
structure OrderedAt (g : GrammarNode) : Prop where
  children : InOrder g.start g.stop (g.children.map span)
  tags : ∀ openTag closeTag, isElementType g.type → g.child? "open_tag" = some openTag →
    g.child? "close_tag" = some closeTag →
      g.children.head? = some openTag ∧ g.children.getLast? = some closeTag
  name : g.IsTag → ∀ name, g.child? "name" = some name → ∀ a ∈ g.childrenIn "attribute",
    name.stop ≤ a.start

inductive WellFormed : GrammarNode → Prop
  | intro {g : GrammarNode} (ordered : g.OrderedAt) (below : ∀ c ∈ g.children, WellFormed c) :
      WellFormed g

variable {g : GrammarNode}

theorem WellFormed.ordered (h : g.WellFormed) : g.OrderedAt := by
  cases h with
  | intro ordered _ => exact ordered

theorem WellFormed.of_mem_children {c : GrammarNode} (h : g.WellFormed) (hc : c ∈ g.children) :
    c.WellFormed := by
  cases h with
  | intro _ below => exact below c hc

theorem wellFormed_mk_iff {type : String} {start stop : Nat} {named : Bool} {field : Option String}
    {cs : List GrammarNode} : (mk type start stop named field cs).WellFormed ↔
      (mk type start stop named field cs).OrderedAt ∧ ∀ c ∈ cs, c.WellFormed :=
  ⟨fun h => ⟨h.ordered, fun _ => h.of_mem_children⟩, fun h => .intro h.1 h.2⟩

theorem field_of_child? {c : GrammarNode} {field : String} (h : g.child? field = some c) :
    c.field = some field := by
  have hc := List.find?_some h
  exact of_decide_eq_true hc

theorem childrenWithout_sublist (fields : List String) :
    (g.childrenWithout fields).Sublist g.children := by
  have key : ∀ cs : List GrammarNode,
      (fields.foldl (fun cs f => cs.eraseP fun c => c.field = some f) cs).Sublist cs := by
    induction fields with
    | nil => exact fun cs => List.Sublist.refl cs
    | cons f fs ih => exact fun cs => (ih _).trans List.eraseP_sublist
  exact key g.children

theorem exists_between {openTag closeTag : GrammarNode}
    (hends : g.children.head? = some openTag ∧ g.children.getLast? = some closeTag)
    (hopen : g.child? "open_tag" = some openTag) (hclose : g.child? "close_tag" = some closeTag) :
    ∃ between, g.children = openTag :: (between ++ [closeTag]) := by
  obtain ⟨hhead, hlast⟩ := hends
  obtain ⟨rest, hrest⟩ := List.head?_eq_some_iff.mp hhead
  obtain ⟨init, hinit⟩ := List.getLast?_eq_some_iff.mp hlast
  cases init with
  | nil =>
    rw [hrest, List.nil_append, List.cons.injEq] at hinit
    have hfield := field_of_child? hopen
    rw [hinit.1, field_of_child? hclose] at hfield
    exact absurd hfield (by decide)
  | cons first between =>
    rw [hrest, List.cons_append, List.cons.injEq] at hinit
    exact ⟨between, by rw [hrest, hinit.2]⟩

/-- The children of an element besides its tags lie between them. -/
theorem mem_between {openTag closeTag c : GrammarNode} {between : List GrammarNode}
    (hcs : g.children = openTag :: (between ++ [closeTag]))
    (hopen : g.child? "open_tag" = some openTag) (hclose : g.child? "close_tag" = some closeTag)
    (hc : c ∈ g.childrenWithout ["open_tag", "close_tag"]) : c ∈ between := by
  have hopenField := field_of_child? hopen
  have hcloseField := field_of_child? hclose
  have hnot : ¬ openTag.field = some "close_tag" := by
    rw [hopenField]
    decide
  rw [child?, hcs, List.find?_cons_of_neg (by simpa using hnot)] at hclose
  rw [childrenWithout, List.foldl_cons, List.foldl_cons, List.foldl_nil, hcs,
    List.eraseP_cons_of_pos (by simpa using hopenField)] at hc
  by_cases hamong : ∃ m ∈ between, m.field = some "close_tag"
  · -- then the closing tag is found among the children between the tags too
    obtain ⟨m, hm, hfield⟩ := hamong
    have hclose' : closeTag ∈ between := by
      rw [List.find?_append] at hclose
      cases hfind : between.find? fun c => c.field = some "close_tag" with
      | none =>
        have hnone := List.find?_eq_none.mp hfind m hm
        simp [hfield] at hnone
      | some d =>
        rw [hfind, Option.some_or, Option.some.injEq] at hclose
        rw [← hclose]
        exact List.mem_of_find?_eq_some hfind
    rcases List.mem_append.mp (List.mem_of_mem_eraseP hc) with hc | hc
    · exact hc
    · rw [List.mem_singleton] at hc
      rw [hc]
      exact hclose'
  · have hnone : ∀ m ∈ between, ¬ decide (m.field = some "close_tag") = true := by
      intro m hm hfield
      exact hamong ⟨m, hm, of_decide_eq_true hfield⟩
    rw [List.eraseP_append_right _ hnone, List.eraseP_cons_of_pos (by simpa using hcloseField),
      List.append_nil] at hc
    exact hc

/-- An element with its tags at the ends holds its other children between them. -/
theorem inOrder_of_tags {openTag closeTag : GrammarNode}
    (horder : InOrder g.start g.stop (g.children.map span))
    (hends : g.children.head? = some openTag ∧ g.children.getLast? = some closeTag)
    (hopen : g.child? "open_tag" = some openTag) (hclose : g.child? "close_tag" = some closeTag) :
    InOrder g.start g.stop
        [openTag.span, ((openTag.stop : Int), (closeTag.start : Int)), closeTag.span] ∧
      InOrder openTag.stop closeTag.start ((solidChildren g).map span) := by
  obtain ⟨between, hcs⟩ := exists_between hends hopen hclose
  have hall := horder
  rw [hcs] at hall
  obtain ⟨hfirst, hopenSpan, hrest⟩ := hall
  rw [List.map_append] at hrest
  obtain ⟨middle, hinner, hmiddle, hcloseSpan, hlast⟩ := hrest.of_append
  have hinner' := hinner.widen (Int.le_refl _) hmiddle
  refine ⟨⟨hfirst, hopenSpan, Int.le_refl _, hinner'.le, Int.le_refl _, hcloseSpan, hlast⟩, ?_⟩
  refine InOrder.within (horder.sublist (List.Sublist.map _ ?_)) hinner'.le fun p hp => ?_
  · exact List.filter_sublist.trans (childrenWithout_sublist _)
  · obtain ⟨c, hc, rfl⟩ := List.mem_map.mp hp
    have hmem := List.mem_map_of_mem (f := span)
      (mem_between hcs hopen hclose (List.mem_of_mem_filter hc))
    have hc' := hinner'.of_mem hmem
    exact ⟨hc'.1, hc'.2.2⟩

end GrammarNode

/-! ### Positions -/

theorem charsBefore_mono (t : Text) {a b : Nat} (h : a ≤ b) :
    charsBefore t a ≤ charsBefore t b := by
  induction t generalizing a b with
  | nil => exact Nat.le_refl _
  | cons c rest ih =>
    simp only [charsBefore]
    by_cases ha : a < (Utf8.encodeChar c).length
    · rw [if_pos ha]
      exact Nat.zero_le _
    · have hb : ¬ b < (Utf8.encodeChar c).length := by omega
      rw [if_neg ha, if_neg hb]
      exact Nat.succ_le_succ (ih (by omega))

theorem charPosition_mono (t : Text) (a b : Int) (h : a ≤ b) :
    charPosition t a ≤ charPosition t b := by
  unfold charPosition
  by_cases hascii : t.all isAsciiChar = true
  · rw [if_pos hascii, if_pos hascii]
    exact h
  · rw [if_neg hascii, if_neg hascii]
    exact Int.ofNat_le.mpr (charsBefore_mono t (Int.toNat_le_toNat h))

theorem charPosition_nonneg (t : Text) (a : Nat) : 0 ≤ charPosition t a := by
  unfold charPosition
  split
  · exact Int.natCast_nonneg a
  · exact Int.natCast_nonneg _

theorem length_encode_of_ascii {t : Text} (h : t.all isAsciiChar = true) :
    (Utf8.encode t).length = t.length := by
  induction t with
  | nil => rfl
  | cons c rest ih =>
    rw [List.all_cons, Bool.and_eq_true] at h
    have hc : c.toNat < 0x80 := of_decide_eq_true h.1
    have hone : (Utf8.encodeChar c).length = 1 := by
      rw [Utf8.encodeChar]
      simp only [if_pos hc]
      rfl
    rw [Utf8.encode_cons, List.length_append, hone, ih h.2, List.length_cons, Nat.add_comm]

/-- Bytes of the text have their positions within the text. -/
theorem charPosition_le_length {t : Text} {a : Nat} (h : a ≤ (Utf8.encode t).length) :
    charPosition t a ≤ t.length := by
  unfold charPosition
  by_cases hascii : t.all isAsciiChar = true
  · rw [if_pos hascii, ← length_encode_of_ascii hascii]
    exact Int.ofNat_le.mpr h
  · rw [if_neg hascii]
    exact Int.ofNat_le.mpr (charsBefore_le_length t _)

/-! ### Converted trees -/

def NodeInfo.span (info : NodeInfo) : Int × Int := (info.start, info.stop)

/-- The children of a node lie in it in order, and the entries of a body fill it. -/
structure Spanned (info : NodeInfo) (parts : List NodeInfo) : Prop where
  inOrder : InOrder info.start info.stop (parts.map NodeInfo.span)
  tiled : info.kind = .syntaxList → Tiled info.start info.stop (parts.map NodeInfo.span)

def Node.span (n : Node) : Int × Int := n.info.span

theorem Node.map_span_info (cs : List Node) : (cs.map info).map NodeInfo.span = cs.map span := by
  rw [List.map_map]
  rfl

namespace Conversion

variable {t : Text}

/-- Where a grammar node stands in the text, by characters. -/
def place (t : Text) (g : GrammarNode) : Int × Int := (charPosition t g.start, charPosition t g.stop)

theorem inOrder_place {a b : Int} {gs : List GrammarNode}
    (h : InOrder a b (gs.map GrammarNode.span)) :
    InOrder (charPosition t a) (charPosition t b) (gs.map (place t)) := by
  have hplaces := h.map (charPosition_mono t)
  rw [List.map_map] at hplaces
  exact hplaces

/-- The tree of a node that stands in the place of a grammar node. -/
structure StandsFor (t : Text) (g : GrammarNode) (n : Node) : Prop where
  span_eq : n.span = place t g
  spanned : n.Everywhere Spanned

theorem map_span_of_standsFor {ps : List (GrammarNode × Node)}
    (h : ∀ p ∈ ps, StandsFor t p.1 p.2) :
    (ps.map Prod.snd).map Node.span = (ps.map Prod.fst).map (place t) := by
  rw [List.map_map, List.map_map]
  exact List.map_congr_left fun p hp => (h p hp).span_eq

theorem everywhere_spanned {start stop : Nat} {info : NodeInfo} {children : List Node}
    (horder : InOrder (charPosition t start) (charPosition t stop) (children.map Node.span))
    (htiled : info.kind = .syntaxList →
      Tiled (charPosition t start) (charPosition t stop) (children.map Node.span))
    (hchildren : ∀ c ∈ children, c.Everywhere Spanned) :
    (spanned t start stop info children).Everywhere Spanned := by
  rw [Node.everywhere_iff]
  refine ⟨⟨?_, ?_⟩, hchildren⟩
  · show InOrder _ _ ((children.map Node.info).map NodeInfo.span)
    rw [Node.map_span_info]
    exact horder
  · show _ → Tiled _ _ ((children.map Node.info).map NodeInfo.span)
    rw [Node.map_span_info]
    exact htiled

variable {g : GrammarNode} {kind : Kind} {value : Option String}

/-- A node that keeps some of its children. -/
theorem standsFor_of_sublist (ps : List (GrammarNode × Node)) (hg : g.WellFormed)
    (hkind : kind ≠ .syntaxList) (hsub : (ps.map Prod.fst).Sublist g.children)
    (hps : ∀ p ∈ ps, StandsFor t p.1 p.2) :
    StandsFor t g (inPlace t g kind (ps.map Prod.snd) value) := by
  refine ⟨rfl, everywhere_spanned ?_ (fun h => absurd h hkind) fun c hc => ?_⟩
  · rw [map_span_of_standsFor hps]
    exact inOrder_place (hg.ordered.children.sublist (hsub.map GrammarNode.span))
  · obtain ⟨p, hp, rfl⟩ := List.mem_map.mp hc
    exact (hps p hp).spanned

theorem standsFor_leaf (hg : g.WellFormed) (hkind : kind ≠ .syntaxList) :
    StandsFor t g (inPlace t g kind [] value) :=
  standsFor_of_sublist [] hg hkind (List.nil_sublist _) fun _ h => absurd h List.not_mem_nil

theorem standsFor_attributeName {name : GrammarNode} {written : String} (hg : g.WellFormed)
    (hkind : kind ≠ .syntaxList) (hsub : [name].Sublist g.children) :
    StandsFor t g (inPlace t g kind [inPlace t name .identifier [] (some written)] value) := by
  have hname := hg.of_mem_children (hsub.subset (List.mem_singleton_self name))
  refine standsFor_of_sublist [(name, inPlace t name .identifier [] (some written))] hg hkind hsub
    fun p hp => ?_
  rw [List.mem_singleton] at hp
  rw [hp]
  exact standsFor_leaf hname (by decide)

theorem standsFor_attribute {name last : GrammarNode} {written : String} {n : Node}
    (hg : g.WellFormed) (hkind : kind ≠ .syntaxList) (hsub : [name, last].Sublist g.children)
    (hlast : StandsFor t last n) :
    StandsFor t g (inPlace t g kind [inPlace t name .identifier [] (some written), n] value) := by
  have hname := hg.of_mem_children (hsub.subset List.mem_cons_self)
  refine standsFor_of_sublist [(name, inPlace t name .identifier [] (some written)), (last, n)] hg
    hkind hsub fun p hp => ?_
  rcases List.mem_cons.mp hp with rfl | hp
  · exact standsFor_leaf hname (by decide)
  · rw [List.mem_singleton] at hp
    rw [hp]
    exact hlast

/-- The list of the attributes spans them, and is behind the name. -/
theorem inOrder_attributes {start stop : Int} {name : GrammarNode} {attributes : List GrammarNode}
    (h : InOrder start stop (attributes.map GrammarNode.span))
    (hname : ∀ a ∈ attributes, name.stop ≤ a.start) (hstop : (name.stop : Int) ≤ stop) :
    (name.stop : Int) ≤ ((attributes.head?.map GrammarNode.start).getD name.stop : Nat) ∧
      InOrder ((attributes.head?.map GrammarNode.start).getD name.stop : Nat)
        ((attributes.getLast?.map GrammarNode.stop).getD name.stop : Nat)
        (attributes.map GrammarNode.span) ∧
      (((attributes.getLast?.map GrammarNode.stop).getD name.stop : Nat) : Int) ≤ stop := by
  cases attributes with
  | nil => exact ⟨Int.le_refl _, Int.le_refl _, hstop⟩
  | cons first rest =>
    obtain ⟨last, hlast⟩ : ∃ last, (first :: rest).getLast? = some last :=
      ⟨_, List.getLast?_eq_some_getLast (by simp)⟩
    have hfirst : ((first :: rest).map GrammarNode.span).head? = some first.span := rfl
    have hlastSpan : ((first :: rest).map GrammarNode.span).getLast? = some last.span := by
      rw [List.getLast?_map, hlast, Option.map_some]
    have hmem := List.mem_map_of_mem (f := GrammarNode.span) (List.mem_of_getLast? hlast)
    rw [hlast]
    exact ⟨Int.ofNat_le.mpr (hname first List.mem_cons_self), h.tighten hfirst hlastSpan,
      (h.of_mem hmem).2.2⟩

/-- A tag with a name. -/
theorem standsFor_tag {name : GrammarNode} {written : String}
    {attributes : List (GrammarNode × Node)} (hg : g.WellFormed) (htag : g.IsTag)
    (hkind : kind ≠ .syntaxList) (hname : g.child? "name" = some name)
    (hattributes : attributes.map Prod.fst = g.childrenIn "attribute")
    (hconverted : ∀ p ∈ attributes, StandsFor t p.1 p.2) :
    StandsFor t g (inPlace t g kind (tagParts t g name written (attributes.map Prod.snd)) value) := by
  have hnameMem := GrammarNode.mem_children_of_child? hname
  have hnameSpan := hg.ordered.children.of_mem (List.mem_map_of_mem hnameMem)
  obtain ⟨hbefore, hlist, hafter⟩ := inOrder_attributes
    (hg.ordered.children.sublist ((List.filter_sublist).map GrammarNode.span))
    (hg.ordered.name htag name hname) hnameSpan.2.2
  have hpos := charPosition_mono t
  have horder := inOrder_place (t := t) hlist
  rw [← GrammarNode.childrenIn, ← hattributes, ← map_span_of_standsFor hconverted] at horder
  refine ⟨rfl, everywhere_spanned ?_ (fun h => absurd h hkind) fun c hc => ?_⟩
  · refine ⟨hpos _ _ hnameSpan.1, hpos _ _ hnameSpan.2.1, hpos _ _ hbefore, ?_, hpos _ _ hafter⟩
    exact hpos _ _ hlist.le
  · rw [tagParts, List.mem_cons, List.mem_singleton] at hc
    rcases hc with rfl | rfl
    · exact (standsFor_leaf (hg.of_mem_children hnameMem) (by decide)).spanned
    · refine everywhere_spanned ?_ (fun h => by cases h) fun c hc => ?_
      · rw [← hattributes]
        exact horder
      · obtain ⟨p, hp, rfl⟩ := List.mem_map.mp hc
        exact (hconverted p hp).spanned

theorem tiled_textBetween {start stop : Nat} {entries : List Node} (hle : start ≤ stop)
    (h : textBetween t start stop = .ok entries) :
    Tiled (charPosition t start) (charPosition t stop) (entries.map Node.span) := by
  rw [textBetween] at h
  by_cases hlt : start < stop
  · rw [if_pos hlt] at h
    obtain ⟨value, _, h⟩ := bind_eq_ok_iff.mp h
    rw [pure_eq_ok_iff] at h
    subst h
    exact ⟨rfl, charPosition_mono t start stop (Int.ofNat_le.mpr hle), rfl⟩
  · rw [if_neg hlt, pure_eq_ok_iff] at h
    subst h
    obtain rfl : start = stop := by omega
    exact rfl

/-- What is between two tags fills the space between them. -/
theorem tiled_bodyEntries {stop : Nat} {solid : List (GrammarNode × Node)} {start : Nat}
    {entries : List Node}
    (h : bodyEntries t start stop (solid.map fun p => (p.1, .ok p.2)) = .ok entries)
    (horder : InOrder start stop ((solid.map Prod.fst).map GrammarNode.span))
    (hsolid : ∀ p ∈ solid, p.2.span = place t p.1) :
    Tiled (charPosition t start) (charPosition t stop) (entries.map Node.span) := by
  induction solid generalizing start entries with
  | nil => exact tiled_textBetween (Int.ofNat_le.mp horder) h
  | cons p rest ih =>
    obtain ⟨hstart, hspan, hrest⟩ := horder
    obtain ⟨hp, hrestSolid⟩ := List.forall_mem_cons.mp hsolid
    rw [List.map_cons, bodyEntries] at h
    by_cases htext : isTextLike p.1.type = true
    · -- the text between is read from the source, so it starts before the child left out
      rw [if_pos htext] at h
      exact ih h (hrest.widen (Int.le_trans hstart hspan) (Int.le_refl _)) hrestSolid
    · rw [if_neg htext] at h
      obtain ⟨text, htextBetween, h⟩ := bind_eq_ok_iff.mp h
      obtain ⟨node, hnode, h⟩ := bind_eq_ok_iff.mp h
      obtain ⟨others, hothers, h⟩ := bind_eq_ok_iff.mp h
      rw [pure_eq_ok_iff] at h
      rw [Except.ok.injEq] at hnode
      subst h hnode
      have hfirst : Tiled (charPosition t p.1.start) (charPosition t stop)
          ((p.2 :: others).map Node.span) := by
        rw [List.map_cons, hp]
        exact ⟨rfl, charPosition_mono t _ _ hspan, ih hothers hrest hrestSolid⟩
      rw [List.map_append]
      exact (tiled_textBetween (Int.ofNat_le.mp hstart) htextBetween).append hfirst

/-- The entries of a body lie in order in their own places too. -/
theorem everywhere_bodyEntries {stop : Nat} {solid : List (GrammarNode × Node)} {start : Nat}
    {entries : List Node}
    (h : bodyEntries t start stop (solid.map fun p => (p.1, .ok p.2)) = .ok entries)
    (htiled : Tiled (charPosition t start) (charPosition t stop) (entries.map Node.span))
    (hsolid : ∀ p ∈ solid, StandsFor t p.1 p.2) : ∀ e ∈ entries, e.Everywhere Spanned := by
  intro e he
  rcases mem_bodyEntries h he with ⟨a, b, v, rfl⟩ | he'
  · have hspan := htiled.inOrder.of_mem (List.mem_map_of_mem he)
    exact everywhere_spanned hspan.2.1 (fun h => by cases h) fun c hc => absurd hc List.not_mem_nil
  · obtain ⟨p, hp, rfl⟩ := List.mem_map.mp he'
    exact (hsolid p hp).spanned

/-- An element or fragment with both tags. -/
theorem standsFor_element {openTag closeTag : GrammarNode} {openNode : Node} {closeKind : Kind}
    {solid : List (GrammarNode × Node)} {entries : List Node} (hg : g.WellFormed)
    (htype : isElementType g.type) (hkind : kind ≠ .syntaxList)
    (hcloseKind : closeKind ≠ .syntaxList) (hopen : g.child? "open_tag" = some openTag)
    (hclose : g.child? "close_tag" = some closeTag) (hopenNode : StandsFor t openTag openNode)
    (hsolid : solid.map Prod.fst = solidChildren g) (hparts : ∀ p ∈ solid, StandsFor t p.1 p.2)
    (hentries : bodyEntries t openTag.stop closeTag.start (solid.map fun p => (p.1, .ok p.2)) =
      .ok entries) :
    StandsFor t g (inPlace t g kind
      [openNode, listBetween t openTag closeTag entries, inPlace t closeTag closeKind []] value) := by
  obtain ⟨htags, hinner⟩ := GrammarNode.inOrder_of_tags hg.ordered.children
    (hg.ordered.tags openTag closeTag htype hopen hclose) hopen hclose
  obtain ⟨hfirst, hopenSpan, _, hmiddle, _, hcloseSpan, hlast⟩ := htags
  rw [← hsolid] at hinner
  have htiled := tiled_bodyEntries hentries hinner fun p hp => (hparts p hp).span_eq
  have hall := everywhere_bodyEntries hentries htiled hparts
  have hcloseMem := GrammarNode.mem_children_of_child? hclose
  have hpos := charPosition_mono t
  refine ⟨rfl, everywhere_spanned ?_ (fun h => absurd h hkind) fun c hc => ?_⟩
  · rw [List.map_cons, hopenNode.span_eq]
    exact ⟨hpos _ _ hfirst, hpos _ _ hopenSpan, Int.le_refl _, hpos _ _ hmiddle, Int.le_refl _,
      hpos _ _ hcloseSpan, hpos _ _ hlast⟩
  · simp only [List.mem_cons, List.not_mem_nil, or_false] at hc
    rcases hc with rfl | rfl | rfl
    · exact hopenNode.spanned
    · exact everywhere_spanned htiled.inOrder (fun _ => htiled) hall
    · exact (standsFor_leaf (hg.of_mem_children hcloseMem) hcloseKind).spanned

/-- A converted node stands in the place of the grammar node. -/
theorem Converts.standsFor {inTag : Bool} {n : Node} (h : Converts t inTag g n) :
    g.WellFormed → StandsFor t g n := by
  have hbelow : ∀ {g : GrammarNode} {ps : List (GrammarNode × Node)} {cs : List GrammarNode},
      g.WellFormed → ps.map Prod.fst = cs → (∀ c ∈ cs, c ∈ g.children) →
      (∀ p ∈ ps, p.1.WellFormed → StandsFor t p.1 p.2) → ∀ p ∈ ps, StandsFor t p.1 p.2 := by
    intro g ps cs hg hfst hcs ih p hp
    exact ih p hp (hg.of_mem_children (hcs p.1 (hfst ▸ List.mem_map_of_mem hp)))
  have hsolidMem : ∀ {g : GrammarNode}, ∀ c ∈ solidChildren g, c ∈ g.children := fun c hc =>
    GrammarNode.mem_children_of_mem_childrenWithout (List.mem_of_mem_filter hc)
  -- nodes with tags are laid out from their parts; any other node takes over children in order
  induction h with
  | element htype hopen hclose hname hattributes _ hsolid _ hentries ihAttributes ihSolid =>
    intro hg
    have hopenTag := hg.of_mem_children (GrammarNode.mem_children_of_child? hopen)
    have hattributesFor := hbelow hopenTag hattributes
      (fun _ => GrammarNode.mem_children_of_mem_childrenIn) ihAttributes
    have hfield := GrammarNode.field_of_child? hopen
    exact standsFor_element hg htype (by decide) (by decide) hopen hclose
      (standsFor_tag hopenTag (Or.inr hfield) (by decide) hname hattributes hattributesFor) hsolid
      (hbelow hg hsolid hsolidMem ihSolid) hentries
  | fragment htype hopen hclose _ hsolid _ hentries ihSolid =>
    intro hg
    have hopenTag := hg.of_mem_children (GrammarNode.mem_children_of_child? hopen)
    exact standsFor_element hg htype (by decide) (by decide) hopen hclose
      (standsFor_leaf hopenTag (by decide)) hsolid (hbelow hg hsolid hsolidMem ihSolid) hentries
  | unterminated _ _ hchildren _ ih =>
    intro hg
    exact standsFor_of_sublist _ hg (by decide) (by rw [hchildren])
      (hbelow hg hchildren (fun _ hc => hc) ih)
  | selfClosing htype hname hattributes _ ih =>
    intro hg
    exact standsFor_tag hg (Or.inl htype) (by decide) hname hattributes
      (hbelow hg hattributes (fun _ => GrammarNode.mem_children_of_mem_childrenIn) ih)
  | selfClosingNameless => exact fun hg => standsFor_leaf hg (by decide)
  | attributeNameless => exact fun hg => standsFor_leaf hg (by decide)
  | attributeName _ hnamed =>
    intro hg
    exact standsFor_attributeName hg (by decide) (hnamed ▸ List.filter_sublist)
  | @attributeValued g name last between written value _ hnamed _ ih =>
    intro hg
    have hsub : [name, last].Sublist g.children := by
      have hnames : [name, last].Sublist (name :: (between ++ [last])) :=
        (List.sublist_append_right between [last]).cons_cons name
      rw [← hnamed] at hnames
      exact hnames.trans List.filter_sublist
    have hlast : last ∈ [name, last] := by simp
    exact standsFor_attribute hg (by decide) hsub (ih (hg.of_mem_children (hsub.subset hlast)))
  | importStatement _ hchildren _ ih =>
    intro hg
    exact standsFor_of_sublist _ hg (by decide) (by rw [hchildren])
      (hbelow hg hchildren (fun _ hc => hc) ih)
  | plain _ hchildren _ ih =>
    intro hg
    exact standsFor_of_sublist _ hg (Kind.ofGrammarType_ne_syntaxList _) (by rw [hchildren])
      (hbelow hg hchildren (fun _ hc => hc) ih)
  | spread _ hchildren _ ih =>
    intro hg
    exact standsFor_of_sublist _ hg (by decide) (by rw [hchildren])
      (hbelow hg hchildren (fun _ hc => hc) ih)
  | inTag _ _ ih => exact ih

end Conversion

/-! ### Trees of texts -/

/-- The tree lies within the text, and in every node the children stand in order. -/
structure LaidOut (text : Text) (root : Node) : Prop where
  start_nonneg : 0 ≤ root.info.start
  stop_le : root.info.stop ≤ text.length
  inOrder : ∀ n ∈ root.preorder, InOrder n.info.start n.info.stop (n.children.map Node.span)

theorem laidOut_of_spanned {text : Text} {root : Node} (h : root.Everywhere Spanned)
    (hstart : 0 ≤ root.info.start) (hstop : root.info.stop ≤ text.length) : LaidOut text root := by
  refine ⟨hstart, hstop, fun n hn => ?_⟩
  have horder := (h n hn).inOrder
  rwa [Node.map_span_info] at horder

/-- A child lies within its parent. -/
theorem LaidOut.within {text : Text} {root n c : Node} (h : LaidOut text root)
    (hn : n ∈ root.preorder) (hc : c ∈ n.children) :
    n.info.start ≤ c.info.start ∧ c.info.stop ≤ n.info.stop := by
  have hspan := (h.inOrder n hn).of_mem (List.mem_map_of_mem hc)
  exact ⟨hspan.1, hspan.2.2⟩

/-- Every node is a stretch of the text. -/
theorem LaidOut.bounds {text : Text} {root n : Node} (h : LaidOut text root)
    (hn : n ∈ root.preorder) :
    0 ≤ n.info.start ∧ n.info.start ≤ n.info.stop ∧ n.info.stop ≤ text.length := by
  have hbelow : ∀ m ∈ root.preorder, n ∈ m.preorder →
      m.info.start ≤ n.info.start ∧ n.info.stop ≤ m.info.stop := by
    intro m
    induction m using Node.treeInduction with
    | step m ih =>
      intro hm hmem
      rcases Node.mem_preorder_iff.mp hmem with rfl | ⟨c, hc, hnc⟩
      · exact ⟨Int.le_refl _, Int.le_refl _⟩
      · obtain ⟨hleft, hright⟩ := ih c hc (Node.child_mem_preorder hc hm) hnc
        have hc' := h.within hm hc
        exact ⟨Int.le_trans hc'.1 hleft, Int.le_trans hright hc'.2⟩
  obtain ⟨hleft, hright⟩ := hbelow root (Node.self_mem_preorder root) hn
  exact ⟨Int.le_trans h.start_nonneg hleft, (h.inOrder n hn).le, Int.le_trans hright h.stop_le⟩

/-- Children follow one another. -/
theorem LaidOut.apart {text : Text} {root n : Node} (h : LaidOut text root) (hn : n ∈ root.preorder) :
    n.children.Pairwise fun a b => a.info.stop ≤ b.info.start :=
  List.pairwise_map.mp (h.inOrder n hn).pairwise

/-- The tree spans the whole text, and in every node the children stand in order. -/
structure SpansText (text : Text) (root : Node) : Prop where
  span_eq : root.span = (0, (text.length : Int))
  spanned : root.Everywhere Spanned

/-- A well-formed tree over a text is converted to one whose nodes are in order. The root spans the text,
or its own grammar node if it is one of those that are rearranged. -/
theorem Conversion.spanned_root {t : Text} {g : GrammarNode} {n : Node}
    (h : convert t true g = .ok n) (hformed : g.WellFormed) (hover : g.stop ≤ (Utf8.encode t).length) :
    n.Everywhere Spanned ∧
      n.span = if isSpecialType g.type then place t g else (0, (t.length : Int)) := by
  obtain ⟨m, hm, hroot⟩ := convert_root h
  have hkind : m.kind ≠ .syntaxList := hm.wellMade.1
  obtain ⟨hspan, hspanned⟩ := hm.standsFor hformed
  rcases hroot with ⟨hspecial, rfl⟩ | ⟨hplain, rfl⟩
  · rw [if_pos hspecial]
    exact ⟨hspanned, hspan⟩
  · rw [if_neg hplain]
    have hstart : m.info.start = charPosition t g.start := congrArg Prod.fst hspan
    have hstop : m.info.stop = charPosition t g.stop := congrArg Prod.snd hspan
    rw [Node.everywhere_iff] at hspanned ⊢
    refine ⟨⟨⟨hspanned.1.inOrder.widen ?_ ?_, fun hlist => absurd hlist hkind⟩, hspanned.2⟩, rfl⟩
    · rw [hstart]
      exact charPosition_nonneg t _
    · rw [hstop]
      exact charPosition_le_length hover

section Parsed

variable {name : String} {text : Text} {tree : GrammarTree} {file : SourceFile}
  (h : SourceFile.ofGrammar name text tree = .ok file) (hformed : tree.root.WellFormed)
  (hover : tree.root.stop ≤ (Utf8.encode text).length)
include h hformed hover

theorem SourceFile.spanned_root : file.root.Everywhere Spanned ∧
    file.root.span = if Conversion.isSpecialType tree.root.type then Conversion.place text tree.root
      else (0, (text.length : Int)) := by
  obtain ⟨n, hn, rfl⟩ := SourceFile.ofGrammar_eq_ok h
  obtain ⟨hspanned, hspan⟩ := Conversion.spanned_root hn hformed hover
  exact ⟨hspanned.number none 0, (congrArg NodeInfo.span (Node.info_number none 0 n)).trans hspan⟩

/-- A parsed tree lies within its text, whatever its root is. -/
theorem SourceFile.laidOut : LaidOut text file.root := by
  obtain ⟨hspanned, hspan⟩ := SourceFile.spanned_root h hformed hover
  have hbounds : 0 ≤ file.root.span.1 ∧ file.root.span.2 ≤ text.length := by
    rw [hspan]
    split
    · exact ⟨charPosition_nonneg text _, charPosition_le_length hover⟩
    · exact ⟨Int.le_refl 0, Int.le_refl _⟩
  exact laidOut_of_spanned hspanned hbounds.1 hbounds.2

end Parsed

/-- A well-formed tree over a text whose root is no markup is parsed to a tree that spans the text. -/
theorem SourceFile.spansText {name : String} {text : Text} {tree : GrammarTree}
    {file : SourceFile} (h : SourceFile.ofGrammar name text tree = .ok file)
    (hplain : ¬ Conversion.isSpecialType tree.root.type) (hformed : tree.root.WellFormed)
    (hover : tree.root.stop ≤ (Utf8.encode text).length) : SpansText text file.root := by
  obtain ⟨hspanned, hspan⟩ := SourceFile.spanned_root h hformed hover
  rw [if_neg hplain] at hspan
  exact ⟨hspan, hspanned⟩

namespace SpansText

variable {text : Text} {root : Node} (spans : SpansText text root)
include spans

theorem laidOut : LaidOut text root := by
  have hstart : root.info.start = 0 := congrArg Prod.fst spans.span_eq
  have hstop : root.info.stop = text.length := congrArg Prod.snd spans.span_eq
  exact laidOut_of_spanned spans.spanned (Int.le_of_eq hstart.symm) (Int.le_of_eq hstop)

/-- Every node is a stretch of the text. -/
theorem bounds {n : Node} (hn : n ∈ root.preorder) :
    0 ≤ n.info.start ∧ n.info.start ≤ n.info.stop ∧ n.info.stop ≤ text.length :=
  spans.laidOut.bounds hn

theorem inOrder {n : Node} (hn : n ∈ root.preorder) :
    InOrder n.info.start n.info.stop (n.children.map Node.span) := spans.laidOut.inOrder n hn

theorem tiled {n : Node} (hn : n ∈ root.preorder) (hkind : n.kind = .syntaxList) :
    Tiled n.info.start n.info.stop (n.children.map Node.span) := by
  have htiled := (spans.spanned n hn).tiled hkind
  rwa [Node.map_span_info] at htiled

end SpansText

end CondMarkup
