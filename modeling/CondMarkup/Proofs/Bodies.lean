import CondMarkup.Proofs.Boundaries
import CondMarkup.Proofs.PrintedText
import Mathlib.Data.List.Chain

/-!
The bodies of elements. In a grammar tree that is in order and cut between characters, every node is
converted, since all the bytes that are read are whole characters. The entries of a body are then known:
the children that are no text, each converted, and a text for whatever stands before, between and after
them. So the entries fill the body, no two texts meet, and the stretches of the entries are the body again.
-/

namespace CondMarkup

open Conversion

/-! ### Trees cut between characters -/

namespace GrammarNode

/-- What a tree that is in order and cut between characters keeps to at a node. -/
structure CutAt (t : Text) (g : GrammarNode) : Prop where
  start : OnBoundary t g.start
  stop : OnBoundary t g.stop
  children : InOrder g.start g.stop (g.children.map span)
  tags : ∀ openTag closeTag, isElementType g.type → g.child? "open_tag" = some openTag →
    g.child? "close_tag" = some closeTag →
      g.children.head? = some openTag ∧ g.children.getLast? = some closeTag

inductive Cut (t : Text) : GrammarNode → Prop
  | intro {g : GrammarNode} (cut : g.CutAt t) (below : ∀ c ∈ g.children, Cut t c) : Cut t g

/-- The node is the root of the tree or stands below it. -/
inductive Within : GrammarNode → GrammarNode → Prop
  | root (g : GrammarNode) : Within g g
  | child {g c root : GrammarNode} (hc : c ∈ root.children) (h : Within g c) : Within g root

variable {t : Text} {g : GrammarNode}

theorem Cut.cutAt (h : g.Cut t) : g.CutAt t := by
  cases h with
  | intro cut _ => exact cut

theorem Cut.of_mem_children {c : GrammarNode} (h : g.Cut t) (hc : c ∈ g.children) : c.Cut t := by
  cases h with
  | intro _ below => exact below c hc

theorem Cut.of_child? {c : GrammarNode} {field : String} (h : g.Cut t)
    (hc : g.child? field = some c) : c.Cut t := h.of_mem_children (mem_children_of_child? hc)

theorem Cut.of_within {root : GrammarNode} (h : root.Cut t) (hg : g.Within root) : g.Cut t := by
  induction hg with
  | root => exact h
  | child hc _ ih => exact ih (h.of_mem_children hc)

theorem Cut.le (h : g.Cut t) : g.start ≤ g.stop := Int.ofNat_le.mp h.cutAt.children.le

theorem within_mk_iff {type : String} {start stop : Nat} {named : Bool} {field : Option String}
    {cs : List GrammarNode} : g.Within (mk type start stop named field cs) ↔
      g = mk type start stop named field cs ∨ ∃ c ∈ cs, g.Within c := by
  constructor
  · intro h
    cases h with
    | root => exact Or.inl rfl
    | child hc h => exact Or.inr ⟨_, hc, h⟩
  · rintro (rfl | ⟨c, hc, h⟩)
    · exact .root _
    · exact .child hc h

theorem Within.of_mem_children {c root : GrammarNode} (h : g.Within root) (hc : c ∈ g.children) :
    c.Within root := by
  induction h with
  | root => exact .child hc (.root c)
  | child hd _ ih => exact .child hd ih

/-- No node of a well-formed tree reaches beyond the root. -/
theorem WellFormed.stop_le_of_within {root : GrammarNode} (h : root.WellFormed) (hg : g.Within root) :
    g.start ≤ g.stop ∧ g.stop ≤ root.stop := by
  induction hg with
  | root => exact ⟨Int.ofNat_le.mp h.ordered.children.le, Nat.le_refl _⟩
  | child hc _ ih =>
    obtain ⟨hle, hstop⟩ := ih (h.of_mem_children hc)
    have hwithin := (h.ordered.children.of_mem (List.mem_map_of_mem hc)).2.2
    exact ⟨hle, Nat.le_trans hstop (Int.ofNat_le.mp hwithin)⟩

/-- A well-formed tree is cut between characters if all its nodes start and stop there. -/
theorem WellFormed.cut_of_within (h : g.WellFormed)
    (hbounds : ∀ c : GrammarNode, c.Within g → OnBoundary t c.start ∧ OnBoundary t c.stop) :
    g.Cut t := by
  induction h with
  | @intro g ordered _ ih =>
    obtain ⟨hstart, hstop⟩ := hbounds g (.root g)
    exact .intro ⟨hstart, hstop, ordered.children, ordered.tags⟩ fun c hc =>
      ih c hc fun d hd => hbounds d (.child hc hd)

/-- A well-formed tree over ASCII characters is cut between them. -/
theorem WellFormed.cut (h : g.WellFormed) (hascii : t.all isAsciiChar = true)
    (hover : g.stop ≤ (Utf8.encode t).length) : g.Cut t := by
  refine h.cut_of_within fun c hc => ?_
  obtain ⟨hle, hstop⟩ := h.stop_le_of_within hc
  have hlast := Nat.le_trans hstop hover
  exact ⟨onBoundary_of_ascii hascii (Nat.le_trans hle hlast), onBoundary_of_ascii hascii hlast⟩

end GrammarNode

namespace Conversion

open GrammarNode (Cut)

variable {t : Text} {g : GrammarNode}

/-! ### Every node is converted -/

theorem textOf_eq (h : g.Cut t) :
    textOf t g = .ok (window t (charPosition t g.start) (charPosition t g.stop)) :=
  sliceBytes_of_onBoundary h.cutAt.start h.cutAt.stop h.le

theorem exists_identifierOf (h : g.Cut t) : ∃ n, identifierOf t g = .ok n :=
  exists_bind_eq_ok ⟨_, textOf_eq h⟩ fun _ => ⟨_, rfl⟩

theorem exists_plainValue (h : g.Cut t) : ∃ value, plainValue t g = .ok value := by
  rw [plainValue]
  split
  · exact exists_bind_eq_ok ⟨_, textOf_eq h⟩ fun _ => ⟨_, rfl⟩
  · exact exists_bind_eq_ok ⟨_, textOf_eq h⟩ fun _ => ⟨_, rfl⟩
  · exact exists_bind_eq_ok ⟨_, textOf_eq h⟩ fun _ => ⟨_, rfl⟩
  · exact ⟨none, rfl⟩

/-- The text over some bytes. -/
def textNode (t : Text) (start stop : Nat) : Node :=
  let value := String.ofList (window t (charPosition t start) (charPosition t stop))
  spanned t start stop { kind := .jsxText, typeName := "jsx_text", value := some value } []

/-- The text over some bytes of a body, if there are any. -/
def textNodes (t : Text) (start stop : Nat) : List Node :=
  if start < stop then [textNode t start stop] else []

/-- The entries of a body that holds the given children, converted, besides texts. -/
def bodyOf (t : Text) (stop : Nat) : Nat → List (GrammarNode × Node) → List Node
  | start, [] => textNodes t start stop
  | start, (c, n) :: rest => textNodes t start c.start ++ n :: bodyOf t stop c.stop rest

section Body

variable {start stop : Nat} {solid : List (GrammarNode × Node)}

theorem textBetween_eq (hstart : OnBoundary t start) (hstop : OnBoundary t stop) :
    textBetween t start stop = .ok (textNodes t start stop) := by
  rw [textBetween, textNodes]
  by_cases hlt : start < stop
  · rw [if_pos hlt, if_pos hlt, sliceBytes_of_onBoundary hstart hstop (Nat.le_of_lt hlt)]
    rfl
  · rw [if_neg hlt, if_neg hlt]
    rfl

/-- Children that are text are passed over. -/
theorem bodyEntries_filter (f : GrammarNode → Except Utf8.DecodeError Node) (cs : List GrammarNode) :
    bodyEntries t start stop (cs.map fun c => (c, f c)) =
      bodyEntries t start stop ((cs.filter fun c => !isTextLike c.type).map fun c => (c, f c)) := by
  induction cs generalizing start with
  | nil => rfl
  | cons c rest ih =>
    rw [List.map_cons, bodyEntries]
    by_cases hc : isTextLike c.type = true
    · rw [if_pos hc, List.filter_cons_of_neg (by simp [hc]), ih]
    · rw [if_neg hc, List.filter_cons_of_pos (by simp [hc]), List.map_cons, bodyEntries, if_neg hc]
      simp only [ih]

theorem bodyEntries_eq (hstart : OnBoundary t start) (hstop : OnBoundary t stop)
    (hcut : ∀ p ∈ solid, p.1.Cut t) (htype : ∀ p ∈ solid, ¬ isTextLike p.1.type = true) :
    bodyEntries t start stop (solid.map fun p => (p.1, .ok p.2)) = .ok (bodyOf t stop start solid) := by
  induction solid generalizing start with
  | nil => exact textBetween_eq hstart hstop
  | cons p rest ih =>
    obtain ⟨hp, hrest⟩ := List.forall_mem_cons.mp hcut
    obtain ⟨hpType, hrestType⟩ := List.forall_mem_cons.mp htype
    rw [List.map_cons, bodyEntries, if_neg hpType, textBetween_eq hstart hp.cutAt.start,
      ih hp.cutAt.stop hrest hrestType]
    rfl

end Body

/-- The children of an element that are neither tags nor text, each with the node that it becomes. -/
structure Solid (t : Text) (g : GrammarNode) (solid : List (GrammarNode × Node)) : Prop where
  fst_eq : solid.map Prod.fst = solidChildren g
  converted : ∀ p ∈ solid, convert t false p.1 = .ok p.2
  cut : ∀ p ∈ solid, p.1.Cut t
  not_text : ∀ p ∈ solid, ¬ isTextLike p.1.type = true

theorem Solid.bodyEntries_childrenWithout {start stop : Nat} {solid : List (GrammarNode × Node)}
    (h : Solid t g solid) (hstart : OnBoundary t start) (hstop : OnBoundary t stop) :
    bodyEntries t start stop
        ((g.childrenWithout ["open_tag", "close_tag"]).map fun c => (c, convert t false c)) =
      .ok (bodyOf t stop start solid) := by
  have hpairs : (solidChildren g).map (fun c => (c, convert t false c)) =
      solid.map fun p => (p.1, .ok p.2) := by
    rw [← h.fst_eq, List.map_map]
    exact List.map_congr_left fun p hp => by rw [Function.comp_apply, h.converted p hp]
  rw [bodyEntries_filter, ← bodyEntries_eq hstart hstop h.cut h.not_text, ← hpairs]
  rfl

/-- What is converted of a node: the node itself, the parts of it as a tag, and its children. -/
structure Convertible (t : Text) (g : GrammarNode) : Prop where
  node : ∀ isRoot, ∃ n, convert t isRoot g = .ok n
  tag : ∃ parts, tagPartsWith t (convert t false) g = .ok parts
  children : ∃ ns, g.children.mapM (convert t false) = .ok ns

section Below

variable (ih : ∀ c ∈ g.children, Convertible t c)
include ih

theorem exists_children : ∃ ns, g.children.mapM (convert t false) = .ok ns :=
  exists_mapM_eq_ok fun c hc => (ih c hc).node false

variable (hg : g.Cut t)
include hg

theorem exists_tagPartsWith : ∃ parts, tagPartsWith t (convert t false) g = .ok parts := by
  rw [tagPartsWith]
  split
  · exact ⟨[], rfl⟩
  · rename_i name hname
    refine exists_bind_eq_ok (exists_identifierOf (hg.of_child? hname)) fun _ => ?_
    refine exists_bind_eq_ok (exists_mapM_eq_ok fun a ha => ?_) fun _ => ⟨_, rfl⟩
    have hbelow := ih a (GrammarNode.mem_children_of_mem_childrenIn ha)
    split
    · exact exists_bind_eq_ok hbelow.children fun _ => ⟨_, rfl⟩
    · exact hbelow.node false

theorem exists_solid : ∃ solid, Solid t g solid := by
  have hmem : ∀ c ∈ solidChildren g, c ∈ g.children ∧ ¬ isTextLike c.type = true := by
    intro c hc
    obtain ⟨hc, htype⟩ := List.mem_filter.mp hc
    exact ⟨GrammarNode.mem_children_of_mem_childrenWithout hc, by simpa using htype⟩
  obtain ⟨ns, hns⟩ := exists_mapM_eq_ok fun c hc => (ih c (hmem c hc).1).node false
  obtain ⟨solid, hfst, _, hall⟩ := exists_pairs_of_mapM hns
  have hsolid : ∀ p ∈ solid, p.1 ∈ g.children ∧ ¬ isTextLike p.1.type = true := fun p hp =>
    hmem p.1 (hfst ▸ List.mem_map_of_mem hp)
  exact ⟨solid, hfst, hall, fun p hp => hg.of_mem_children (hsolid p hp).1,
    fun p hp => (hsolid p hp).2⟩

theorem exists_elementWith : ∃ n, elementWith t (convert t false) g = .ok n := by
  rw [elementWith]
  split
  · rename_i openTag closeTag hopen hclose
    obtain ⟨solid, hsolid⟩ := exists_solid ih hg
    have hentries := hsolid.bodyEntries_childrenWithout (hg.of_child? hopen).cutAt.stop
      (hg.of_child? hclose).cutAt.start
    refine exists_bind_eq_ok (ih openTag (GrammarNode.mem_children_of_child? hopen)).tag fun _ =>
      exists_bind_eq_ok ⟨_, hentries⟩ fun _ => ?_
    split
    · exact ⟨_, rfl⟩
    · exact ⟨_, rfl⟩
  · exact exists_bind_eq_ok (exists_children ih) fun _ => ⟨_, rfl⟩

theorem exists_attributeWith : ∃ n, attributeWith t (convert t false) g = .ok n := by
  rw [attributeWith]
  split
  · exact ⟨_, rfl⟩
  · rename_i name hname
    have hnameMem := GrammarNode.mem_children_of_mem_namedChildren (List.mem_of_head? hname)
    refine exists_bind_eq_ok (exists_identifierOf (hg.of_mem_children hnameMem)) fun _ => ?_
    split
    · rename_i value hvalue
      have hvalueMem := GrammarNode.mem_children_of_mem_namedChildren (List.mem_of_getLast? hvalue)
      split
      · exact exists_bind_eq_ok ((ih value hvalueMem).node false) fun _ => ⟨_, rfl⟩
      · exact ⟨_, rfl⟩
    · exact ⟨_, rfl⟩

theorem exists_importWith : ∃ n, importWith t (convert t false) g = .ok n := by
  rw [importWith]
  refine exists_bind_eq_ok (exists_children ih) fun _ => ?_
  split
  · rename_i source hsource
    exact exists_bind_eq_ok ⟨_, textOf_eq (hg.of_child? hsource)⟩ fun _ => ⟨_, rfl⟩
  · exact ⟨_, rfl⟩

theorem exists_plainWith (isRoot : Bool) :
    ∃ n, plainWith t (convert t false) isRoot g = .ok n := by
  rw [plainWith]
  refine exists_bind_eq_ok (exists_plainValue hg) fun _ =>
    exists_bind_eq_ok (exists_children ih) fun _ => ?_
  split
  · exact ⟨_, rfl⟩
  · exact ⟨_, rfl⟩

end Below

/-- In a tree cut between characters all nodes are converted. -/
theorem convertible_of_cut (h : g.Cut t) : Convertible t g := by
  induction h with
  | @intro g cut below ih =>
    have hg : g.Cut t := .intro cut below
    refine ⟨fun isRoot => ?_, exists_tagPartsWith ih hg, exists_children ih⟩
    rw [convert_eq, convertWith]
    split
    · exact exists_elementWith ih hg
    split
    · exact exists_bind_eq_ok (exists_tagPartsWith ih hg) fun _ => ⟨_, rfl⟩
    split
    · exact exists_attributeWith ih hg
    split
    · exact exists_importWith ih hg
    · exact exists_plainWith ih hg isRoot

end Conversion

/-- A text whose tree is cut between characters can be parsed. -/
theorem SourceFile.exists_ofGrammar_of_cut {text : Text} {tree : GrammarTree}
    (h : tree.root.Cut text) (name : String) : ∃ file, ofGrammar name text tree = .ok file := by
  obtain ⟨n, hn⟩ := (Conversion.convertible_of_cut h).node true
  have hroot : Node.ofGrammar text tree = .ok (n.number none 0).1 := by
    rw [Node.ofGrammar_eq, hn]
    rfl
  exact exists_bind_eq_ok ⟨_, hroot⟩ fun _ => ⟨_, rfl⟩

namespace Conversion

variable {t : Text} {g : GrammarNode}

/-! ### What a body holds -/

/-- What the entries between the tags of an element are. The text is known in two ways: by the bytes
between the tags, and by the characters that each entry stands over. -/
structure Fills (t : Text) (g openTag closeTag : GrammarNode) (entries : List Node) : Prop where
  tiled : Tiled (charPosition t openTag.stop) (charPosition t closeTag.start) (entries.map Node.span)
  ne_nil : openTag.stop < closeTag.start → entries ≠ []
  solid : (solidChildren g).mapM (convert t false) = .ok (entries.filter fun e => e.kind ≠ .jsxText)
  text : ∀ e ∈ entries, e.kind = .jsxText → e.info.start < e.info.stop ∧
    e.info.value = some (String.ofList (window t e.info.start e.info.stop))
  apart : entries.IsChain fun a b => a.kind = .jsxText → b.kind ≠ .jsxText
  slices : sliceBytes t openTag.stop closeTag.start =
    .ok (entries.flatMap fun e => window t e.info.start e.info.stop)

theorem Converts.span_eq {n : Node} (h : Converts t false g n) : n.span = place t g := by
  cases h with
  | _ => rfl

/-- Only text becomes a text. -/
theorem Converts.kind_ne_jsxText {n : Node} (h : Converts t false g n)
    (htype : ¬ isTextLike g.type = true) : n.kind ≠ .jsxText := by
  intro hkind
  cases h with
  | plain _ =>
    have hkind' : Kind.ofGrammarType g.type = .jsxText := hkind
    unfold Kind.ofGrammarType at hkind'
    split at hkind'
    case h_5 heq => exact htype (by rw [heq]; rfl)
    all_goals cases hkind'
  | _ => cases hkind

theorem mem_textNodes {start stop : Nat} {e : Node} :
    e ∈ textNodes t start stop ↔ start < stop ∧ e = textNode t start stop := by
  rw [textNodes]
  split
  · rename_i hlt
    rw [List.mem_singleton]
    exact ⟨fun h => ⟨hlt, h⟩, And.right⟩
  · rename_i hlt
    exact ⟨fun h => absurd h List.not_mem_nil, fun h => absurd h.1 hlt⟩

section Entries

variable {start stop : Nat} {solid : List (GrammarNode × Node)}

theorem bodyOf_ne_nil (h : start < stop) : bodyOf t stop start solid ≠ [] := by
  cases solid with
  | nil => rw [bodyOf, textNodes, if_pos h]; simp
  | cons p rest => rw [bodyOf]; simp

theorem filter_textNodes : (textNodes t start stop).filter (fun e => e.kind ≠ .jsxText) = [] := by
  rw [List.filter_eq_nil_iff]
  intro e he
  rw [(mem_textNodes.mp he).2]
  exact fun h => of_decide_eq_true h rfl

theorem filter_bodyOf (hkind : ∀ p ∈ solid, p.2.kind ≠ .jsxText) :
    (bodyOf t stop start solid).filter (fun e => e.kind ≠ .jsxText) = solid.map Prod.snd := by
  induction solid generalizing start with
  | nil => exact filter_textNodes
  | cons p rest ih =>
    obtain ⟨hp, hrest⟩ := List.forall_mem_cons.mp hkind
    rw [bodyOf, List.filter_append, filter_textNodes, List.nil_append,
      List.filter_cons_of_pos (by simpa using hp), ih hrest, List.map_cons]

/-- A text stands over some characters, and its value is these. -/
theorem text_of_mem_textNodes {e : Node} (hstart : OnBoundary t start) (hstop : OnBoundary t stop)
    (he : e ∈ textNodes t start stop) : e.info.start < e.info.stop ∧
      e.info.value = some (String.ofList (window t e.info.start e.info.stop)) := by
  obtain ⟨hlt, rfl⟩ := mem_textNodes.mp he
  exact ⟨charPosition_lt_of_onBoundary hstart hstop hlt, rfl⟩

theorem text_of_mem_bodyOf {e : Node} (hstart : OnBoundary t start) (hstop : OnBoundary t stop)
    (hcut : ∀ p ∈ solid, p.1.Cut t) (hsolid : ∀ p ∈ solid, p.2.kind ≠ .jsxText)
    (he : e ∈ bodyOf t stop start solid) (hkind : e.kind = .jsxText) :
    e.info.start < e.info.stop ∧
      e.info.value = some (String.ofList (window t e.info.start e.info.stop)) := by
  induction solid generalizing start with
  | nil => exact text_of_mem_textNodes hstart hstop he
  | cons p rest ih =>
    obtain ⟨hp, hrest⟩ := List.forall_mem_cons.mp hcut
    obtain ⟨hpKind, hrestKind⟩ := List.forall_mem_cons.mp hsolid
    rw [bodyOf, List.mem_append, List.mem_cons] at he
    rcases he with he | rfl | he
    · exact text_of_mem_textNodes hstart hp.cutAt.start he
    · exact absurd hkind hpKind
    · exact ih hp.cutAt.stop hrest hrestKind he

/-- Between two texts stands a child that is none. -/
theorem isChain_bodyOf (hkind : ∀ p ∈ solid, p.2.kind ≠ .jsxText) :
    (bodyOf t stop start solid).IsChain fun a b => a.kind = .jsxText → b.kind ≠ .jsxText := by
  induction solid generalizing start with
  | nil =>
    rw [bodyOf, textNodes]
    split
    · exact List.isChain_singleton _
    · exact List.isChain_nil
  | cons p rest ih =>
    obtain ⟨hp, hrest⟩ := List.forall_mem_cons.mp hkind
    have hafter : (p.2 :: bodyOf t stop p.1.stop rest).IsChain
        fun a b => a.kind = .jsxText → b.kind ≠ .jsxText :=
      List.isChain_cons.mpr ⟨fun _ _ h => absurd h hp, ih hrest⟩
    rw [bodyOf, textNodes]
    split
    · rw [List.singleton_append, List.isChain_cons_cons]
      exact ⟨fun _ => hp, hafter⟩
    · exact hafter

end Entries

/-- The body of an element is filled with its solid children and with texts. -/
theorem Solid.fills {openTag closeTag : GrammarNode} {solid : List (GrammarNode × Node)}
    (h : Solid t g solid) (hcut : g.Cut t) (htype : isElementType g.type)
    (hopen : g.child? "open_tag" = some openTag) (hclose : g.child? "close_tag" = some closeTag) :
    Fills t g openTag closeTag (bodyOf t closeTag.start openTag.stop solid) := by
  have hstart := (hcut.of_child? hopen).cutAt.stop
  have hstop := (hcut.of_child? hclose).cutAt.start
  have hconverts : ∀ p ∈ solid, Converts t false p.1 p.2 := fun p hp =>
    converts_of_convert p.1 (h.converted p hp)
  have hkind : ∀ p ∈ solid, p.2.kind ≠ .jsxText := fun p hp =>
    (hconverts p hp).kind_ne_jsxText (h.not_text p hp)
  have horder : InOrder openTag.stop closeTag.start ((solid.map Prod.fst).map GrammarNode.span) := by
    rw [h.fst_eq]
    exact (GrammarNode.inOrder_of_tags hcut.cutAt.children
      (hcut.cutAt.tags openTag closeTag htype hopen hclose) hopen hclose).2
  have htiled := tiled_bodyEntries (bodyEntries_eq hstart hstop h.cut h.not_text) horder
    fun p hp => (hconverts p hp).span_eq
  refine ⟨htiled, bodyOf_ne_nil, ?_, fun e => text_of_mem_bodyOf hstart hstop h.cut hkind,
    isChain_bodyOf hkind, ?_⟩
  · rw [filter_bodyOf hkind, ← h.fst_eq]
    exact mapM_map_fst h.converted
  · have hslices := htiled.flatMap_window (charPosition_nonneg t _) (charPosition_le_length hstop.le)
    rw [List.flatMap_map] at hslices
    rw [sliceBytes_of_onBoundary hstart hstop (Int.ofNat_le.mp horder.le), ← hslices]
    rfl

/-- In a tree that is in order and cut between characters, every element or fragment with both tags is
converted to a node of three parts, and its body is filled by the list in the middle. -/
theorem convert_fills {root openTag closeTag : GrammarNode} (hroot : root.Cut t)
    (hg : g.Within root) (htype : isElementType g.type) (hopen : g.child? "open_tag" = some openTag)
    (hclose : g.child? "close_tag" = some closeTag) (isRoot : Bool) :
    ∃ n openNode closeNode entries, convert t isRoot g = .ok n ∧
      n.children = [openNode, listBetween t openTag closeTag entries, closeNode] ∧
      Fills t g openTag closeTag entries := by
  have hcut := hroot.of_within hg
  have hbelow : ∀ c ∈ g.children, Convertible t c := fun c hc =>
    convertible_of_cut (hcut.of_mem_children hc)
  obtain ⟨solid, hsolid⟩ := exists_solid hbelow hcut
  obtain ⟨parts, hparts⟩ := (hbelow openTag (GrammarNode.mem_children_of_child? hopen)).tag
  have hentries := hsolid.bodyEntries_childrenWithout (hcut.of_child? hopen).cutAt.stop
    (hcut.of_child? hclose).cutAt.start
  have hfills := hsolid.fills hcut htype hopen hclose
  rw [convert_eq, convertWith, if_pos htype, elementWith, hopen, hclose]
  dsimp only
  rw [hparts, hentries]
  by_cases hname : (openTag.child? "name").isNone = true
  · exact ⟨_, _, _, _, if_pos hname, rfl, hfills⟩
  · exact ⟨_, _, _, _, if_neg hname, rfl, hfills⟩

/-- The fragment of the small page holds an element, a text and another element. -/
theorem convert_fills_smallPage : ∃ g openTag closeTag n openNode closeNode entries,
    SmallPage.tree.root.Cut SmallPage.text ∧ g.Within SmallPage.tree.root ∧
      isElementType g.type ∧ g.child? "open_tag" = some openTag ∧
      g.child? "close_tag" = some closeTag ∧ convert SmallPage.text false g = .ok n ∧
      n.children = [openNode, listBetween SmallPage.text openTag closeTag entries, closeNode] ∧
      Fills SmallPage.text g openTag closeTag entries := by
  have hcut : SmallPage.tree.root.Cut SmallPage.text :=
    SmallPage.wellFormed.cut (by decide) (by decide +kernel)
  have hwithin : GrammarNode.Within _ SmallPage.tree.root :=
    .child (List.mem_cons_of_mem _ List.mem_cons_self) (.root _)
  obtain ⟨n, openNode, closeNode, entries, h⟩ :=
    convert_fills hcut hwithin (Or.inl rfl) rfl rfl false
  exact ⟨_, _, _, n, openNode, closeNode, entries, hcut, hwithin, Or.inl rfl, rfl, rfl, h⟩

end Conversion

end CondMarkup
