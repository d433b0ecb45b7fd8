import CondMarkup.Proofs.Conversion
import CondMarkup.Proofs.Numbering

/-!
The shape of converted trees. An element or fragment has an opening tag, a list and a closing tag, the
opening tag of an element has a name and a list of attributes, and a list of entries is found nowhere
else. No node of such a tree was made or copied.
-/

namespace CondMarkup

/-- What the kinds of the parts of a node are. -/
structure Shaped (info : NodeInfo) (parts : List NodeInfo) : Prop where
  element : info.kind = .jsxElement →
    parts.map NodeInfo.kind = [.jsxOpeningElement, .syntaxList, .jsxClosingElement]
  fragment : info.kind = .jsxFragment →
    parts.map NodeInfo.kind = [.jsxOpeningFragment, .syntaxList, .jsxClosingFragment]
  opening : info.kind = .jsxOpeningElement → parts.map NodeInfo.kind = [.identifier, .jsxAttributes]
  noList : info.kind.hasBody = false → .syntaxList ∉ parts.map NodeInfo.kind
  notMade : info.synthesized = false

namespace Kind

/-- Whether a node of the kind has parts of no particular kinds, lists excepted. -/
def isOrdinary (k : Kind) : Bool := !k.hasBody && k ≠ jsxOpeningElement

theorem isOrdinary_ofGrammarType (type : String) : (ofGrammarType type).isOrdinary = true := by
  unfold ofGrammarType
  split <;> rfl

theorem ofGrammarType_ne_syntaxList (type : String) : ofGrammarType type ≠ syntaxList := by
  unfold ofGrammarType
  split <;> decide

end Kind

theorem Shaped.of_isOrdinary {info : NodeInfo} {parts : List NodeInfo}
    (hkind : info.kind.isOrdinary = true) (hmade : info.synthesized = false)
    (hparts : .syntaxList ∉ parts.map NodeInfo.kind) : Shaped info parts := by
  simp only [Kind.isOrdinary, Kind.hasBody, Bool.and_eq_true, Bool.not_eq_true', Bool.or_eq_false_iff,
    decide_eq_false_iff_not, decide_eq_true_eq] at hkind
  obtain ⟨⟨helement, hfragment⟩, hopening⟩ := hkind
  exact ⟨fun h => absurd h helement, fun h => absurd h hfragment, fun h => absurd h hopening,
    fun _ => hparts, hmade⟩

/-- Nodes of two kinds are two nodes. -/
theorem exists_of_map_kind_eq_two {cs : List Node} {a b : Kind}
    (h : (cs.map Node.info).map NodeInfo.kind = [a, b]) :
    ∃ x y, cs = [x, y] ∧ x.kind = a ∧ y.kind = b := by
  rw [List.map_map] at h
  obtain ⟨x, rest, rfl, hx, h⟩ := List.map_eq_cons_iff.mp h
  obtain ⟨y, rest, rfl, hy, h⟩ := List.map_eq_cons_iff.mp h
  obtain rfl := List.map_eq_nil_iff.mp h
  exact ⟨x, y, rfl, hx, hy⟩

theorem exists_of_map_kind_eq_three {cs : List Node} {a b c : Kind}
    (h : (cs.map Node.info).map NodeInfo.kind = [a, b, c]) :
    ∃ x y z, cs = [x, y, z] ∧ x.kind = a ∧ y.kind = b ∧ z.kind = c := by
  cases cs with
  | nil => cases h
  | cons x rest =>
    rw [List.map_cons, List.map_cons, List.cons.injEq] at h
    obtain ⟨y, z, rfl, hy, hz⟩ := exists_of_map_kind_eq_two h.2
    exact ⟨x, y, z, rfl, h.1, hy, hz⟩

namespace Conversion

/-- A tree whose nodes have the right shape and no origins. -/
structure WellMade (n : Node) : Prop where
  shaped : n.Everywhere Shaped
  bare : ∀ m ∈ n.preorder, m.origin = none

@[simp] theorem kind_inPlace (t : Text) (g : GrammarNode) (k : Kind) (cs : List Node)
    (v : Option String) : (inPlace t g k cs v).kind = k := rfl

@[simp] theorem children_inPlace (t : Text) (g : GrammarNode) (k : Kind) (cs : List Node)
    (v : Option String) : (inPlace t g k cs v).children = cs := rfl

theorem wellMade_spanned {t : Text} {start stop : Nat} {info : NodeInfo} {children : List Node}
    (hshaped : Shaped info (children.map Node.info)) (hchildren : ∀ c ∈ children, WellMade c) :
    WellMade (spanned t start stop info children) := by
  constructor
  · rw [Node.everywhere_iff]
    refine ⟨?_, fun c hc => (hchildren c hc).shaped⟩
    exact ⟨hshaped.element, hshaped.fragment, hshaped.opening, hshaped.noList, hshaped.notMade⟩
  · intro m hm
    rcases Node.mem_preorder_iff.mp hm with rfl | ⟨c, hc, hmc⟩
    · rfl
    · exact (hchildren c hc).bare m hmc

theorem wellMade_of_isOrdinary {t : Text} {start stop : Nat} {info : NodeInfo}
    {children : List Node} (hkind : info.kind.isOrdinary = true) (hmade : info.synthesized = false)
    (hchildren : ∀ c ∈ children, c.kind ≠ .syntaxList ∧ WellMade c) :
    WellMade (spanned t start stop info children) := by
  refine wellMade_spanned (Shaped.of_isOrdinary hkind hmade ?_) fun c hc => (hchildren c hc).2
  intro hlist
  rw [List.map_map, List.mem_map] at hlist
  obtain ⟨c, hc, hk⟩ := hlist
  exact (hchildren c hc).1 hk

/-- A node without parts. -/
theorem wellMade_leaf {t : Text} {start stop : Nat} {info : NodeInfo}
    (hkind : info.kind.isOrdinary = true) (hmade : info.synthesized = false) :
    WellMade (spanned t start stop info []) :=
  wellMade_of_isOrdinary hkind hmade fun _ hc => absurd hc List.not_mem_nil

/-- A body holds texts and what the solid children become. -/
theorem mem_bodyEntries {t : Text} {stop : Nat} {c : Node} :
    ∀ {solid : List (GrammarNode × Node)} {start : Nat} {entries : List Node},
      bodyEntries t start stop (solid.map fun p => (p.1, .ok p.2)) = .ok entries → c ∈ entries →
      (∃ a b v, c = spanned t a b
        { kind := .jsxText, typeName := "jsx_text", value := some v } []) ∨
        c ∈ solid.map Prod.snd := by
  have htext : ∀ {a b : Nat} {text : List Node}, textBetween t a b = .ok text → c ∈ text →
      ∃ a b v, c = spanned t a b { kind := .jsxText, typeName := "jsx_text", value := some v } [] := by
    intro a b text h hc
    rw [textBetween] at h
    split at h
    · obtain ⟨v, _, h⟩ := bind_eq_ok_iff.mp h
      rw [← pure_eq_ok_iff.mp h, List.mem_singleton] at hc
      exact ⟨a, b, String.ofList v, hc⟩
    · rw [← pure_eq_ok_iff.mp h] at hc
      exact absurd hc List.not_mem_nil
  intro solid
  induction solid with
  | nil =>
    intro start entries h hc
    exact Or.inl (htext h hc)
  | cons p rest ih =>
    intro start entries h hc
    rw [List.map_cons, bodyEntries] at h
    split at h
    · rcases ih h hc with hc | hc
      · exact Or.inl hc
      · exact Or.inr (List.mem_cons_of_mem p.2 hc)
    · obtain ⟨text, ht, h⟩ := bind_eq_ok_iff.mp h
      obtain ⟨node, hnode, h⟩ := bind_eq_ok_iff.mp h
      obtain ⟨others, hothers, h⟩ := bind_eq_ok_iff.mp h
      rw [← pure_eq_ok_iff.mp h, List.mem_append, List.mem_cons] at hc
      rw [Except.ok.injEq] at hnode
      rcases hc with hc | rfl | hc
      · exact Or.inl (htext ht hc)
      · exact Or.inr (by rw [← hnode]; exact List.mem_cons_self)
      · rcases ih hothers hc with hc | hc
        · exact Or.inl hc
        · exact Or.inr (List.mem_cons_of_mem p.2 hc)

/-- The parts of a tag are well made if its attributes are. -/
theorem wellMade_tagParts {t : Text} {tag name : GrammarNode} {value : String}
    {attributes : List (GrammarNode × Node)}
    (h : ∀ p ∈ attributes, p.2.kind ≠ .syntaxList ∧ WellMade p.2) :
    ∀ c ∈ tagParts t tag name value (attributes.map Prod.snd),
      c.kind ≠ .syntaxList ∧ WellMade c := by
  intro c hc
  rw [tagParts, List.mem_cons, List.mem_singleton] at hc
  rcases hc with rfl | rfl
  · exact ⟨of_decide_eq_false rfl, wellMade_leaf rfl rfl⟩
  · refine ⟨of_decide_eq_false rfl, wellMade_of_isOrdinary rfl rfl fun c hc => ?_⟩
    obtain ⟨p, hp, rfl⟩ := List.mem_map.mp hc
    exact h p hp

theorem wellMade_listBetween {t : Text} {openTag closeTag : GrammarNode} {entries : List Node}
    {solid : List (GrammarNode × Node)}
    (hentries : bodyEntries t openTag.stop closeTag.start (solid.map fun p => (p.1, .ok p.2)) =
      .ok entries)
    (h : ∀ p ∈ solid, p.2.kind ≠ .syntaxList ∧ WellMade p.2) :
    WellMade (listBetween t openTag closeTag entries) := by
  refine wellMade_of_isOrdinary rfl rfl fun c hc => ?_
  rcases mem_bodyEntries hentries hc with ⟨a, b, v, rfl⟩ | hc
  · exact ⟨of_decide_eq_false rfl, wellMade_leaf rfl rfl⟩
  · obtain ⟨p, hp, rfl⟩ := List.mem_map.mp hc
    exact h p hp

/-- A node with three parts: a tag, a list, and a tag. -/
theorem wellMade_three {t : Text} {g : GrammarNode} {k : Kind} {a b c : Node}
    (hshaped : Shaped (inPlace t g k [a, b, c]).info ([a, b, c].map Node.info)) (ha : WellMade a)
    (hb : WellMade b) (hc : WellMade c) : WellMade (inPlace t g k [a, b, c]) := by
  refine wellMade_spanned ⟨hshaped.element, hshaped.fragment, hshaped.opening, hshaped.noList,
    hshaped.notMade⟩ fun d hd => ?_
  simp only [List.mem_cons, List.not_mem_nil, or_false] at hd
  rcases hd with rfl | rfl | rfl
  · exact ha
  · exact hb
  · exact hc

/-- A converted node is not a list, and its tree is well made. -/
theorem Converts.wellMade {t : Text} {inTag : Bool} {g : GrammarNode} {n : Node}
    (h : Converts t inTag g n) : n.kind ≠ .syntaxList ∧ WellMade n := by
  have hsnd : ∀ {ps : List (GrammarNode × Node)},
      (∀ p ∈ ps, p.2.kind ≠ .syntaxList ∧ WellMade p.2) →
      ∀ c ∈ ps.map Prod.snd, c.kind ≠ .syntaxList ∧ WellMade c := by
    intro ps hps c hc
    obtain ⟨p, hp, rfl⟩ := List.mem_map.mp hc
    exact hps p hp
  induction h with
  | element htype hopen hclose hname hattributes hconverted hsolid hparts hentries ihA ihS =>
    refine ⟨of_decide_eq_false rfl, wellMade_three ?_ ?_ (wellMade_listBetween hentries ihS)
      (wellMade_leaf rfl rfl)⟩
    · exact ⟨fun _ => rfl, (fun h => by cases h), (fun h => by cases h), (fun h => by cases h), rfl⟩
    · exact wellMade_spanned ⟨(fun h => by cases h), (fun h => by cases h), fun _ => rfl, fun _ => by
        simp [tagParts, inPlace, attributeList, spanned, Node.fresh, Node.info], rfl⟩
        fun c hc => (wellMade_tagParts ihA c hc).2
  | fragment htype hopen hclose hname hsolid hparts hentries ihS =>
    refine ⟨of_decide_eq_false rfl, wellMade_three ?_ (wellMade_leaf rfl rfl)
      (wellMade_listBetween hentries ihS) (wellMade_leaf rfl rfl)⟩
    exact ⟨(fun h => by cases h), fun _ => rfl, (fun h => by cases h), (fun h => by cases h), rfl⟩
  | unterminated htype htags hchildren hparts ih =>
    exact ⟨of_decide_eq_false rfl, wellMade_of_isOrdinary rfl rfl (hsnd ih)⟩
  | selfClosing htype hname hattributes hconverted ih =>
    exact ⟨of_decide_eq_false rfl, wellMade_of_isOrdinary rfl rfl (wellMade_tagParts ih)⟩
  | selfClosingNameless htype hname => exact ⟨of_decide_eq_false rfl, wellMade_leaf rfl rfl⟩
  | attributeNameless htype hnamed => exact ⟨of_decide_eq_false rfl, wellMade_leaf rfl rfl⟩
  | attributeName htype hnamed =>
    refine ⟨of_decide_eq_false rfl, wellMade_of_isOrdinary rfl rfl fun c hc => ?_⟩
    rw [List.mem_singleton] at hc
    subst hc
    exact ⟨of_decide_eq_false rfl, wellMade_leaf rfl rfl⟩
  | attributeValued htype hnamed hvalue ih =>
    refine ⟨of_decide_eq_false rfl, wellMade_of_isOrdinary rfl rfl fun c hc => ?_⟩
    rw [List.mem_cons, List.mem_singleton] at hc
    rcases hc with rfl | rfl
    · exact ⟨of_decide_eq_false rfl, wellMade_leaf rfl rfl⟩
    · exact ih
  | importStatement htype hchildren hparts ih =>
    exact ⟨of_decide_eq_false rfl, wellMade_of_isOrdinary rfl rfl (hsnd ih)⟩
  | plain htype hchildren hparts ih =>
    exact ⟨Kind.ofGrammarType_ne_syntaxList _,
      wellMade_of_isOrdinary (Kind.isOrdinary_ofGrammarType _) rfl (hsnd ih)⟩
  | spread htype hchildren hparts ih =>
    exact ⟨of_decide_eq_false rfl, wellMade_of_isOrdinary rfl rfl (hsnd ih)⟩
  | inTag htype h ih => exact ih

end Conversion

end CondMarkup
