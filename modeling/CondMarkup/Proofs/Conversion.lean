import CondMarkup.Proofs.Failure
import CondMarkup.Markup.Conversion

/-!
The conversion of a grammar tree as a relation. `Converts t inTag g n` says that the grammar node `g`
becomes the node `n`, where `inTag` tells whether `g` stands among the attributes of a tag. There is
one rule for each form that a node may take, so what all converted trees have in common is shown by
induction on the rules. The values that nodes get are left open. The rules are read off `convertWith`,
which is one level of the conversion: `convert_eq` says that the conversion goes from level to level.
-/

namespace CondMarkup.Conversion

/-- What a tag with a name is made of: the name and the list of the attributes. -/
def tagParts (t : Text) (tag name : GrammarNode) (value : String) (attributes : List Node) :
    List Node :=
  [inPlace t name .identifier [] (some value),
    attributeList t name (tag.childrenIn "attribute") attributes]

/-- The list between two tags. -/
def listBetween (t : Text) (openTag closeTag : GrammarNode) (entries : List Node) : Node :=
  spanned t openTag.stop closeTag.start { kind := .syntaxList, typeName := "SyntaxList" } entries

abbrev isElementType (type : String) : Prop := type = "jsx_element" ∨ type = "jsx_fragment"

/-- The types of grammar nodes whose parts are rearranged or that get their value from a part. -/
abbrev isSpecialType (type : String) : Prop :=
  isElementType type ∨ type = "jsx_self_closing_element" ∨ type = "jsx_attribute" ∨
    type = "import_statement"

theorem not_isSpecialType_of_program {type : String} (h : type = "program") :
    ¬ isSpecialType type := by
  subst h
  decide

/-- The children of an element apart from its tags and from what is text in a body. -/
def solidChildren (g : GrammarNode) : List GrammarNode :=
  (g.childrenWithout ["open_tag", "close_tag"]).filter fun c => !isTextLike c.type

/-! ### One level at a time -/

section Level

variable (t : Text) (below : GrammarNode → Except Utf8.DecodeError Node)

/-- The parts of a tag, where `below` converts what is below it. -/
def tagPartsWith (tag : GrammarNode) : Except Utf8.DecodeError (List Node) :=
  match tag.child? "name" with
  | none => return []
  | some nameNode => do
    let name ← identifierOf t nameNode
    let converted ← (tag.childrenIn "attribute").mapM fun a =>
      if a.type = "jsx_expression" then do
        return inPlace t a .jsxSpreadAttribute (← a.children.mapM below)
      else below a
    return [name, attributeList t nameNode (tag.childrenIn "attribute") converted]

/-- The same for an element or fragment. -/
def elementWith (n : GrammarNode) : Except Utf8.DecodeError Node :=
  match n.child? "open_tag", n.child? "close_tag" with
  | some openTag, some closeTag => do
    let parts ← tagPartsWith t below openTag
    let entries ← bodyEntries t openTag.stop closeTag.start
      ((n.childrenWithout ["open_tag", "close_tag"]).map fun c => (c, below c))
    let list := listBetween t openTag closeTag entries
    if (openTag.child? "name").isNone then
      return inPlace t n .jsxFragment [inPlace t openTag .jsxOpeningFragment [], list,
        inPlace t closeTag .jsxClosingFragment []]
    else
      return inPlace t n .jsxElement [inPlace t openTag .jsxOpeningElement parts, list,
        inPlace t closeTag .jsxClosingElement []]
  | _, _ => do return inPlace t n .unknown (← n.children.mapM below)

def attributeWith (n : GrammarNode) : Except Utf8.DecodeError Node :=
  match n.namedChildren.head? with
  | none => return inPlace t n .jsxAttribute []
  | some nameNode => do
    let name ← identifierOf t nameNode
    match n.namedChildren.getLast? with
    | some valueNode =>
      if 1 < n.namedChildren.length then
        return inPlace t n .jsxAttribute [name, ← below valueNode]
      else return inPlace t n .jsxAttribute [name]
    | none => return inPlace t n .jsxAttribute [name]

def importWith (n : GrammarNode) : Except Utf8.DecodeError Node := do
  let children ← n.children.mapM below
  match n.child? "source" with
  | some source =>
    let module := unquote (← textOf t source)
    return inPlace t n .importDeclaration children (some (String.ofList module))
  | none => return inPlace t n .importDeclaration children

def plainWith (isRoot : Bool) (n : GrammarNode) : Except Utf8.DecodeError Node := do
  let value ← plainValue t n
  let node := inPlace t n (Kind.ofGrammarType n.type) (← n.children.mapM below) value
  if isRoot then return Node.fresh { node.info with start := 0, stop := t.length } node.children
  else return node

/-- One level of the conversion. -/
def convertWith (isRoot : Bool) (n : GrammarNode) : Except Utf8.DecodeError Node :=
  if isElementType n.type then elementWith t below n
  else if n.type = "jsx_self_closing_element" then do
    return inPlace t n .jsxSelfClosingElement (← tagPartsWith t below n)
  else if n.type = "jsx_attribute" then attributeWith t below n
  else if n.type = "import_statement" then importWith t below n
  else plainWith t below isRoot n

end Level

theorem convertTagParts_eq (t : Text) (tag : GrammarNode) :
    convertTagParts t tag = tagPartsWith t (convert t false) tag := by
  rw [convertTagParts, tagPartsWith]
  cases tag.child? "name" with
  | none => rfl
  | some nameNode => simp only [List.mapM_subtype, List.unattach_attach]

/-- The conversion goes from level to level. -/
theorem convert_eq (t : Text) (isRoot : Bool) (n : GrammarNode) :
    convert t isRoot n = convertWith t (convert t false) isRoot n := by
  rw [convert, convertWith, elementWith, attributeWith, importWith, plainWith]
  simp only [List.map_subtype, List.mapM_subtype, List.unattach_attach, convertTagParts_eq]
  split
  · cases n.child? "open_tag" <;> cases n.child? "close_tag" <;> rfl
  · split
    · rfl
    · split
      · cases n.namedChildren.head? with
        | none => rfl
        | some nameNode => cases n.namedChildren.getLast? <;> rfl
      · rfl

/-- The first levels below the root. -/
theorem convert_eq_repeat (t : Text) (depth : Nat) :
    convert t false = Nat.repeat (fun recur => convertWith t recur false) depth (convert t false) := by
  induction depth with
  | zero => rfl
  | succ depth ih =>
    rw [Nat.repeat, ← ih]
    exact funext (convert_eq t false)

/-- A node of no special type keeps its children. -/
theorem convert_of_plain {t : Text} {isRoot : Bool} {g : GrammarNode} (htype : ¬ isSpecialType g.type) :
    convert t isRoot g = plainWith t (convert t false) isRoot g := by
  have hnot : ∀ {p : Prop}, (p → isSpecialType g.type) → ¬ p := fun hp hq => htype (hp hq)
  rw [convert_eq, convertWith, if_neg (hnot Or.inl), if_neg (hnot fun h => Or.inr (Or.inl h)),
    if_neg (hnot fun h => Or.inr (Or.inr (Or.inl h))),
    if_neg (hnot fun h => Or.inr (Or.inr (Or.inr h)))]

/-! ### The rules -/

inductive Converts (t : Text) : Bool → GrammarNode → Node → Prop
  | element {g openTag closeTag name : GrammarNode} {value : String}
      {attributes solid : List (GrammarNode × Node)} {entries : List Node}
      (htype : isElementType g.type) (hopen : g.child? "open_tag" = some openTag)
      (hclose : g.child? "close_tag" = some closeTag) (hname : openTag.child? "name" = some name)
      (hattributes : attributes.map Prod.fst = openTag.childrenIn "attribute")
      (hconverted : ∀ p ∈ attributes, Converts t true p.1 p.2)
      (hsolid : solid.map Prod.fst = solidChildren g)
      (hparts : ∀ p ∈ solid, Converts t false p.1 p.2)
      (hentries : bodyEntries t openTag.stop closeTag.start (solid.map fun p => (p.1, .ok p.2)) =
        .ok entries) :
      Converts t false g (inPlace t g .jsxElement
        [inPlace t openTag .jsxOpeningElement
            (tagParts t openTag name value (attributes.map Prod.snd)),
          listBetween t openTag closeTag entries, inPlace t closeTag .jsxClosingElement []])
  | fragment {g openTag closeTag : GrammarNode} {solid : List (GrammarNode × Node)}
      {entries : List Node}
      (htype : isElementType g.type) (hopen : g.child? "open_tag" = some openTag)
      (hclose : g.child? "close_tag" = some closeTag) (hname : openTag.child? "name" = none)
      (hsolid : solid.map Prod.fst = solidChildren g)
      (hparts : ∀ p ∈ solid, Converts t false p.1 p.2)
      (hentries : bodyEntries t openTag.stop closeTag.start (solid.map fun p => (p.1, .ok p.2)) =
        .ok entries) :
      Converts t false g (inPlace t g .jsxFragment
        [inPlace t openTag .jsxOpeningFragment [], listBetween t openTag closeTag entries,
          inPlace t closeTag .jsxClosingFragment []])
  | unterminated {g : GrammarNode} {children : List (GrammarNode × Node)}
      (htype : isElementType g.type)
      (htags : g.child? "open_tag" = none ∨ g.child? "close_tag" = none)
      (hchildren : children.map Prod.fst = g.children)
      (hparts : ∀ p ∈ children, Converts t false p.1 p.2) :
      Converts t false g (inPlace t g .unknown (children.map Prod.snd))
  | selfClosing {g name : GrammarNode} {value : String} {attributes : List (GrammarNode × Node)}
      (htype : g.type = "jsx_self_closing_element") (hname : g.child? "name" = some name)
      (hattributes : attributes.map Prod.fst = g.childrenIn "attribute")
      (hconverted : ∀ p ∈ attributes, Converts t true p.1 p.2) :
      Converts t false g (inPlace t g .jsxSelfClosingElement
        (tagParts t g name value (attributes.map Prod.snd)))
  | selfClosingNameless {g : GrammarNode} (htype : g.type = "jsx_self_closing_element")
      (hname : g.child? "name" = none) : Converts t false g (inPlace t g .jsxSelfClosingElement [])
  | attributeNameless {g : GrammarNode} (htype : g.type = "jsx_attribute")
      (hnamed : g.namedChildren = []) : Converts t false g (inPlace t g .jsxAttribute [])
  | attributeName {g name : GrammarNode} {written : String} (htype : g.type = "jsx_attribute")
      (hnamed : g.namedChildren = [name]) :
      Converts t false g
        (inPlace t g .jsxAttribute [inPlace t name .identifier [] (some written)])
  | attributeValued {g name last : GrammarNode} {between : List GrammarNode} {written : String}
      {value : Node} (htype : g.type = "jsx_attribute")
      (hnamed : g.namedChildren = name :: (between ++ [last]))
      (hvalue : Converts t false last value) :
      Converts t false g
        (inPlace t g .jsxAttribute [inPlace t name .identifier [] (some written), value])
  | importStatement {g : GrammarNode} {children : List (GrammarNode × Node)}
      {module : Option String} (htype : g.type = "import_statement")
      (hchildren : children.map Prod.fst = g.children)
      (hparts : ∀ p ∈ children, Converts t false p.1 p.2) :
      Converts t false g (inPlace t g .importDeclaration (children.map Prod.snd) module)
  | plain {g : GrammarNode} {children : List (GrammarNode × Node)} {value : Option String}
      (htype : ¬ isSpecialType g.type) (hchildren : children.map Prod.fst = g.children)
      (hparts : ∀ p ∈ children, Converts t false p.1 p.2) :
      Converts t false g (inPlace t g (Kind.ofGrammarType g.type) (children.map Prod.snd) value)
  | spread {g : GrammarNode} {children : List (GrammarNode × Node)}
      (htype : g.type = "jsx_expression") (hchildren : children.map Prod.fst = g.children)
      (hparts : ∀ p ∈ children, Converts t false p.1 p.2) :
      Converts t true g (inPlace t g .jsxSpreadAttribute (children.map Prod.snd))
  | inTag {g : GrammarNode} {n : Node} (htype : g.type ≠ "jsx_expression")
      (h : Converts t false g n) : Converts t true g n

/-- A node of no special type becomes one of the kind that its type stands for. -/
theorem Converts.kind_eq {t : Text} {g : GrammarNode} {n : Node} (h : Converts t false g n)
    (htype : ¬ isSpecialType g.type) : n.kind = Kind.ofGrammarType g.type := by
  cases h with
  | element h => exact absurd (Or.inl h) htype
  | fragment h => exact absurd (Or.inl h) htype
  | unterminated h => exact absurd (Or.inl h) htype
  | selfClosing h => exact absurd (Or.inr (Or.inl h)) htype
  | selfClosingNameless h => exact absurd (Or.inr (Or.inl h)) htype
  | attributeNameless h => exact absurd (Or.inr (Or.inr (Or.inl h))) htype
  | attributeName h => exact absurd (Or.inr (Or.inr (Or.inl h))) htype
  | attributeValued h => exact absurd (Or.inr (Or.inr (Or.inl h))) htype
  | importStatement h => exact absurd (Or.inr (Or.inr (Or.inr h))) htype
  | plain => rfl

/-- The entries of a body depend only on the children that are not text, all of which are
converted. -/
theorem exists_solid_of_bodyEntries {t : Text} {f : GrammarNode → Except Utf8.DecodeError Node}
    {stop : Nat} : ∀ {cs : List GrammarNode} {start : Nat} {entries : List Node},
      bodyEntries t start stop (cs.map fun c => (c, f c)) = .ok entries →
      ∃ solid : List (GrammarNode × Node),
        solid.map Prod.fst = cs.filter (fun c => !isTextLike c.type) ∧
        (∀ p ∈ solid, f p.1 = .ok p.2) ∧
        bodyEntries t start stop (solid.map fun p => (p.1, .ok p.2)) = .ok entries := by
  intro cs
  induction cs with
  | nil =>
    intro start entries h
    exact ⟨[], rfl, by simp, h⟩
  | cons c rest ih =>
    intro start entries h
    rw [List.map_cons, bodyEntries] at h
    by_cases hc : isTextLike c.type = true
    · rw [if_pos hc] at h
      obtain ⟨solid, hfst, hall, hbody⟩ := ih h
      exact ⟨solid, by rw [hfst, List.filter_cons_of_neg (by simp [hc])], hall, hbody⟩
    · rw [if_neg hc] at h
      obtain ⟨text, htext, h⟩ := bind_eq_ok_iff.mp h
      obtain ⟨node, hnode, h⟩ := bind_eq_ok_iff.mp h
      obtain ⟨others, hothers, h⟩ := bind_eq_ok_iff.mp h
      rw [pure_eq_ok_iff] at h
      obtain ⟨solid, hfst, hall, hbody⟩ := ih hothers
      refine ⟨(c, node) :: solid, ?_, ?_, ?_⟩
      · rw [List.map_cons, hfst, List.filter_cons_of_pos (by simp [hc])]
      · intro p hp
        rcases List.mem_cons.mp hp with rfl | hp
        · exact hnode
        · exact hall p hp
      · rw [List.map_cons, bodyEntries, if_neg hc, htext, hbody, ← h]
        rfl

/-- Children that are converted one by one. -/
private theorem exists_converted {t : Text} {cs : List GrammarNode} {ns : List Node}
    (ih : ∀ c ∈ cs, ∀ n, convert t false c = .ok n → Converts t false c n)
    (h : cs.mapM (convert t false) = .ok ns) :
    ∃ pairs : List (GrammarNode × Node), pairs.map Prod.fst = cs ∧ pairs.map Prod.snd = ns ∧
      ∀ p ∈ pairs, Converts t false p.1 p.2 := by
  obtain ⟨pairs, hfst, hsnd, hall⟩ := exists_pairs_of_mapM h
  refine ⟨pairs, hfst, hsnd, fun p hp => ih p.1 ?_ p.2 (hall p hp)⟩
  rw [← hfst]
  exact List.mem_map_of_mem hp

/-- The parts of a tag, converted. -/
private theorem exists_tagParts {t : Text} {tag : GrammarNode} {parts : List Node}
    (ih : ∀ c, sizeOf c < sizeOf tag → ∀ n, convert t false c = .ok n → Converts t false c n)
    (h : tagPartsWith t (convert t false) tag = .ok parts) :
    (tag.child? "name" = none ∧ parts = []) ∨
      ∃ (name : GrammarNode) (value : String) (attributes : List (GrammarNode × Node)),
        tag.child? "name" = some name ∧
        parts = tagParts t tag name value (attributes.map Prod.snd) ∧
        attributes.map Prod.fst = tag.childrenIn "attribute" ∧
        ∀ p ∈ attributes, Converts t true p.1 p.2 := by
  rw [tagPartsWith] at h
  split at h
  · rename_i hname
    exact Or.inl ⟨hname, (pure_eq_ok_iff.mp h).symm⟩
  · rename_i nameNode hname
    obtain ⟨name, hident, h⟩ := bind_eq_ok_iff.mp h
    obtain ⟨converted, hconv, h⟩ := bind_eq_ok_iff.mp h
    obtain ⟨written, _, hident⟩ := bind_eq_ok_iff.mp hident
    rw [pure_eq_ok_iff] at hident h
    obtain ⟨attributes, hfst, hsnd, hall⟩ := exists_pairs_of_mapM hconv
    refine Or.inr ⟨nameNode, String.ofList written, attributes, hname, ?_, hfst, ?_⟩
    · rw [← h, ← hident, hsnd]
      rfl
    · intro p hp
      have hmem : p.1 ∈ tag.childrenIn "attribute" := by
        rw [← hfst]
        exact List.mem_map_of_mem hp
      have hsize : sizeOf p.1 < sizeOf tag :=
        GrammarNode.sizeOf_lt_of_mem_children (GrammarNode.mem_children_of_mem_childrenIn hmem)
      have hp' := hall p hp
      by_cases htype : p.1.type = "jsx_expression"
      · rw [if_pos htype] at hp'
        obtain ⟨children, hchildren, hp'⟩ := bind_eq_ok_iff.mp hp'
        obtain ⟨pairs, hpfst, hpsnd, hpall⟩ := exists_pairs_of_mapM hchildren
        rw [← pure_eq_ok_iff.mp hp', ← hpsnd]
        refine Converts.spread htype hpfst fun q hq => ih q.1 ?_ q.2 (hpall q hq)
        have hq' : q.1 ∈ p.1.children := by
          rw [← hpfst]
          exact List.mem_map_of_mem hq
        exact Nat.lt_trans (GrammarNode.sizeOf_lt_of_mem_children hq') hsize
      · rw [if_neg htype] at hp'
        exact Converts.inTag htype (ih p.1 hsize p.2 hp')

/-- A node with more than one entry in a list, and what lies between the first and the last. -/
private theorem exists_between {α : Type} {xs : List α} {first last : α} (hfirst : xs.head? = some first)
    (hlast : xs.getLast? = some last) (hlen : 1 < xs.length) :
    ∃ between, xs = first :: (between ++ [last]) := by
  cases xs with
  | nil => simp at hfirst
  | cons x rest =>
    rw [List.head?_cons, Option.some.injEq] at hfirst
    subst hfirst
    obtain ⟨between, hb⟩ : ∃ between, rest = between ++ [last] := by
      cases rest with
      | nil => simp at hlen
      | cons y ys =>
        rw [List.getLast?_cons_cons] at hlast
        exact List.getLast?_eq_some_iff.mp hlast
    exact ⟨between, by rw [hb]⟩

section Forms

variable {t : Text} {g : GrammarNode} {n : Node}
  (ih : ∀ c, sizeOf c < sizeOf g → ∀ n, convert t false c = .ok n → Converts t false c n)
include ih

private theorem converts_child {c : GrammarNode} (hc : c ∈ g.children) {m : Node}
    (h : convert t false c = .ok m) : Converts t false c m :=
  ih c (GrammarNode.sizeOf_lt_of_mem_children hc) m h

private theorem converts_element (htype : isElementType g.type) (h : convert t false g = .ok n) :
    Converts t false g n := by
  rw [convert_eq, convertWith, if_pos htype, elementWith] at h
  split at h
  · rename_i openTag closeTag hopen hclose
    obtain ⟨parts, hparts, h⟩ := bind_eq_ok_iff.mp h
    obtain ⟨entries, hentries, h⟩ := bind_eq_ok_iff.mp h
    obtain ⟨solid, hsolid, hall, hbody⟩ := exists_solid_of_bodyEntries hentries
    have hconv : ∀ p ∈ solid, Converts t false p.1 p.2 := by
      intro p hp
      have hps : p.1 ∈ solid.map Prod.fst := List.mem_map_of_mem hp
      rw [hsolid] at hps
      exact converts_child ih (GrammarNode.mem_children_of_mem_childrenWithout
        (List.mem_filter.mp hps).1) (hall p hp)
    have hopenSize : sizeOf openTag < sizeOf g :=
      GrammarNode.sizeOf_lt_of_mem_children (GrammarNode.mem_children_of_child? hopen)
    rcases exists_tagParts (fun c hc => ih c (Nat.lt_trans hc hopenSize)) hparts with
      ⟨hname, rfl⟩ | ⟨name, value, attributes, hname, rfl, hattributes, hconverted⟩
    · rw [if_pos (by rw [hname]; rfl), pure_eq_ok_iff] at h
      rw [← h]
      exact Converts.fragment htype hopen hclose hname hsolid hconv hbody
    · rw [if_neg (by rw [hname]; simp), pure_eq_ok_iff] at h
      rw [← h]
      exact Converts.element htype hopen hclose hname hattributes hconverted hsolid hconv hbody
  · rename_i htags
    obtain ⟨children, hchildren, h⟩ := bind_eq_ok_iff.mp h
    obtain ⟨pairs, hfst, hsnd, hall⟩ := exists_converted (fun c hc n => converts_child ih hc) hchildren
    rw [← pure_eq_ok_iff.mp h, ← hsnd]
    refine Converts.unterminated htype ?_ hfst hall
    cases ho : g.child? "open_tag" with
    | none => exact Or.inl rfl
    | some openTag =>
      cases hc : g.child? "close_tag" with
      | none => exact Or.inr rfl
      | some closeTag => exact absurd hc (fun hc => htags openTag closeTag ho hc)

private theorem converts_selfClosing (htype : g.type = "jsx_self_closing_element")
    (h : convert t false g = .ok n) : Converts t false g n := by
  rw [convert_eq, convertWith, if_neg (by rw [htype]; decide), if_pos htype] at h
  obtain ⟨parts, hparts, h⟩ := bind_eq_ok_iff.mp h
  rw [← pure_eq_ok_iff.mp h]
  rcases exists_tagParts ih hparts with
    ⟨hname, rfl⟩ | ⟨name, value, attributes, hname, rfl, hattributes, hconverted⟩
  · exact Converts.selfClosingNameless htype hname
  · exact Converts.selfClosing htype hname hattributes hconverted

/-- An attribute has a name and a value, each if there is a part for it. -/
private theorem converts_attribute (htype : g.type = "jsx_attribute")
    (h : convert t false g = .ok n) : Converts t false g n := by
  rw [convert_eq, convertWith, if_neg (by rw [htype]; decide), if_neg (by rw [htype]; decide),
    if_pos htype, attributeWith] at h
  split at h
  · rename_i hhead
    rw [← pure_eq_ok_iff.mp h]
    exact Converts.attributeNameless htype (List.head?_eq_none_iff.mp hhead)
  · rename_i nameNode hhead
    obtain ⟨name, hident, h⟩ := bind_eq_ok_iff.mp h
    obtain ⟨written, _, hident⟩ := bind_eq_ok_iff.mp hident
    rw [pure_eq_ok_iff] at hident
    subst hident
    split at h
    · rename_i valueNode hlast
      by_cases hlen : 1 < g.namedChildren.length
      · rw [if_pos hlen] at h
        obtain ⟨value, hvalue, h⟩ := bind_eq_ok_iff.mp h
        rw [← pure_eq_ok_iff.mp h]
        obtain ⟨between, hb⟩ := exists_between hhead hlast hlen
        have hmem := GrammarNode.mem_children_of_mem_namedChildren (List.mem_of_getLast? hlast)
        exact Converts.attributeValued htype hb (converts_child ih hmem hvalue)
      · rw [if_neg hlen] at h
        rw [← pure_eq_ok_iff.mp h]
        refine Converts.attributeName htype ?_
        obtain ⟨rest, hrest⟩ := List.head?_eq_some_iff.mp hhead
        rw [hrest, List.length_cons] at hlen
        rw [hrest, List.eq_nil_of_length_eq_zero (by omega : rest.length = 0)]
    · rename_i hlast
      rw [List.getLast?_eq_none_iff] at hlast
      rw [hlast] at hhead
      simp at hhead

private theorem converts_import (htype : g.type = "import_statement")
    (h : convert t false g = .ok n) : Converts t false g n := by
  rw [convert_eq, convertWith, if_neg (by rw [htype]; decide), if_neg (by rw [htype]; decide),
    if_neg (by rw [htype]; decide), if_pos htype, importWith] at h
  obtain ⟨children, hchildren, h⟩ := bind_eq_ok_iff.mp h
  obtain ⟨pairs, hfst, hsnd, hall⟩ := exists_converted (fun c hc n => converts_child ih hc) hchildren
  split at h
  · obtain ⟨module, _, h⟩ := bind_eq_ok_iff.mp h
    rw [← pure_eq_ok_iff.mp h, ← hsnd]
    exact Converts.importStatement htype hfst hall
  · rw [← pure_eq_ok_iff.mp h, ← hsnd]
    exact Converts.importStatement htype hfst hall

private theorem converts_plain (htype : ¬ isSpecialType g.type) (h : convert t false g = .ok n) :
    Converts t false g n := by
  rw [convert_of_plain htype, plainWith] at h
  obtain ⟨value, _, h⟩ := bind_eq_ok_iff.mp h
  obtain ⟨children, hchildren, h⟩ := bind_eq_ok_iff.mp h
  obtain ⟨pairs, hfst, hsnd, hall⟩ := exists_converted (fun c hc n => converts_child ih hc) hchildren
  rw [if_neg Bool.false_ne_true, pure_eq_ok_iff] at h
  rw [← h, ← hsnd]
  exact Converts.plain htype hfst hall

end Forms

/-- What `convert` returns below the root is what the rules say. -/
theorem converts_of_convert {t : Text} (g : GrammarNode) :
    ∀ {n : Node}, convert t false g = .ok n → Converts t false g n := by
  induction hk : sizeOf g using Nat.strongRecOn generalizing g with
  | ind k ih =>
    subst hk
    have ih' : ∀ c, sizeOf c < sizeOf g → ∀ n, convert t false c = .ok n → Converts t false c n :=
      fun c hc n hn => ih (sizeOf c) hc c rfl hn
    intro n h
    by_cases hspecial : isSpecialType g.type
    · rcases hspecial with htype | htype | htype | htype
      · exact converts_element ih' htype h
      · exact converts_selfClosing ih' htype h
      · exact converts_attribute ih' htype h
      · exact converts_import ih' htype h
    · exact converts_plain ih' hspecial h

/-- The root is converted like any other node, but if it keeps its children it spans the text. -/
theorem convert_root {t : Text} {g : GrammarNode} {n : Node} (h : convert t true g = .ok n) :
    ∃ m, Converts t false g m ∧
      ((isSpecialType g.type ∧ n = m) ∨ (¬ isSpecialType g.type ∧
        n = Node.fresh { m.info with start := 0, stop := t.length } m.children)) := by
  by_cases hspecial : isSpecialType g.type
  · have heq : convert t true g = convert t false g := by
      rw [convert_eq, convert_eq]
      rcases hspecial with htype | htype | htype | htype
      · rw [convertWith, if_pos htype, convertWith, if_pos htype]
      · simp only [convertWith, htype, String.reduceEq, if_false, if_true]
      · simp only [convertWith, htype, String.reduceEq, if_false, if_true]
      · simp only [convertWith, htype, String.reduceEq, if_false, if_true]
    rw [heq] at h
    exact ⟨n, converts_of_convert g h, Or.inl ⟨hspecial, rfl⟩⟩
  · rw [convert_of_plain hspecial, plainWith] at h
    obtain ⟨value, hvalue, h⟩ := bind_eq_ok_iff.mp h
    obtain ⟨children, hchildren, h⟩ := bind_eq_ok_iff.mp h
    rw [if_pos rfl, pure_eq_ok_iff] at h
    refine ⟨inPlace t g (Kind.ofGrammarType g.type) children value, ?_, Or.inr ⟨hspecial, h.symm⟩⟩
    refine converts_of_convert g ?_
    rw [convert_of_plain hspecial, plainWith]
    exact bind_eq_ok_iff.mpr ⟨value, hvalue, bind_eq_ok_iff.mpr ⟨children, hchildren, rfl⟩⟩

end CondMarkup.Conversion
