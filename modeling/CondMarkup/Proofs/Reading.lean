import CondMarkup.Code.Program
import CondMarkup.Proofs.Lexis
import CondMarkup.Proofs.SourceText
import CondMarkup.Proofs.Tokens

/-!
The parser that the program runs with gives trees of the kind that is relied on. What every reader comes
to lies between the place that it starts at and the one that it ends at, in order, and so the tree of a
text is regular, whatever the text.
-/

namespace CondMarkup.Reading

open Cursor Lexis

/-! ### What is read -/

section Reads

variable {α : Type} (span : α → Int × Int) (Regular : α → Prop)

/-- Something regular is read from one place to another. -/
structure ReadsOne (c : Cursor) (x : α) (stop : Cursor) : Prop where
  reaches : c.Reaches stop
  span_eq : span x = ((c.offset : Int), (stop.offset : Int))
  regular : Regular x

/-- Regular things are read between two places, one after another. -/
structure ReadsAll (c : Cursor) (xs : List α) (stop : Cursor) : Prop where
  reaches : c.Reaches stop
  inOrder : InOrder c.offset stop.offset (xs.map span)
  regular : ∀ x ∈ xs, Regular x

variable {span Regular} {c d e : Cursor} {x : α} {xs ys : List α}

theorem readsAll_nil (h : c.Reaches d) : ReadsAll span Regular c [] d :=
  ⟨h, Int.ofNat_le.mpr h.offset_le, by simp⟩

theorem ReadsOne.list (h : ReadsOne span Regular c x d) : ReadsAll span Regular c [x] d := by
  refine ⟨h.reaches, ?_, List.forall_mem_singleton.mpr h.regular⟩
  rw [List.map_singleton, h.span_eq]
  exact ⟨Int.le_refl _, Int.ofNat_le.mpr h.reaches.offset_le, Int.le_refl _⟩

theorem ReadsAll.append (h : ReadsAll span Regular c xs d) (h' : ReadsAll span Regular d ys e) :
    ReadsAll span Regular c (xs ++ ys) e := by
  refine ⟨h.reaches.trans h'.reaches, ?_, List.forall_mem_append.mpr ⟨h.regular, h'.regular⟩⟩
  rw [List.map_append]
  exact h.inOrder.append h'.inOrder

theorem ReadsOne.cons (h : ReadsOne span Regular c x d) (h' : ReadsAll span Regular d xs e) :
    ReadsAll span Regular c (x :: xs) e := h.list.append h'

/-- Something may be passed over before what is read. -/
theorem ReadsAll.after (h : ReadsAll span Regular d xs e) (hd : c.Reaches d) :
    ReadsAll span Regular c xs e := (readsAll_nil hd).append h

theorem ReadsAll.before (h : ReadsAll span Regular c xs d) (hd : d.Reaches e) :
    ReadsAll span Regular c xs e := by
  have h' := h.append (readsAll_nil hd)
  rwa [List.append_nil] at h'

end Reads

abbrev ReadsToken := ReadsOne Token.span Token.Regular

abbrev ReadsTokens := ReadsAll Token.span Token.Regular

abbrev ReadsNode := ReadsOne GrammarNode.span GrammarNode.Regular

abbrev ReadsNodes := ReadsAll GrammarNode.span GrammarNode.Regular

variable {language : Language} {c d stop : Cursor}

/-! ### Tokens without tokens within -/

theorem readsToken_leaf {kind : TokenKind} {freshLine : Bool} (h : c.Reaches stop)
    (hkind : ∀ node, kind ≠ .markup node) : ReadsToken c (leaf kind c stop freshLine).1 stop :=
  ⟨h, rfl, Token.regular_leaf h.offset_le hkind⟩

theorem readsToken_of_plainToken? {p : Position} {freshLine : Bool} {t : Token}
    (h : plainToken? p freshLine c = some (t, stop)) : ReadsToken c t stop := by
  have hleaf : ∀ {kind : TokenKind} {d : Cursor}, c.Reaches d → (∀ node, kind ≠ .markup node) →
      some (leaf kind c d freshLine) = some (t, stop) → ReadsToken c t stop := by
    intro kind d hd hkind h
    obtain ⟨rfl, rfl⟩ := Prod.mk.inj (Option.some.inj h)
    exact readsToken_leaf hd hkind
  rw [plainToken?] at h
  split at h
  · rename_i d hd
    exact hleaf (reaches_of_string? hd) (by simp) h
  split at h
  · rename_i d hd
    rw [Option.ite_none_right_eq_some] at hd
    exact hleaf (reaches_of_regex? hd.2) (by simp) h
  split at h
  · rename_i d hd
    exact hleaf (reaches_of_number? hd) (by simp) h
  split at h
  · rename_i d hd
    exact hleaf (reaches_of_name? hd) (by simp) h
  · rw [Option.map_eq_some_iff] at h
    obtain ⟨m, _, h⟩ := h
    exact hleaf (reaches_skip m.length c) (by simp) (congrArg some h)

theorem reaches_of_commentAt? {p : Position} (h : commentAt? p c = some d) : c.Reaches d := by
  rw [commentAt?] at h
  split at h
  · rename_i stop hstop
    exact Option.some.inj h ▸ reaches_of_comment? hstop
  · rw [Option.ite_none_right_eq_some] at h
    exact reaches_of_documentComment? h.2

/-- A token of the tokens within brackets. -/
theorem readsToken_group {kind : TokenKind} {freshLine : Bool} {ts : List Token}
    (h : ReadsTokens c ts stop)
    (hkind : (Token.mk kind c.offset stop.offset freshLine ts).isComment = false)
    (hmarkup : ∀ node, kind ≠ .markup node) :
    ReadsToken c (.mk kind c.offset stop.offset freshLine ts) stop := by
  refine ⟨h.reaches, rfl,
    .intro h.inOrder (fun node hnode => absurd hnode (hmarkup node)) ?_ h.regular⟩
  rw [hkind]
  exact nofun

/-- A piece of markup is a token in its place. -/
theorem readsToken_markup {n : GrammarNode} {freshLine : Bool} (h : ReadsNode c n stop)
    (hfield : n.field = none) (htype : n.type ≠ "import_statement") :
    ReadsToken c (leaf (.markup n) c stop freshLine).1 stop := by
  refine ⟨h.reaches, rfl, .intro (Int.ofNat_le.mpr h.reaches.offset_le) ?_ (fun _ => rfl)
    (by simp [leaf, Token.inner])⟩
  intro node hnode
  obtain rfl := TokenKind.markup.inj hnode
  exact ⟨h.span_eq, h.regular, hfield, htype⟩

/-! ### Names, attributes and tags -/

theorem reaches_of_tagWord? (h : tagWord? c = some d) : c.Reaches d := by
  rw [tagWord?, Option.ite_none_right_eq_some] at h
  exact Option.some.inj h.2 ▸ reaches_skipWhile _ c

theorem reaches_restOfTagName (joints : List Char) (c : Cursor) (fuel : Nat) :
    c.Reaches (restOfTagName joints c fuel).1 := by
  fun_induction restOfTagName joints c fuel with
  | case2 c fuel next x tail _ _ after hafter stop colon hstop ih =>
    rw [hstop] at ih
    exact (reaches_trivia _ _).trans ((reaches_skip 1 next).trans ((reaches_trivia _ _).trans
      ((reaches_of_tagWord? hafter).trans ih)))
  | _ => exact .refl _

theorem readsNode_leaf {type : String} {field : Option String} (h : c.Reaches stop) :
    ReadsNode c (.mk type c.offset stop.offset true field []) stop :=
  ⟨h, rfl, GrammarNode.regular_leaf h.offset_le⟩

section Leaves

variable {n : GrammarNode}

theorem readsNode_of_tagName? {field : Option String} (h : tagName? field c = some (n, stop)) :
    ReadsNode c n stop ∧ n.field = field := by
  obtain ⟨after, hafter, h⟩ := Option.bind_eq_some_iff.mp h
  obtain ⟨rfl, rfl⟩ := Prod.mk.inj (Option.some.inj h)
  exact ⟨readsNode_leaf ((reaches_of_tagWord? hafter).trans (reaches_restOfTagName _ _ _)), rfl⟩

theorem readsNode_of_attributeName? (h : attributeName? c = some (n, stop)) :
    ReadsNode c n stop ∧ n.field = none := by
  obtain ⟨after, hafter, h⟩ := Option.bind_eq_some_iff.mp h
  obtain ⟨rfl, rfl⟩ := Prod.mk.inj (Option.some.inj h)
  exact ⟨readsNode_leaf ((reaches_of_tagWord? hafter).trans (reaches_restOfTagName [':'] after 1)), rfl⟩

theorem readsNode_of_attributeString? (h : attributeString? c = some (n, stop)) :
    ReadsNode c n stop ∧ n.field = none := by
  rw [attributeString?] at h
  split at h
  · rw [Option.ite_none_right_eq_some] at h
    obtain ⟨_, h⟩ := h
    dsimp only at h
    rw [Option.ite_none_left_eq_some] at h
    obtain ⟨rfl, rfl⟩ := Prod.mk.inj (Option.some.inj h.2)
    exact ⟨readsNode_leaf ((reaches_skip 1 c).trans
      ((reaches_skipWhile _ _).trans (reaches_skip 1 _))), rfl⟩
  · cases h

theorem readsNode_of_closingTag? (h : closingTag? c = some (n, stop)) :
    ReadsNode c n stop ∧ n.field = some "close_tag" := by
  obtain ⟨first, hfirst, h⟩ := Option.bind_eq_some_iff.mp h
  obtain ⟨last, hlast, h⟩ := Option.bind_eq_some_iff.mp h
  obtain ⟨rfl, rfl⟩ := Prod.mk.inj (Option.some.inj h)
  have hinner : c.Reaches (trivia first c.rest.length) :=
    (reaches_of_skipOver? hfirst).trans (reaches_trivia _ _)
  refine ⟨readsNode_leaf (hinner.trans (.trans ?_ (reaches_of_skipOver? hlast))), rfl⟩
  split
  · rename_i name after hname
    exact (readsNode_of_tagName? hname).1.reaches.trans (reaches_trivia _ _)
  · exact .refl _

end Leaves

/-! ### Nodes with children -/

/-- An expression in braces. -/
theorem readsNode_braces {field : Option String} {ts : List Token} (h : ReadsTokens c ts stop) :
    ReadsNode c (.mk "jsx_expression" c.offset stop.offset true field (Expression.node? ts).toList)
      stop := by
  have hnode : ∀ e ∈ Expression.node? ts, e.Regular ∧ e.field = none ∧ e.type ≠ "import_statement" ∧
      InOrder c.offset stop.offset [e.span] := fun e he =>
    Expression.regular_of_node? h.inOrder (Int.natCast_nonneg _) h.regular he
  refine ⟨h.reaches, rfl, ?_⟩
  cases he : Expression.node? ts with
  | none => exact GrammarNode.regular_leaf h.reaches.offset_le
  | some e =>
    obtain ⟨hregular, hfield, htype, hplaced⟩ := hnode e he
    refine .intro (GrammarNode.orderedAt_of_inOrder hplaced ?_) (fun _ => ?_) ?_
    · exact List.forall_mem_singleton.mpr (by simp [hfield])
    · exact List.forall_mem_singleton.mpr htype
    · exact List.forall_mem_singleton.mpr hregular

/-- The parts of a tag: its name and its attributes, or nothing in a fragment. -/
def AreTagParts (parts : List GrammarNode) : Prop :=
  parts = [] ∨ ∃ name others, parts = name :: others ∧ name.field = some "name" ∧
    ∀ a ∈ others, a.field = some "attribute"

/-- The attributes of a tag stand after its name. -/
theorem readsNode_tag {type : String} {field : Option String} {parts : List GrammarNode}
    (h : ReadsNodes c parts stop) (hparts : AreTagParts parts) (htype : type ≠ "jsx_expression") :
    ReadsNode c (.mk type c.offset stop.offset true field parts) stop := by
  have hfields : ∀ {openTag : GrammarNode},
      (GrammarNode.mk type c.offset stop.offset true field parts).child? "open_tag" ≠ some openTag := by
    intro openTag hopen
    have hmem := GrammarNode.mem_children_of_child? hopen
    have hfield := GrammarNode.field_of_child? hopen
    rcases hparts with rfl | ⟨name, others, rfl, hname, hothers⟩
    · exact absurd hmem List.not_mem_nil
    · rcases List.mem_cons.mp hmem with rfl | hmem
      · simp [hname] at hfield
      · simp [hothers _ hmem] at hfield
  refine ⟨h.reaches, rfl, .intro ⟨h.inOrder, ?_, ?_⟩ (fun h => absurd h htype) h.regular⟩
  · exact fun _ _ _ hopen => absurd hopen hfields
  · intro _ n hn a ha
    obtain ⟨ha, hfield⟩ := List.mem_filter.mp ha
    rcases hparts with rfl | ⟨name, others, rfl, hname, hothers⟩
    · exact absurd ha List.not_mem_nil
    rw [GrammarNode.child?, GrammarNode.children, List.find?_cons_of_pos (by simpa using hname)] at hn
    obtain rfl := Option.some.inj hn
    obtain ⟨_, _, hbehind⟩ := h.inOrder
    rcases List.mem_cons.mp ha with rfl | ha
    · simp [hname] at hfield
    · exact Int.ofNat_le.mp (InOrder.of_mem hbehind (List.mem_map_of_mem ha)).1

theorem readsNode_attribute {field : Option String} {parts : List GrammarNode}
    (h : ReadsNodes c parts stop) (hfields : ∀ n ∈ parts, n.field = none) :
    ReadsNode c (.mk "jsx_attribute" c.offset stop.offset true field parts) stop := by
  refine ⟨h.reaches, rfl, .intro (GrammarNode.orderedAt_of_inOrder h.inOrder fun n hn => ?_)
    (fun htype => absurd htype (by simp [GrammarNode.type])) h.regular⟩
  rw [hfields n hn]
  simp

/-- The tags of an element stand around what is in it. -/
theorem readsNode_between {field : Option String} {openTag closeTag : GrammarNode}
    {inner : List GrammarNode} (h : ReadsNodes c (openTag :: (inner ++ [closeTag])) stop)
    (hopen : openTag.field = some "open_tag") (hinner : ∀ n ∈ inner, n.field = none)
    (hclose : closeTag.field = some "close_tag") :
    ReadsNode c (.mk "jsx_element" c.offset stop.offset true field (openTag :: (inner ++ [closeTag])))
      stop := by
  refine ⟨h.reaches, rfl, .intro ⟨h.inOrder, ?_, ?_⟩
    (fun htype => absurd htype (by simp [GrammarNode.type])) h.regular⟩
  · intro first last _ hfirst hlast
    rw [GrammarNode.child?, GrammarNode.children,
      List.find?_cons_of_pos (by simpa using hopen)] at hfirst
    have hnone : ∀ n ∈ inner, ¬ n.field = some "close_tag" := by
      intro n hn
      simp [hinner n hn]
    have hlast' : some closeTag = some last := by
      rw [← hlast, GrammarNode.child?, GrammarNode.children, List.find?_cons_of_neg (by simp [hopen]),
        List.find?_append, List.find?_eq_none.mpr (by simpa using hnone), Option.none_or,
        List.find?_cons_of_pos (by simpa using hclose)]
    exact ⟨hfirst, by rw [GrammarNode.children, ← List.cons_append, List.getLast?_concat, hlast']⟩
  · intro _ n hn
    have hfield := GrammarNode.field_of_child? hn
    have hmem := GrammarNode.mem_children_of_child? hn
    rw [GrammarNode.children, List.mem_cons, List.mem_append, List.mem_singleton] at hmem
    rcases hmem with rfl | hmem | rfl
    · simp [hopen] at hfield
    · simp [hinner n hmem] at hfield
    · simp [hclose] at hfield

/-! ### One step of reading -/

/-- What the readers come to that are given some fuel. -/
structure Reads (language : Language) (fuel : Nat) : Prop where
  tokens : ∀ {closing : Option Char} {p : Position} {freshLine : Bool} {c stop : Cursor}
      {ts : List Token},
    Reading.tokens language closing p freshLine c fuel = some (ts, stop) → ReadsTokens c ts stop
  token : ∀ {p : Position} {freshLine : Bool} {c stop : Cursor} {t : Token},
    Reading.token language p freshLine c fuel = some (t, stop) → ReadsToken c t stop
  template : ∀ {c stop : Cursor} {ts : List Token},
    Reading.template language c fuel = some (ts, stop) → ReadsTokens c ts stop
  types : ∀ {extended : Bool} {c stop : Cursor} {ts : List Token},
    Reading.types language extended c fuel = some (ts, stop) → ReadsTokens c ts stop
  element : ∀ {c stop : Cursor} {n : GrammarNode},
    Reading.element language none c fuel = some (n, stop) →
      ReadsNode c n stop ∧ n.field = none ∧ n.type ≠ "import_statement"
  attributes : ∀ {c stop : Cursor} {ns : List GrammarNode},
    Reading.attributes language c fuel = some (ns, stop) →
      ReadsNodes c ns stop ∧ ∀ n ∈ ns, n.field = some "attribute"
  attributeValue : ∀ {c stop : Cursor} {n : GrammarNode},
    Reading.attributeValue language c fuel = some (n, stop) → ReadsNode c n stop ∧ n.field = none
  expression : ∀ {field : Option String} {c stop : Cursor} {n : GrammarNode},
    Reading.expression language field c fuel = some (n, stop) → ReadsNode c n stop ∧ n.field = field
  body : ∀ {c stop : Cursor} {ns : List GrammarNode},
    Reading.body language c fuel = some (ns, stop) → ReadsNodes c ns stop ∧
      ∃ inner tag, ns = inner ++ [tag] ∧ (∀ n ∈ inner, n.field = none) ∧ tag.field = some "close_tag"

theorem reads_zero : Reads language 0 where
  tokens h := by cases h
  token h := by cases h
  template h := by cases h
  types h := by cases h
  element h := by cases h
  attributes h := by cases h
  attributeValue h := by cases h
  expression h := by cases h
  body h := by cases h

section Step

variable {fuel : Nat} (ih : Reads language fuel)
include ih

theorem readsTokens_tokens {closing : Option Char} {p : Position} {freshLine : Bool} {ts : List Token}
    (h : tokens language closing p freshLine c (fuel + 1) = some (ts, stop)) :
    ReadsTokens c ts stop := by
  have hcons : ∀ {t : Token} {rest : Cursor}, ReadsToken c t rest →
      (do let read ← tokens language closing (p.after t) false rest fuel
          return (t :: read.1, read.2)) = some (ts, stop) → ReadsTokens c ts stop := by
    intro t rest ht h
    obtain ⟨⟨us, last⟩, hus, h⟩ := Option.bind_eq_some_iff.mp h
    obtain ⟨rfl, rfl⟩ := Prod.mk.inj (Option.some.inj h)
    exact ht.cons (ih.tokens hus)
  rw [tokens] at h
  split at h
  · rw [Option.ite_none_right_eq_some] at h
    obtain ⟨rfl, rfl⟩ := Prod.mk.inj (Option.some.inj h.2)
    exact readsAll_nil (.refl c)
  split at h
  · exact (ih.tokens h).after (reaches_skipWhile _ c)
  split at h
  · obtain ⟨rfl, rfl⟩ := Prod.mk.inj (Option.some.inj h)
    exact readsAll_nil (reaches_skip 1 c)
  split at h
  · cases h
  dsimp only at h
  split at h
  · rename_i d hd
    exact hcons (readsToken_leaf (reaches_of_commentAt? hd) (by simp)) h
  · obtain ⟨⟨t, rest⟩, ht, h⟩ := Option.bind_eq_some_iff.mp h
    exact hcons (ih.token ht) h

theorem readsToken_token {p : Position} {freshLine : Bool} {t : Token}
    (h : token language p freshLine c (fuel + 1) = some (t, stop)) : ReadsToken c t stop := by
  rw [token] at h
  split at h
  · cases h
  split at h
  · obtain ⟨⟨ts, d⟩, hts, h⟩ := Option.bind_eq_some_iff.mp h
    obtain ⟨rfl, rfl⟩ := Prod.mk.inj (Option.some.inj h)
    exact readsToken_group ((ih.tokens hts).after (reaches_skip 1 c)) rfl (by simp)
  split at h
  · obtain ⟨⟨ts, d⟩, hts, h⟩ := Option.bind_eq_some_iff.mp h
    obtain ⟨rfl, rfl⟩ := Prod.mk.inj (Option.some.inj h)
    exact readsToken_group ((ih.template hts).after (reaches_skip 1 c)) rfl (by simp)
  split at h
  · split at h
    · rename_i node d hnode
      rw [Option.ite_none_right_eq_some] at hnode
      obtain ⟨rfl, rfl⟩ := Prod.mk.inj (Option.some.inj h)
      obtain ⟨hread, hfield, htype⟩ := ih.element hnode.2
      exact readsToken_markup hread hfield htype
    split at h
    · rename_i ts d hts
      split at h
      · obtain ⟨rfl, rfl⟩ := Prod.mk.inj (Option.some.inj h)
        exact readsToken_group ((ih.types hts).after (reaches_skip 1 c)) rfl (by simp)
      · exact readsToken_of_plainToken? h
    · exact readsToken_of_plainToken? h
  · exact readsToken_of_plainToken? h

theorem readsTokens_template {ts : List Token} (h : template language c (fuel + 1) = some (ts, stop)) :
    ReadsTokens c ts stop := by
  rw [template] at h
  split at h
  · cases h
  · exact (ih.template h).after (reaches_skip 2 c)
  · obtain ⟨rfl, rfl⟩ := Prod.mk.inj (Option.some.inj h)
    exact readsAll_nil (reaches_skip 1 c)
  · obtain ⟨⟨ts, rest⟩, hts, h⟩ := Option.bind_eq_some_iff.mp h
    obtain ⟨⟨others, last⟩, hothers, h⟩ := Option.bind_eq_some_iff.mp h
    obtain ⟨rfl, rfl⟩ := Prod.mk.inj (Option.some.inj h)
    exact ((ih.tokens hts).after (reaches_skip 2 c)).append (ih.template hothers)
  · exact (ih.template h).after (reaches_skip 1 c)

theorem readsTokens_types {extended : Bool} {ts : List Token}
    (h : types language extended c (fuel + 1) = some (ts, stop)) : ReadsTokens c ts stop := by
  have hcons : ∀ {t : Token} {rest : Cursor}, ReadsToken c t rest →
      (if fitsTypes extended t then do
          let read ← types language (extended || t.isWord "extends") rest fuel
          return (t :: read.1, read.2)
        else none) = some (ts, stop) → ReadsTokens c ts stop := by
    intro t rest ht h
    rw [Option.ite_none_right_eq_some] at h
    obtain ⟨⟨us, last⟩, hus, h⟩ := Option.bind_eq_some_iff.mp h.2
    obtain ⟨rfl, rfl⟩ := Prod.mk.inj (Option.some.inj h)
    exact ht.cons (ih.types hus)
  rw [types] at h
  split at h
  · cases h
  split at h
  · exact (ih.types h).after (reaches_skipWhile _ c)
  split at h
  · obtain ⟨rfl, rfl⟩ := Prod.mk.inj (Option.some.inj h)
    exact readsAll_nil (reaches_skip 1 c)
  split at h
  · cases h
  dsimp only at h
  split at h
  · rename_i d hd
    obtain ⟨_, ⟨rfl⟩, h⟩ := Option.bind_eq_some_iff.mp h
    refine hcons ?_ h
    exact readsToken_leaf (reaches_of_comment? hd) (by simp)
  split at h
  · obtain ⟨⟨us, d⟩, hus, h⟩ := Option.bind_eq_some_iff.mp h
    obtain ⟨_, ⟨rfl⟩, h⟩ := Option.bind_eq_some_iff.mp h
    refine hcons ?_ h
    exact readsToken_group ((ih.types hus).after (reaches_skip 1 c)) rfl (by simp)
  · obtain ⟨⟨t, rest⟩, ht, h⟩ := Option.bind_eq_some_iff.mp h
    exact hcons (ih.token ht) h

/-- What is read of an element after the parts of its first tag. -/
theorem readsNode_afterParts {n : GrammarNode} {parts : List GrammarNode}
    (hread : ReadsNodes c parts d) (hparts : AreTagParts parts)
    (h : (match d.skipOver? "/>" with
      | some stop =>
        if parts.isEmpty then none
        else some (.mk "jsx_self_closing_element" c.offset stop.offset true none parts, stop)
      | none => do
        let rest ← d.skipOver? ">"
        let openTag : GrammarNode :=
          .mk "jsx_opening_element" c.offset rest.offset true (some "open_tag") parts
        let (children, stop) ← body language rest fuel
        return (.mk "jsx_element" c.offset stop.offset true none (openTag :: children), stop)) =
          some (n, stop)) :
    ReadsNode c n stop ∧ n.field = none ∧ n.type ≠ "import_statement" := by
  split at h
  · rename_i e he
    rw [Option.ite_none_left_eq_some] at h
    obtain ⟨rfl, rfl⟩ := Prod.mk.inj (Option.some.inj h.2)
    exact ⟨readsNode_tag (hread.before (reaches_of_skipOver? he)) hparts (by decide), rfl,
      by simp [GrammarNode.type]⟩
  · obtain ⟨rest, hrest, h⟩ := Option.bind_eq_some_iff.mp h
    obtain ⟨⟨children, e⟩, hchildren, h⟩ := Option.bind_eq_some_iff.mp h
    obtain ⟨rfl, rfl⟩ := Prod.mk.inj (Option.some.inj h)
    obtain ⟨hbody, inner, closeTag, rfl, hinner, hclose⟩ := ih.body hchildren
    have hopen : ReadsNode c
        (.mk "jsx_opening_element" c.offset rest.offset true (some "open_tag") parts) rest :=
      readsNode_tag (hread.before (reaches_of_skipOver? hrest)) hparts (by decide)
    exact ⟨readsNode_between (hopen.cons hbody) rfl hinner hclose, rfl, by simp [GrammarNode.type]⟩

theorem readsNode_element {n : GrammarNode}
    (h : element language none c (fuel + 1) = some (n, stop)) :
    ReadsNode c n stop ∧ n.field = none ∧ n.type ≠ "import_statement" := by
  have hinner := (reaches_skip 1 c).trans (reaches_trivia (c.skip 1) c.rest.length)
  rw [element] at h
  dsimp only at h
  split at h
  · exact readsNode_afterParts ih (readsAll_nil hinner) (.inl rfl) h
  · rename_i name after hname
    obtain ⟨hread, hfield⟩ := readsNode_of_tagName? hname
    obtain ⟨⟨others, d⟩, hothers, h⟩ := Option.bind_eq_some_iff.mp h
    obtain ⟨hattributes, hfields⟩ := ih.attributes hothers
    refine readsNode_afterParts ih ?_ (.inr ⟨name, others, rfl, hfield, hfields⟩) h
    -- type arguments after the name are passed over
    refine (hread.cons (hattributes.after ?_)).after hinner
    have hnext := reaches_trivia after c.rest.length
    split
    · split
      · rename_i types e htypes
        exact hnext.trans ((reaches_skip 1 _).trans (ih.types htypes).reaches)
      · exact .refl after
    · exact .refl after

theorem readsNodes_attributes {ns : List GrammarNode}
    (h : attributes language c (fuel + 1) = some (ns, stop)) :
    ReadsNodes c ns stop ∧ ∀ n ∈ ns, n.field = some "attribute" := by
  have hcons : ∀ {n : GrammarNode} {d rest : Cursor}, c.Reaches d → ReadsNode d n rest →
      n.field = some "attribute" →
      (do let read ← attributes language rest fuel
          return (n :: read.1, read.2)) = some (ns, stop) →
      ReadsNodes c ns stop ∧ ∀ n ∈ ns, n.field = some "attribute" := by
    intro n d rest hd hn hfield h
    obtain ⟨⟨others, last⟩, hothers, h⟩ := Option.bind_eq_some_iff.mp h
    obtain ⟨rfl, rfl⟩ := Prod.mk.inj (Option.some.inj h)
    obtain ⟨hread, hfields⟩ := ih.attributes hothers
    exact ⟨(hn.cons hread).after hd, List.forall_mem_cons.mpr ⟨hfield, hfields⟩⟩
  rw [attributes] at h
  have hnext := reaches_trivia c c.rest.length
  dsimp only at h
  split at h
  · obtain ⟨⟨spread, rest⟩, hspread, h⟩ := Option.bind_eq_some_iff.mp h
    obtain ⟨hread, hfield⟩ := ih.expression hspread
    exact hcons hnext hread hfield h
  split at h
  · obtain ⟨rfl, rfl⟩ := Prod.mk.inj (Option.some.inj h)
    exact ⟨readsAll_nil hnext, by simp⟩
  · rename_i name after hname
    obtain ⟨hread, hfield⟩ := readsNode_of_attributeName? hname
    split at h
    · obtain ⟨_, ⟨rfl⟩, h⟩ := Option.bind_eq_some_iff.mp h
      exact hcons hnext (readsNode_attribute hread.list (by simp [hfield])) rfl h
    · rename_i start hstart
      obtain ⟨⟨value, rest⟩, hvalue, h⟩ := Option.bind_eq_some_iff.mp h
      obtain ⟨_, ⟨rfl⟩, h⟩ := Option.bind_eq_some_iff.mp h
      obtain ⟨hvalue, hvalueField⟩ := ih.attributeValue hvalue
      have hequals : after.Reaches (trivia start c.rest.length) :=
        (reaches_trivia _ _).trans ((reaches_of_skipOver? hstart).trans (reaches_trivia _ _))
      exact hcons hnext (readsNode_attribute (hread.cons (hvalue.list.after hequals))
        (by simp [hfield, hvalueField])) rfl h

theorem readsNode_attributeValue {n : GrammarNode}
    (h : attributeValue language c (fuel + 1) = some (n, stop)) :
    ReadsNode c n stop ∧ n.field = none := by
  rw [attributeValue] at h
  split at h
  · exact ih.expression h
  · exact (ih.element h).imp_right And.left
  · exact readsNode_of_attributeString? h

theorem readsNode_expression {field : Option String} {n : GrammarNode}
    (h : expression language field c (fuel + 1) = some (n, stop)) :
    ReadsNode c n stop ∧ n.field = field := by
  rw [expression] at h
  obtain ⟨⟨ts, d⟩, hts, h⟩ := Option.bind_eq_some_iff.mp h
  obtain ⟨rfl, rfl⟩ := Prod.mk.inj (Option.some.inj h)
  exact ⟨readsNode_braces ((ih.tokens hts).after (reaches_skip 1 c)), rfl⟩

theorem readsNodes_body {ns : List GrammarNode}
    (h : body language c (fuel + 1) = some (ns, stop)) : ReadsNodes c ns stop ∧
      ∃ inner tag, ns = inner ++ [tag] ∧ (∀ n ∈ inner, n.field = none) ∧
        tag.field = some "close_tag" := by
  have hcons : ∀ {child : GrammarNode} {rest : Cursor}, ReadsNode c child rest ∧ child.field = none →
      (do let read ← body language rest fuel
          return (child :: read.1, read.2)) = some (ns, stop) → ReadsNodes c ns stop ∧
      ∃ inner tag, ns = inner ++ [tag] ∧ (∀ n ∈ inner, n.field = none) ∧
        tag.field = some "close_tag" := by
    rintro child rest ⟨hchild, hfield⟩ h
    obtain ⟨⟨others, last⟩, hothers, h⟩ := Option.bind_eq_some_iff.mp h
    obtain ⟨rfl, rfl⟩ := Prod.mk.inj (Option.some.inj h)
    obtain ⟨hread, inner, tag, rfl, hinner, htag⟩ := ih.body hothers
    exact ⟨hchild.cons hread, child :: inner, tag, rfl, List.forall_mem_cons.mpr ⟨hfield, hinner⟩, htag⟩
  rw [body] at h
  split at h
  · obtain ⟨⟨tag, d⟩, htag, h⟩ := Option.bind_eq_some_iff.mp h
    obtain ⟨rfl, rfl⟩ := Prod.mk.inj (Option.some.inj h)
    obtain ⟨hread, hfield⟩ := readsNode_of_closingTag? htag
    exact ⟨hread.list, [], tag, rfl, by simp, hfield⟩
  · obtain ⟨⟨child, rest⟩, hchild, h⟩ := Option.bind_eq_some_iff.mp h
    exact hcons ((ih.element hchild).imp_right And.left) h
  · obtain ⟨⟨child, rest⟩, hchild, h⟩ := Option.bind_eq_some_iff.mp h
    exact hcons (ih.expression hchild) h
  · obtain ⟨d, hd, h⟩ := Option.bind_eq_some_iff.mp h
    exact (ih.body h).imp_left (ReadsAll.after · (reaches_of_reference? hd))
  · rw [Option.ite_none_right_eq_some] at h
    exact (ih.body h.2).imp_left (ReadsAll.after · (reaches_skipWhile _ c))
  · cases h

end Step

theorem reads (language : Language) (fuel : Nat) : Reads language fuel := by
  induction fuel with
  | zero => exact reads_zero
  | succ fuel ih =>
    exact {
      tokens := readsTokens_tokens ih
      token := readsToken_token ih
      template := readsTokens_template ih
      types := readsTokens_types ih
      element := readsNode_element ih
      attributes := readsNodes_attributes ih
      attributeValue := readsNode_attributeValue ih
      expression := readsNode_expression ih
      body := readsNodes_body ih }

end CondMarkup.Reading

/-! ### Trees of texts -/

namespace CondMarkup

open Cursor

variable (language : Language) (t : Text)

theorem reaches_interpreterLine (c : Cursor) : c.Reaches (interpreterLine c) := by
  rw [interpreterLine]
  split
  · exact Lexis.reaches_endOfLine c
  · exact .refl c

/-- The tokens of a text lie in the text. -/
theorem inOrder_regular_of_tokensOf? {ts : List Token} (h : tokensOf? language t = some ts) :
    InOrder 0 (Utf8.encode t).length (ts.map Token.span) ∧ ∀ u ∈ ts, u.Regular := by
  obtain ⟨⟨_, stop⟩, htokens, rfl⟩ := Option.map_eq_some_iff.mp h
  have hread := ((Reading.reads language _).tokens htokens).after (reaches_interpreterLine (.ofText t))
  have hstop := hread.reaches.offset_add_length
  refine ⟨hread.inOrder.widen (Int.le_refl _) (Int.ofNat_le.mpr ?_), hread.regular⟩
  rw [← Nat.zero_add (Utf8.encode t).length]
  exact Nat.le.intro hstop

theorem GrammarTree.stop_ofText :
    (GrammarTree.ofText language t).root.stop = (Utf8.encode t).length := by
  have hread := (reaches_skip t.length (.ofText t)).offset_add_length
  have hrest : ((Cursor.ofText t).skip t.length).rest = [] := by
    rw [rest_skip]
    exact List.drop_length
  rw [hrest] at hread
  exact hread.trans (Nat.zero_add _)

/-- The tree of a text is regular. -/
theorem GrammarTree.regular_ofText : (GrammarTree.ofText language t).root.Regular := by
  have htokens : InOrder 0 (Utf8.encode t).length (((tokensOf? language t).getD []).map Token.span) ∧
      ∀ u ∈ (tokensOf? language t).getD [], u.Regular := by
    cases h : tokensOf? language t with
    | none => exact ⟨Int.natCast_nonneg _, by simp⟩
    | some ts => exact inOrder_regular_of_tokensOf? language t h
  have hyields : Token.Yields 0 (Utf8.encode t).length ((tokensOf? language t).getD [])
      (Token.nodesAll false 0 ((tokensOf? language t).getD [])) :=
    Token.yields_of_regular htokens.1 (Int.le_refl 0) htokens.2
  have hstop := GrammarTree.stop_ofText language t
  refine .intro (GrammarNode.orderedAt_of_inOrder ?_ fun c hc => ?_)
    (fun h => absurd h (by simp [ofText, GrammarNode.type])) fun c hc => (hyields.regular c hc).1
  · rw [hstop]
    exact hyields.inOrder
  · rw [(hyields.regular c hc).2]
    simp

/-- The parser that the program runs with keeps to what is relied on, whatever it reads. -/
theorem GrammarTree.isTreeOf_ofText : (GrammarTree.ofText language t).IsTreeOf t where
  wellFormed := (regular_ofText language t).wellFormed
  plainRoot := Conversion.not_isSpecialType_of_program rfl
  within := Nat.le_of_eq (stop_ofText language t)
  braces _ hg := ((regular_ofText language t).of_within hg).braces

end CondMarkup
