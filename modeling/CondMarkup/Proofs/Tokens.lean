import CondMarkup.Code.Expression
import CondMarkup.Proofs.Bodies

/-!
The nodes that tokens come to. Tokens stand in order, and so do the pieces of markup and the imports in
them: an import reaches over the tokens that belong to it, and these are passed over.
-/

namespace CondMarkup

/-! ### Regular trees -/

namespace GrammarNode

/-- A well-formed tree in which no import stands directly in braces. -/
inductive Regular : GrammarNode → Prop
  | intro {g : GrammarNode} (ordered : g.OrderedAt)
      (braces : g.type = "jsx_expression" → ∀ c ∈ g.children, c.type ≠ "import_statement")
      (below : ∀ c ∈ g.children, Regular c) : Regular g

variable {g : GrammarNode}

theorem Regular.wellFormed (h : g.Regular) : g.WellFormed := by
  induction h with
  | intro ordered _ _ ih => exact .intro ordered ih

theorem Regular.braces (h : g.Regular) (htype : g.type = "jsx_expression") :
    ∀ c ∈ g.children, c.type ≠ "import_statement" := by
  cases h with
  | intro _ braces _ => exact braces htype

theorem Regular.of_mem_children {c : GrammarNode} (h : g.Regular) (hc : c ∈ g.children) : c.Regular := by
  cases h with
  | intro _ _ below => exact below c hc

theorem Regular.of_within {root : GrammarNode} (h : root.Regular) (hg : g.Within root) : g.Regular := by
  induction hg with
  | root => exact h
  | child hc _ ih => exact ih (h.of_mem_children hc)

/-- Nothing but the order is asked of a node whose children are neither tags nor names. -/
theorem orderedAt_of_inOrder (h : InOrder g.start g.stop (g.children.map span))
    (hfields : ∀ c ∈ g.children, c.field ≠ some "open_tag" ∧ c.field ≠ some "name") : g.OrderedAt := by
  have hnone : ∀ {c : GrammarNode} {field : String}, g.child? field = some c →
      field ≠ "open_tag" ∧ field ≠ "name" := by
    intro c field hc
    have hc' := hfields c (mem_children_of_child? hc)
    rw [field_of_child? hc, ne_eq, Option.some.injEq, ne_eq, Option.some.injEq] at hc'
    exact hc'
  exact ⟨h, fun _ _ _ hopen => absurd rfl (hnone hopen).1, fun _ _ hname => absurd rfl (hnone hname).2⟩

/-- A node without children. -/
theorem regular_leaf {type : String} {start stop : Nat} {field : Option String} (h : start ≤ stop) :
    (mk type start stop true field []).Regular :=
  .intro (orderedAt_of_inOrder (Int.ofNat_le.mpr h) (by simp [children])) (by simp [children])
    (by simp [children])

end GrammarNode

/-! ### Regular tokens -/

namespace Token

def span (t : Token) : Int × Int := (t.start, t.stop)

/-- The tokens within stand in order, and a piece of markup is a regular tree in the place of its
token. -/
inductive Regular : Token → Prop
  | intro {t : Token} (inner : InOrder t.start t.stop (t.inner.map span))
      (markup : ∀ node, t.kind = .markup node → node.span = t.span ∧ node.Regular ∧
        node.field = none ∧ node.type ≠ "import_statement")
      (comment : t.isComment = true → t.inner = []) (below : ∀ u ∈ t.inner, Regular u) : Regular t

/-- A token without tokens within, other than markup. -/
theorem regular_leaf {kind : TokenKind} {start stop : Nat} {freshLine : Bool} (h : start ≤ stop)
    (hkind : ∀ node, kind ≠ .markup node) : (mk kind start stop freshLine []).Regular :=
  .intro (Int.ofNat_le.mpr h) (fun node hnode => absurd hnode (hkind node)) (fun _ => rfl)
    (fun _ hu => absurd hu List.not_mem_nil)

end Token

/-! ### Imports -/

namespace Imports

variable {keyword name last : Token} {rest after : List Token} {node : GrammarNode}

theorem exists_of_moduleName? {from? : Bool} (h : moduleName? from? rest = some (name, after)) :
    (∃ before, rest = before ++ name :: after) ∧ name.isComment = false := by
  have hcons : ∀ {t : Token} {rest : List Token}, (∃ before, rest = before ++ name :: after) →
      ∃ before, t :: rest = before ++ name :: after := by
    rintro t rest ⟨before, rfl⟩
    exact ⟨t :: before, rfl⟩
  fun_induction moduleName? from? rest with
  | case1 => cases h
  | case2 from? t rest form hkind ih => exact (ih h).imp_left hcons
  | case3 t rest hkind =>
    obtain ⟨rfl, rfl⟩ := Prod.mk.inj (Option.some.inj h)
    exact ⟨⟨[], rfl⟩, by rw [Token.isComment, hkind]⟩
  | case4 => cases h
  | case5 from? t rest w hkind ih => exact (ih h).imp_left hcons
  | case6 from? t rest hkind ih => exact (ih h).imp_left hcons
  | case7 from? t rest m hkind hm ih => exact (ih h).imp_left hcons
  | case8 => cases h
  | case9 => cases h

/-- What is left after comments is a part of the tokens. -/
theorem exists_of_dropWhile {p : Token → Bool} {ts : List Token} {t : Token}
    (h : ts.dropWhile p = t :: after) : (∃ before, ts = before ++ t :: after) ∧ p t = false := by
  refine ⟨⟨ts.takeWhile p, by rw [← h, List.takeWhile_append_dropWhile]⟩, ?_⟩
  have hhead := List.head?_dropWhile_not p ts
  rw [h, List.head?_cons] at hhead
  simpa using hhead

theorem exists_of_attributesEnd (h : attributesEnd name rest = (last, after))
    (hname : name.isComment = false) :
    (∃ before, name :: rest = before ++ last :: after) ∧ last.isComment = false := by
  have hself : (name, rest) = (last, after) →
      (∃ before, name :: rest = before ++ last :: after) ∧ last.isComment = false := by
    intro h
    obtain ⟨rfl, rfl⟩ := Prod.mk.inj h
    exact ⟨⟨[], rfl⟩, hname⟩
  rw [attributesEnd] at h
  split at h
  · rename_i w others hw
    split at h
    · rename_i g more hg
      split at h
      · obtain ⟨rfl, rfl⟩ := Prod.mk.inj h
        obtain ⟨⟨first, rfl⟩, _⟩ := exists_of_dropWhile hw
        obtain ⟨⟨second, rfl⟩, hcomment⟩ := exists_of_dropWhile hg
        exact ⟨⟨name :: (first ++ w :: second), by simp⟩, hcomment⟩
      · exact hself h
    · exact hself h
  · exact hself h

/-- An import ends where a token ends that is no comment. -/
theorem exists_stop_eq (hlast : last.isComment = false) :
    ∃ u ∈ last :: rest, u.isComment = false ∧ stop last rest = u.stop := by
  rw [stop]
  split
  · exact ⟨last, List.mem_cons_self, hlast, rfl⟩
  · cases hrest : rest.dropWhile Token.isComment with
    | nil => exact ⟨last, List.mem_cons_self, hlast, rfl⟩
    | cons u after =>
      obtain ⟨⟨before, rfl⟩, hu⟩ := exists_of_dropWhile hrest
      exact ⟨u, by simp, hu, rfl⟩

theorem exists_of_node? (h : node? keyword rest = some node) :
    ∃ before name after u, rest = before ++ name :: after ∧ u ∈ name :: after ∧
      u.isComment = false ∧ node = .mk "import_statement" keyword.start u.stop true none
        [.mk "string" name.start name.stop true (some "source") []] := by
  obtain ⟨⟨name, after⟩, hname, h⟩ := Option.bind_eq_some_iff.mp h
  obtain ⟨⟨before, hbefore⟩, hcomment⟩ := exists_of_moduleName? hname
  obtain ⟨⟨middle, hmiddle⟩, hlast⟩ := exists_of_attributesEnd rfl hcomment
  obtain ⟨u, hu, hcomment, hstop⟩ := exists_stop_eq hlast
  refine ⟨before, name, after, u, hbefore, ?_, hcomment, ?_⟩
  · rw [hmiddle]
    exact List.mem_append_right middle hu
  · rw [← Option.some.inj h, hstop]

end Imports

/-! ### Nodes in tokens -/

namespace Token

/-- The nodes stand in order, in no field, each over tokens that are no comments. -/
structure Yields (start stop : Int) (ts : List Token) (ns : List GrammarNode) : Prop where
  inOrder : InOrder start stop (ns.map GrammarNode.span)
  regular : ∀ n ∈ ns, n.Regular ∧ n.field = none
  cover : ∀ n ∈ ns, ∃ t ∈ ts, ∃ u ∈ ts, t.isComment = false ∧ u.isComment = false ∧
    t.start ≤ n.start ∧ n.stop ≤ u.stop

section Yields

variable {a b first last : Int} {ts us : List Token} {ns ms : List GrammarNode}

theorem yields_nil (h : a ≤ b) : Yields a b ts [] := ⟨h, by simp, by simp⟩

theorem Yields.widen (h : Yields a b ts ns) (hfirst : first ≤ a) (hlast : b ≤ last) (hts : ts ⊆ us) :
    Yields first last us ns := by
  refine ⟨h.inOrder.widen hfirst hlast, h.regular, fun n hn => ?_⟩
  obtain ⟨t, ht, u, hu, hover⟩ := h.cover n hn
  exact ⟨t, hts ht, u, hts hu, hover⟩

theorem Yields.append (h : Yields a b ts ns) (h' : Yields b last ts ms) :
    Yields a last ts (ns ++ ms) := by
  refine ⟨?_, List.forall_mem_append.mpr ⟨h.regular, h'.regular⟩,
    List.forall_mem_append.mpr ⟨h.cover, h'.cover⟩⟩
  rw [List.map_append]
  exact h.inOrder.append h'.inOrder

end Yields

variable {t : Token} {rest ts : List Token} {a b : Int} {covered : Nat} {isProperty : Bool}

/-- An import reaches from its keyword to a token after it. -/
theorem yields_import {node : GrammarNode} (hts : InOrder a b ((t :: rest).map span))
    (hcomment : t.isComment = false) (h : Imports.node? t rest = some node) :
    Yields t.start node.stop (t :: rest) [node] ∧
      (t.stop : Int) ≤ node.stop ∧ (node.stop : Int) ≤ b := by
  obtain ⟨before, name, after, u, rfl, hu, hucomment, rfl⟩ := Imports.exists_of_node? h
  obtain ⟨_, ht, hrest⟩ := hts
  have hafter : InOrder t.stop b ((name :: after).map span) := by
    rw [List.map_append] at hrest
    exact hrest.sublist (List.sublist_append_right _ _)
  obtain ⟨hname, hnameLe, hafter⟩ := hafter
  have hstop : (name.stop : Int) ≤ u.stop ∧ (u.stop : Int) ≤ b := by
    rcases List.mem_cons.mp hu with rfl | hu
    · exact ⟨Int.le_refl _, hafter.le⟩
    · obtain ⟨h₁, h₂, h₃⟩ := hafter.of_mem (List.mem_map_of_mem hu)
      exact ⟨Int.le_trans h₁ h₂, h₃⟩
  have hchild : InOrder t.start u.stop [((name.start : Int), (name.stop : Int))] :=
    ⟨Int.le_trans ht hname, hnameLe, hstop.1⟩
  refine ⟨⟨⟨Int.le_refl _, hchild.le, Int.le_refl _⟩, ?_, ?_⟩, ?_, hstop.2⟩
  · rw [List.forall_mem_singleton]
    refine ⟨.intro (GrammarNode.orderedAt_of_inOrder hchild ?_) ?_ ?_, rfl⟩
    · exact List.forall_mem_singleton.mpr (by simp [GrammarNode.field])
    · exact fun htype => absurd htype (by simp [GrammarNode.type])
    · exact List.forall_mem_singleton.mpr (GrammarNode.regular_leaf (Int.ofNat_le.mp hnameLe))
  · rw [List.forall_mem_singleton]
    exact ⟨t, List.mem_cons_self, u, List.mem_cons_of_mem t (List.mem_append_right before hu), hcomment,
      hucomment, Nat.le_refl _, Nat.le_refl _⟩
  · exact Int.le_trans hname (Int.le_trans hnameLe hstop.1)

theorem isComment_of_isWord {word : String} (h : t.isWord word = true) : t.isComment = false := by
  rw [isWord] at h
  rw [isComment]
  split at h
  · rename_i hkind
    rw [hkind]
  · cases h

/-- The nodes of a list of tokens are those of its tokens, imports put for those that they cover. -/
theorem yields_nodesAll (hts : InOrder a b (ts.map span)) (hcovered : covered ≤ b)
    (hyields : ∀ t ∈ ts, Yields t.start t.stop [t] t.nodes) :
    Yields (max a covered) b ts (nodesAll isProperty covered ts) := by
  induction ts generalizing a covered isProperty with
  | nil =>
    rw [nodesAll]
    exact yields_nil (Int.max_le.mpr ⟨hts, hcovered⟩)
  | cons t rest ih =>
    have hall := hts
    obtain ⟨ht, hspan, hrest⟩ := hts
    have ht : a ≤ t.start := ht
    have hspan : (t.start : Int) ≤ t.stop := hspan
    have hothers : ∀ {isProperty : Bool} {covered : Nat} {middle : Int}, (covered : Int) ≤ b →
        max (t.stop : Int) covered = middle →
        Yields middle b (t :: rest) (nodesAll isProperty covered rest) := by
      rintro isProperty covered middle hcovered rfl
      exact (ih hrest hcovered fun u hu => hyields u (List.mem_cons_of_mem t hu)).widen (Int.le_refl _)
        (Int.le_refl _) (List.subset_cons_self t rest)
    rw [nodesAll]
    by_cases hskip : t.start < covered
    · rw [if_pos hskip]
      exact (hothers hcovered rfl).widen (by omega) (Int.le_refl _) (List.Subset.refl _)
    rw [if_neg hskip]
    have hstart : max a covered ≤ t.start := by omega
    split
    · rename_i node hnode
      rw [Option.ite_none_right_eq_some, Bool.and_eq_true] at hnode
      obtain ⟨⟨hword, _⟩, hnode⟩ := hnode
      obtain ⟨himport, hstop, hle⟩ := yields_import hall (isComment_of_isWord hword) hnode
      exact (himport.widen hstart (Int.le_refl _) (List.Subset.refl _)).append
        (hothers hle (Int.max_eq_right hstop))
    · have hfirst := hyields t List.mem_cons_self
      exact (hfirst.widen hstart (Int.le_refl _) (by simp)).append
        (hothers hcovered (Int.max_eq_left (by omega)))

theorem nodes_of_markup {node : GrammarNode} (h : t.kind = .markup node) : t.nodes = [node] := by
  obtain ⟨kind, start, stop, freshLine, inner⟩ := t
  obtain rfl : kind = .markup node := h
  rw [nodes]

theorem nodes_of_not_markup (h : ∀ node, t.kind ≠ .markup node) :
    t.nodes = nodesAll false 0 t.inner := by
  obtain ⟨kind, start, stop, freshLine, inner⟩ := t
  rw [nodes]
  · rfl
  · exact h

/-- Nodes within a token that is no comment. -/
theorem yields_within {ns : List GrammarNode}
    (hinOrder : InOrder t.start t.stop (ns.map GrammarNode.span))
    (hregular : ∀ n ∈ ns, n.Regular ∧ n.field = none) (hcomment : ns ≠ [] → t.isComment = false) :
    Yields t.start t.stop [t] ns := by
  refine ⟨hinOrder, hregular, fun n hn => ?_⟩
  obtain ⟨hstart, _, hstop⟩ := hinOrder.of_mem (List.mem_map_of_mem hn)
  have hno := hcomment (List.ne_nil_of_mem hn)
  exact ⟨t, List.mem_singleton_self t, t, List.mem_singleton_self t, hno, hno, Int.ofNat_le.mp hstart,
    Int.ofNat_le.mp hstop⟩

/-- What a regular token comes to stands in its place. -/
theorem Regular.yields (h : t.Regular) : Yields t.start t.stop [t] t.nodes := by
  induction h with
  | @intro t inner markup comment below ih =>
    by_cases hkind : ∃ node, t.kind = .markup node
    · obtain ⟨node, hnode⟩ := hkind
      obtain ⟨hspan, hregular, hfield, _⟩ := markup node hnode
      have hplace : InOrder t.start t.stop [node.span] :=
        hspan ▸ ⟨Int.le_refl _, inner.le, Int.le_refl _⟩
      rw [nodes_of_markup hnode]
      exact yields_within hplace (List.forall_mem_singleton.mpr ⟨hregular, hfield⟩)
        fun _ => by rw [isComment, hnode]
    · have hyields : Yields (max (t.start : Int) (0 : Nat)) t.stop t.inner (nodesAll false 0 t.inner) :=
        yields_nodesAll inner (Int.natCast_nonneg t.stop) ih
      rw [nodes_of_not_markup fun node hnode => hkind ⟨node, hnode⟩]
      refine yields_within (hyields.inOrder.widen (by omega) (Int.le_refl _)) hyields.regular
        fun hne => ?_
      rw [Bool.eq_false_iff]
      intro hcomment
      rw [comment hcomment, nodesAll] at hne
      exact hne rfl

/-- The nodes of regular tokens in order. -/
theorem yields_of_regular (hts : InOrder a b (ts.map span)) (ha : 0 ≤ a)
    (hregular : ∀ t ∈ ts, t.Regular) : Yields a b ts (nodesAll isProperty 0 ts) := by
  have hyields : Yields (max a (0 : Nat)) b ts (nodesAll isProperty 0 ts) :=
    yields_nodesAll hts (Int.le_trans ha hts.le) fun t ht => (hregular t ht).yields
  exact hyields.widen (by omega) (Int.le_refl _) (List.Subset.refl _)

end Token

/-! ### Expressions -/

namespace Expression

/-- The types of nodes that are neither expressions in braces nor imports. -/
def IsPlainType (type : String) : Prop := type ≠ "jsx_expression" ∧ type ≠ "import_statement"

theorem isPlainType_of_typeByOperator {before : Option Token} {inType : Option Nat} {ts : List Token}
    {type : String} (h : typeByOperator before inType ts = some type) : IsPlainType type := by
  fun_induction typeByOperator before inType ts <;> grind [IsPlainType]

theorem isPlainType_typeOfSingle (t : Token) : IsPlainType (typeOfSingle t) := by
  rw [typeOfSingle]
  split <;> exact ⟨by decide, by decide⟩

theorem isPlainType_typeOf (ts : List Token) : IsPlainType (typeOf ts) := by
  unfold typeOf
  split
  · exact ⟨by decide, by decide⟩
  split
  · exact ⟨by decide, by decide⟩
  · exact isPlainType_typeOfSingle _
  split
  · exact ⟨by decide, by decide⟩
  split
  · exact ⟨by decide, by decide⟩
  cases h : typeByOperator none none _ with
  | none => exact ⟨by decide, by decide⟩
  | some type => exact isPlainType_of_typeByOperator h

section Node

variable {ts : List Token} {a b : Int} (hts : InOrder a b (ts.map Token.span)) (ha : 0 ≤ a)
  (hregular : ∀ t ∈ ts, t.Regular)
include hts ha hregular

/-- The node of an expression reaches from the first to the last of the tokens that are no comments. -/
theorem regular_of_filter {first : Token} {tail : List Token} {e : GrammarNode}
    (hfilter : (ts.filter fun t => !t.isComment) = first :: tail)
    (he : .mk (typeOf (first :: tail)) first.start (tail.getLast?.getD first).stop true none
      (Token.nodesAll false 0 ts) = e) :
    e.Regular ∧ e.field = none ∧ e.type ≠ "import_statement" ∧ InOrder a b [e.span] := by
  have hyields : Token.Yields a b ts (Token.nodesAll false 0 ts) :=
    Token.yields_of_regular hts ha hregular
  have hplaced : InOrder a b ((first :: tail).map Token.span) :=
    hfilter ▸ hts.sublist (List.filter_sublist.map Token.span)
  obtain ⟨last, hlast⟩ : ∃ last, (first :: tail).getLast? = some last :=
    ⟨_, List.getLast?_eq_some_getLast (List.cons_ne_nil first tail)⟩
  have hbetween : InOrder first.start last.stop ((first :: tail).map Token.span) :=
    hplaced.tighten (p := first.span) (q := last.span) rfl (by rw [List.getLast?_map, hlast]; rfl)
  have hwithin : InOrder first.start last.stop
      ((Token.nodesAll false 0 ts).map GrammarNode.span) := by
    have hmem : ∀ {t : Token}, t ∈ ts → t.isComment = false →
        t.span ∈ (first :: tail).map Token.span := by
      intro t ht hcomment
      rw [← hfilter]
      exact List.mem_map_of_mem (List.mem_filter.mpr ⟨ht, by simp [hcomment]⟩)
    refine hyields.inOrder.within hbetween.le fun p hp => ?_
    obtain ⟨n, hn, rfl⟩ := List.mem_map.mp hp
    obtain ⟨t, ht, u, hu, htcomment, hucomment, hstart, hstop⟩ := hyields.cover n hn
    exact ⟨Int.le_trans (hbetween.of_mem (hmem ht htcomment)).1 (Int.ofNat_le.mpr hstart),
      Int.le_trans (Int.ofNat_le.mpr hstop) (hbetween.of_mem (hmem hu hucomment)).2.2⟩
  obtain ⟨htype, htype'⟩ := isPlainType_typeOf (first :: tail)
  have hlastEq : tail.getLast?.getD first = last := by
    rw [List.getLast?_cons, Option.some.injEq] at hlast
    exact hlast
  rw [hlastEq] at he
  subst he
  refine ⟨.intro (GrammarNode.orderedAt_of_inOrder hwithin fun c hc => ?_)
    (fun h => absurd h htype) fun c hc => (hyields.regular c hc).1, rfl, htype', ?_⟩
  · rw [(hyields.regular c hc).2]
    simp
  · have hfirst := hplaced.of_mem (List.mem_map_of_mem List.mem_cons_self)
    have hlast := hplaced.of_mem (List.mem_map_of_mem (List.mem_of_getLast? hlast))
    exact ⟨hfirst.1, hbetween.le, hlast.2.2⟩

/-- An expression lies within its tokens, and so do the pieces of markup in it. -/
theorem regular_of_node? {e : GrammarNode} (h : node? ts = some e) :
    e.Regular ∧ e.field = none ∧ e.type ≠ "import_statement" ∧ InOrder a b [e.span] := by
  rw [node?] at h
  split at h
  · cases h
  · rename_i first tail hfilter
    split at h
    · rename_i node hkind
      obtain rfl := Option.some.inj h
      have hfirst : first ∈ ts := List.mem_of_mem_filter (hfilter ▸ List.mem_cons_self)
      have hplaced : InOrder a b [first.span] :=
        hts.sublist ((hfilter ▸ List.filter_sublist).map Token.span)
      cases hregular first hfirst with
      | intro _ markup _ _ =>
        obtain ⟨hspan, hnode, hfield, htype⟩ := markup node hkind
        exact ⟨hnode, hfield, htype, hspan ▸ hplaced⟩
    · exact regular_of_filter hts ha hregular hfilter (Option.some.inj h)

end Node

end Expression

end CondMarkup
