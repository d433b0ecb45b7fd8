import CondMarkup.Proofs.Pairing
import CondMarkup.Proofs.Rules

/-!
Where the parts of an `<If>` lie in a source tree: its condition is below its opening tag, its entries
are those of its body, and the entries of its `<Else>` are those of the `<Else>` that follows it. From
this the rules of `Becomes` are derived from visits.
-/

namespace CondMarkup

open Expansion

namespace Node

theorem hasBody_of_isElse {n : Node} (h : n.isElse = true) : n.hasBody = true := by
  simp [hasBody, kind_of_isElementOf h, Kind.hasBody]

theorem moduleSpecifier_of_isElementOf {n : Node} {tag : String} (h : n.isElementOf tag = true) :
    n.moduleSpecifier = none := by
  simp [moduleSpecifier, kind_of_isElementOf h]

theorem isIf_eq_false_of_isElse {n : Node} (h : n.isElse = true) : n.isIf = false := by
  by_contra hif
  rw [Bool.not_eq_false] at hif
  rw [isElse_eq_false_of_isIf hif] at h
  cases h

theorem isIf_eq_false_of_import {n : Node} {module : String}
    (h : n.moduleSpecifier = some module) : n.isIf = false := by
  by_contra hif
  rw [Bool.not_eq_false] at hif
  rw [moduleSpecifier_of_isElementOf hif] at h
  cases h

/-- How the condition of an `<If>` is found: it is the first expression in the braces of the first
attribute named `condition`. -/
theorem condition_eq_ok_iff {n e : Node} :
    n.condition = .ok e ↔ ∃ a v, n.conditionAttribute = some a ∧ a.initializer = some v ∧
      v.kind = .jsxExpression ∧ v.expression = some e := by
  constructor
  · intro h
    rw [condition] at h
    split at h
    · cases h
    · rename_i a ha
      split at h
      · cases h
      · rename_i v hv
        split at h
        · cases h
        · rename_i hkind
          rw [not_not] at hkind
          split at h
          · cases h
          · rename_i e' he
            rw [Except.ok.injEq] at h
            exact ⟨a, v, ha, hv, hkind, h ▸ he⟩
  · rintro ⟨a, v, ha, hv, hkind, he⟩
    simp [condition, ha, hv, hkind, he]

/-- The condition lies below the opening tag, in an expression in braces. -/
theorem exists_of_condition {n e : Node} (h : n.condition = .ok e) :
    ∃ openTag, n.opening = some openTag ∧ ∃ v ∈ openTag.preorder, v.kind = .jsxExpression ∧
      e ∈ v.children := by
  obtain ⟨a, v, ha, hv, hkind, he⟩ := condition_eq_ok_iff.mp h
  obtain ⟨attributes, hattributes, ha⟩ := Option.bind_eq_some_iff.mp ha
  obtain ⟨openTag, hopen, hattributes⟩ := Option.bind_eq_some_iff.mp hattributes
  have hmem := mem_preorder_of_mem_children (List.mem_of_find?_eq_some hattributes)
  have hmemA := child_mem_preorder (List.mem_of_find?_eq_some ha) hmem
  rw [initializer] at hv
  split at hv
  · have hmemV := child_mem_preorder (List.mem_of_getLast? hv) hmemA
    rw [expression, if_pos (Or.inl hkind)] at he
    exact ⟨openTag, hopen, v, hmemV, hkind, List.mem_of_find?_eq_some he⟩
  · cases hv

theorem opening_mem_preorder {n openTag : Node} (h : n.opening = some openTag) :
    openTag ∈ n.preorder := by
  rw [opening] at h
  split at h
  · exact mem_preorder_of_mem_children (List.mem_of_head? h)
  · split at h
    · rw [Option.some.injEq] at h
      rw [← h]
      exact self_mem_preorder n
    · cases h

theorem size_condition_lt {n e : Node} (h : n.condition = .ok e) : e.size < n.size := by
  obtain ⟨openTag, hopen, v, hv, _, he⟩ := exists_of_condition h
  have hv' := size_le_of_mem_preorder hv
  have hopen' := size_le_of_mem_preorder (opening_mem_preorder hopen)
  have he' := size_lt_of_mem_children he
  omega

/-- The entries are the children of the second of three parts. -/
theorem exists_parts_of_entries {n : Node} {entries : List Node} (h : n.entries = .ok entries) :
    ∃ openTag list closeTag, n.children = [openTag, list, closeTag] ∧ entries = list.children := by
  rw [Node.entries] at h
  split at h
  · rename_i openTag list closeTag hcs
    split at h
    · cases h
    · split at h
      · exact ⟨openTag, list, closeTag, hcs, (Except.ok.inj h).symm⟩
      · cases h
  · cases h

/-- With the right parts, the entries are refused only for their kinds. -/
theorem entries_eq_ok_iff_of_parts {n openTag list closeTag : Node} {entries : List Node}
    (hcs : n.children = [openTag, list, closeTag]) (hlist : list.kind = .syntaxList) :
    n.entries = .ok entries ↔
      entries = list.children ∧ ∀ c ∈ list.children, c.kind.allowedInBody = true := by
  have hallowed : (list.children.filter fun c => !c.kind.allowedInBody) = [] ↔
      ∀ c ∈ list.children, c.kind.allowedInBody = true := by
    rw [List.filter_eq_nil_iff]
    simp
  rw [← hallowed, Node.entries, hcs]
  show (if list.kind ≠ .syntaxList then _ else _) = _ ↔ _
  rw [if_neg (not_not.mpr hlist)]
  cases list.children.filter fun c => !c.kind.allowedInBody with
  | nil =>
    rw [Except.ok.injEq]
    exact ⟨fun h => ⟨h.symm, rfl⟩, fun h => h.1.symm⟩
  | cons c rest =>
    constructor
    · intro h
      cases h
    · rintro ⟨_, h⟩
      cases h

/-- The kinds of the entries of a body. -/
def AllowedBody (n : Node) : Prop := ∀ c ∈ n.body, c.kind.allowedInBody = true

end Node

/-- The children of a node have their places. -/
theorem along_placed {root p : Node} {changes : List (Node × Change)} (hp : p ∈ root.preorder)
    (hfst : changes.map Prod.fst = p.children) :
    Along (fun following n _ => Placed root n following) (p.kind = .syntaxList) changes := by
  intro before n change after hsplit
  have hcs : p.children = before.map Prod.fst ++ n :: after.map Prod.fst := by
    rw [← hfst, hsplit, List.map_append, List.map_cons]
  simp only [decide_eq_true_eq]
  exact placed_of_children hp hcs

theorem mem_of_condition {root n e : Node} (hn : n ∈ root.preorder) (h : n.condition = .ok e) :
    ∃ v ∈ root.preorder, v.kind = .jsxExpression ∧ e ∈ v.children := by
  obtain ⟨openTag, hopen, v, hv, hkind, he⟩ := Node.exists_of_condition h
  have hmem := Node.mem_preorder_trans hv (Node.opening_mem_preorder hopen)
  exact ⟨v, Node.mem_preorder_trans hmem hn, hkind, he⟩

/-- The condition of an `<If>` is in no body. -/
theorem placed_condition {root n e : Node} (hn : n ∈ root.preorder) (h : n.condition = .ok e) :
    Placed root e [] := by
  obtain ⟨v, hv, hkind, he⟩ := mem_of_condition hn h
  obtain ⟨before, rest, hcs⟩ := List.append_of_mem he
  exact ⟨v, hv, before, rest, hcs, by rw [hkind]; rfl⟩

/-- Nodes with places, each visited, become what their visits come to. -/
theorem along_becomes {s : Setting} {root : Node} {fuel : Nat} {inBody : Bool}
    {changes : List (Node × Change)}
    (ih : ∀ n following change, Placed root n following →
      (visit s fuel n).outcome = .ok change → Becomes s following n change)
    (hplaced : Along (fun following n _ => Placed root n following) inBody changes)
    (hvisits : Visits (visit s fuel) changes) : Along (Becomes s) inBody changes := by
  intro before n change after hsplit
  exact ih n _ change (hplaced before n change after hsplit)
    (hvisits (n, change) (by rw [hsplit]; simp))

namespace SourceTree

variable {links : Links} {root : Node} (tree : SourceTree links root)
include tree

theorem entries_eq_ok_iff {n : Node} {entries : List Node} (hn : n ∈ root.preorder)
    (hbody : n.hasBody = true) :
    n.entries = .ok entries ↔ entries = n.body ∧ n.AllowedBody := by
  obtain ⟨openTag, list, closeTag, hcs, hlist, hb, _, _⟩ := tree.exists_list hn hbody
  rw [Node.AllowedBody, hb]
  exact Node.entries_eq_ok_iff_of_parts hcs hlist

/-- What the search for the entries of the second branch finds is the body of the `<Else>` that comes
next. -/
theorem laterBody_eq {following other : List Node} (hall : ∀ c ∈ following, c ∈ root.preorder)
    (h : Pairing.leadingElse following = .ok other) : laterBody following = other := by
  rw [leadingElse_eq_nextElse?] at h
  rw [laterBody]
  cases hnext : nextElse? following with
  | none =>
    rw [hnext] at h
    exact Except.ok.inj h
  | some e =>
    rw [hnext] at h
    have he := nextElse?_eq_some_iff.mp hnext
    exact ((tree.entries_eq_ok_iff (hall e he.mem)
      (Node.hasBody_of_isElse he.isElse)).mp h).1.symm

theorem after_eq {n : Node} {before rest : List Node} (hall : ∀ m ∈ before, m ∈ root.preorder)
    (hn : n ∈ root.preorder) (hnot : n ∉ before) :
    Pairing.after n (before ++ n :: rest) = some rest := by
  apply Pairing.after_append ((tree.same_iff hn hn).mpr rfl)
  intro m hm hsame
  exact hnot ((tree.same_iff (hall m hm) hn).mp hsame ▸ hm)

theorem nodup_body {n : Node} (hn : n ∈ root.preorder) : n.body.Nodup := by
  by_cases hbody : n.hasBody = true
  · obtain ⟨list, hl, _, hb⟩ := tree.list_mem hn hbody
    rw [hb]
    exact tree.nodup_children (Node.child_mem_preorder hl hn)
  · rw [Node.body_eq_nil hbody]
    exact List.nodup_nil

/-- In the body of its parent, a node is followed by the entries that it is placed in front of. -/
theorem after_body {n p : Node} {following : List Node} (hplaced : Placed root n following)
    (hp : p ∈ root.preorder) (hmem : n ∈ p.body) : Pairing.after n p.body = some following := by
  obtain ⟨before, hb⟩ := tree.following_of_body hplaced hp hmem
  have hnodup := tree.nodup_body hp
  rw [hb] at hnodup ⊢
  refine tree.after_eq (fun m hm => ?_) (mem_of_placed hplaced) ?_
  · exact tree.mem_of_mem_body hp (by rw [hb]; exact List.mem_append_left _ hm)
  · exact fun h => (List.nodup_append.mp hnodup).2.2 n h n List.mem_cons_self rfl

/-- The search in the body of the parent comes to what the entries after the `<If>` begin with, and to
a check of all entries of the parent. -/
theorem elseEntries_eq_ok_iff {n : Node} {following other : List Node}
    (hplaced : Placed root n following) :
    elseEntries links n = .ok other ↔
      (∀ p, n.markupParent links = some p → ∃ entries, p.entries = .ok entries) ∧
        Pairing.leadingElse following = .ok other := by
  have hn := mem_of_placed hplaced
  rw [elseEntries]
  cases hparent : n.markupParent links with
  | none =>
    rw [tree.following_eq_nil hplaced hparent, Pairing.leadingElse]
    simp
  | some p =>
    obtain ⟨hp, hmem⟩ := (tree.markupParent_eq_some_iff hn).mp hparent
    have hbody := Node.hasBody_of_mem_body hmem
    have hafter := tree.after_body hplaced hp hmem
    have hentries : ∀ es, p.entries = .ok es ↔ es = p.body ∧ p.AllowedBody := fun es =>
      tree.entries_eq_ok_iff hp hbody
    simp only [Option.some.injEq, forall_eq']
    rw [Pairing.elseBody, bind_eq_ok_iff]
    constructor
    · rintro ⟨es, hes, h⟩
      obtain ⟨rfl, _⟩ := (hentries es).mp hes
      rw [hafter] at h
      exact ⟨⟨p.body, hes⟩, h⟩
    · rintro ⟨⟨es, hes⟩, h⟩
      obtain ⟨rfl, _⟩ := (hentries es).mp hes
      exact ⟨p.body, hes, by rw [hafter]; exact h⟩

/-! ### From visits to rules -/

/-- The entries of a body have their places. -/
theorem along_placed_body {p : Node} {changes : List (Node × Change)} (hp : p ∈ root.preorder)
    (hfst : changes.map Prod.fst = p.body) :
    Along (fun following n _ => Placed root n following) true changes := by
  intro before n change after hsplit
  have hbody : p.body = before.map Prod.fst ++ n :: after.map Prod.fst := by
    rw [← hfst, hsplit, List.map_append, List.map_cons]
  exact tree.placed_of_body hp hbody

/-- The entries of the second branch are those of a body, or there are none. -/
theorem body_of_leadingElse {n : Node} {following other : List Node}
    (hplaced : Placed root n following) (h : Pairing.leadingElse following = .ok other) :
    other = [] ∨ ∃ e, StartsWithElse following e ∧ e ∈ root.preorder ∧ e.entries = .ok other ∧
      other = e.body := by
  rcases leadingElse_cases following with ⟨e, he, hsearch⟩ | ⟨_, hsearch⟩
  · have hmem := mem_of_following hplaced he.mem
    rw [hsearch] at h
    have hbody := Node.hasBody_of_isElse he.isElse
    exact Or.inr ⟨e, he, hmem, h, ((tree.entries_eq_ok_iff hmem hbody).mp h).1⟩
  · rw [hsearch, Except.ok.injEq] at h
    exact Or.inl h.symm

/-- What a visit of a node of the source comes to is what the rules say. -/
theorem becomes_of_visit {s : Setting} (hlinks : s.links = links) (fuel : Nat) :
    ∀ n following change, Placed root n following → (visit s fuel n).outcome = .ok change →
      Becomes s following n change := by
  induction fuel using Nat.strongRecOn with
  | ind fuel ih =>
    intro n following change hplaced h
    obtain ⟨less, rfl⟩ := exists_of_visit_eq_ok h
    have hn := mem_of_placed hplaced
    rcases visit_eq_ok_iff.mp h with ⟨himport, rfl⟩ | ⟨himport, hchecked, htreated⟩
    · exact .removeImport himport
    rcases htreated with ⟨hif, made, changes, hmade, hfst, hvisits, rfl⟩ |
      ⟨_, helse, hparent, rfl⟩ | ⟨hif, helse, changes, hfst, hvisits, rfl⟩
    · -- all parts of an `<If>` are visited with less fuel, so the induction covers each of them
      obtain ⟨f, rfl⟩ := Nat.exists_eq_add_of_le' (three_le_of_expandIf hmade hfst hvisits)
      obtain ⟨e, inner, yes, no, hcondition, hbody, hother, _, _, hinner, hyes, hno, hchange⟩ :=
        expandIf_eq_ok_iff.mp ⟨made, changes, hmade, hfst, hvisits, rfl⟩
      rw [hchange]
      rw [hlinks, tree.elseEntries_eq_ok_iff hplaced] at hother
      have hfuel : conditionFuel (f + 1) e < f + 3 + 1 := by
        rw [conditionFuel]
        split <;> omega
      have hyesBody := ((tree.entries_eq_ok_iff hn (Node.hasBody_of_isIf hif)).mp hbody).1
      refine .expand hif hchecked hcondition hbody (hlinks ▸ hother.1) hother.2
        (ih _ hfuel e [] inner (placed_condition hn hcondition) hinner)
        (along_becomes (ih f (by omega)) (tree.along_placed_body hn hyesBody) hyes) ?_
        (isTernary_expanded _ _ _ _ _)
      rcases tree.body_of_leadingElse hplaced hother.2 with hnil | ⟨e, _, he, _, hb⟩
      · rw [List.map_eq_nil_iff.mp hnil]
        exact along_nil
      · exact along_becomes (ih f (by omega)) (tree.along_placed_body he hb) hno
    · exact .removeElse helse hchecked hparent
    · exact .visitChildren himport hif helse hchecked hfst
        (along_becomes (ih less (by omega)) (along_placed hn hfst) hvisits)

end SourceTree

namespace SourceFile

theorem outcome_expand_eq_ok_iff {file out : SourceFile} {marker reportedName : String} :
    (file.expand marker reportedName).outcome = .ok out ↔
      ∃ changes, changes.map Prod.fst = file.root.children ∧
        Visits (visit (file.setting marker reportedName)
          (visitDepth file.nodes.size file.root)) changes ∧
        out = file.withRoot (file.root.rebuilt changes) := by
  rw [expand, Journaled.outcome_bind_eq_ok_iff]
  constructor
  · rintro ⟨change, hchange, h⟩
    obtain ⟨changes, hfst, hvisits, rfl⟩ := outcome_visitChildren.mp hchange
    exact ⟨changes, hfst, hvisits, (Journaled.outcome_pure_eq_ok_iff.mp h).symm⟩
  · rintro ⟨changes, hfst, hvisits, rfl⟩
    exact ⟨_, outcome_visitChildren.mpr ⟨changes, hfst, hvisits, rfl⟩, rfl⟩

/-- An expanded file has the root of the file, rebuilt from what its children become. -/
theorem exists_changes_of_expand {name : String} {text : Text} {tree : GrammarTree}
    {file out : SourceFile} {marker reportedName : String}
    (hfile : ofGrammar name text tree = .ok file)
    (h : (file.expand marker reportedName).outcome = .ok out) :
    ∃ changes, changes.map Prod.fst = file.root.children ∧
      Along (Becomes (file.setting marker reportedName)) false changes ∧
      out = file.withRoot (file.root.rebuilt changes) := by
  obtain ⟨changes, hfst, hvisits, rfl⟩ := outcome_expand_eq_ok_iff.mp h
  have hsource := sourceTree hfile
  have halong := along_becomes (hsource.becomes_of_visit rfl _)
    (along_placed (Node.self_mem_preorder file.root) hfst) hvisits
  rw [decide_eq_false hsource.rootKind] at halong
  exact ⟨changes, hfst, halong, rfl⟩

end SourceFile

end CondMarkup
