import Mathlib.Algebra.Order.Group.Multiset
import Mathlib.Tactic.Abel
import CondMarkup.Proofs.Success

/-!
Which nodes of the source an expanded tree stands for. A node of the source or a copy of one stands for
that node, and a ternary in braces stands for its `<If>`. Nothing that is reached is lost, nothing else
is there, and nothing is there twice: the nodes that stand for something are counted against the nodes
of the source. The body of an `<Else>` is counted where the `<Else>` is, which leaves nothing itself.
-/

namespace CondMarkup

open Expansion

namespace Node

/-- The nodes of the source that the tree of a node has, as they are or as copies with other children. -/
def represented (n : Node) : List Node :=
  (n.preorder.filter fun m => !m.info.synthesized).map source

/-- The nodes that the expressions in braces which were made for the tree stand for. -/
def ternarySources (n : Node) : List Node :=
  (n.preorder.filter fun m => m.info.synthesized && m.kind = .jsxExpression).map source

/-- Whether a node stands for a node of the source, in either way. -/
def isRepresentative (n : Node) : Bool := !n.info.synthesized || n.kind = .jsxExpression

def representatives (n : Node) : List Node := n.preorder.filter isRepresentative

theorem representatives_eq (n : Node) :
    n.representatives = (if n.isRepresentative then [n] else []) ++
      n.children.flatMap representatives := by
  rw [representatives, preorder_eq, List.filter_cons, List.filter_flatMap]
  split
  · rfl
  · rfl

theorem sublist_representatives {n : Node} {p : Node → Bool}
    (h : ∀ m, p m = true → m.isRepresentative = true) :
    (n.preorder.filter p).Sublist n.representatives := by
  have hfilter : n.preorder.filter p = n.representatives.filter p := by
    rw [representatives, List.filter_filter]
    refine List.filter_congr fun m _ => ?_
    cases hp : p m with
    | false => rfl
    | true => rw [h m hp]; rfl
  rw [hfilter]
  exact List.filter_sublist

theorem kept_sublist_representatives (n : Node) :
    (n.preorder.filter fun m => !m.info.synthesized).Sublist n.representatives :=
  sublist_representatives fun m hm => by rw [isRepresentative, hm, Bool.true_or]

theorem made_sublist_representatives (n : Node) :
    (n.preorder.filter fun m => m.info.synthesized && m.kind = .jsxExpression).Sublist
      n.representatives :=
  sublist_representatives fun m hm => by
    rw [isRepresentative, ((Bool.and_eq_true _ _).mp hm).2, Bool.or_true]

/-- A part of a ternary stands for nothing itself. -/
theorem IsMade.representatives_eq {n : Node} {kind : Kind} {cs : List Node} (h : n.IsMade kind cs)
    (hkind : kind ≠ .jsxExpression) : n.representatives = cs.flatMap representatives := by
  have hnot : n.isRepresentative = false := by
    simp [isRepresentative, h.synthesized, h.kind_eq, hkind]
  rw [Node.representatives_eq, hnot, h.children_eq]
  rfl

end Node

/-! ### What stands for something in a ternary -/

theorem IsBranch.representatives_eq {ifNode branch : Node} {entries : List Node}
    (h : IsBranch ifNode entries branch) :
    branch.representatives = entries.flatMap Node.representatives := by
  obtain ⟨openTag, list, closeTag, hbranch, hopen, _, hlist, hclose⟩ := h
  rw [hbranch.representatives_eq (by decide), List.flatMap_cons, List.flatMap_cons, List.flatMap_cons,
    hopen.representatives_eq (by decide), hlist.representatives_eq (by decide),
    hclose.representatives_eq (by decide)]
  simp

theorem IsElseBranch.representatives_eq {ifNode branch : Node} {entries : List (Node × Change)}
    (h : IsElseBranch ifNode entries branch) :
    branch.representatives = (results entries).flatMap Node.representatives := by
  rcases h with ⟨rfl, h⟩ | ⟨_, h⟩
  · rw [h.representatives_eq (by decide)]
    rfl
  · exact h.representatives_eq

theorem IsConditionPart.representatives_eq {condition : Node} {change : Change} {parts : List Node}
    (h : IsConditionPart condition change parts) :
    parts.flatMap Node.representatives =
      (change.result condition).toList.flatMap Node.representatives := by
  rw [IsConditionPart] at h
  split at h
  · obtain ⟨p, rfl, hp⟩ := h
    rw [List.flatMap_singleton, hp.representatives_eq (by decide)]
  · rw [h]

/-- A ternary stands for its `<If>`, and what was put into it for what it stood for before. -/
theorem IsTernary.representatives_eq {ifNode condition n : Node} {change : Change}
    {yes no : List (Node × Change)} (h : IsTernary ifNode condition change yes no n) :
    n.representatives = n :: ((change.result condition).toList.flatMap Node.representatives ++
      (results yes).flatMap Node.representatives ++
        (results no).flatMap Node.representatives) := by
  obtain ⟨ternary, parts, yesBranch, noBranch, hn, _, hternary, hparts, hyes, hno⟩ := h
  have hrep : n.isRepresentative = true := by simp [Node.isRepresentative, hn.kind_eq]
  rw [Node.representatives_eq, if_pos hrep, hn.children_eq, List.flatMap_singleton,
    hternary.representatives_eq (by decide), List.flatMap_append, hparts.representatives_eq]
  simp [hyes.representatives_eq, hno.representatives_eq]

/-! ### Nothing is there twice -/

/-- The nodes that the given ones and those below them stand for. -/
def standsFor (ns : List Node) : Multiset Node :=
  ↑((ns.flatMap Node.representatives).map Node.source)

/-- The given nodes and all below them. -/
def allBelow (ns : List Node) : Multiset Node := ↑((ns.flatMap Node.preorder).map Node.source)

@[simp] theorem standsFor_nil : standsFor [] = 0 := rfl

@[simp] theorem allBelow_nil : allBelow [] = 0 := rfl

theorem standsFor_append (ns ms : List Node) :
    standsFor (ns ++ ms) = standsFor ns + standsFor ms := by
  simp [standsFor]

theorem allBelow_append (ns ms : List Node) : allBelow (ns ++ ms) = allBelow ns + allBelow ms := by
  simp [allBelow]

theorem allBelow_cons (n : Node) (ns : List Node) :
    allBelow (n :: ns) = allBelow [n] + allBelow ns := allBelow_append [n] ns

theorem allBelow_singleton (n : Node) : allBelow [n] = {n.source} + allBelow n.children := by
  rw [allBelow, allBelow, List.flatMap_singleton, Node.preorder_eq, List.map_cons,
    ← Multiset.cons_coe, Multiset.singleton_add]

theorem allBelow_le_of_mem {m n : Node} (h : m ∈ n.preorder) : allBelow [m] ≤ allBelow [n] := by
  rw [allBelow, allBelow, List.flatMap_singleton, List.flatMap_singleton]
  exact Multiset.coe_le.mpr ((Node.preorder_sublist h).map Node.source).subperm

/-- What stands for something in a node that is kept with other children. -/
theorem standsFor_rebuilt_le {n : Node} {changes : List (Node × Change)}
    (h : changes.map Prod.fst = n.children) :
    standsFor [n.rebuilt changes] ≤ {n.source} + standsFor (results changes) := by
  have hrep : standsFor [n.rebuilt changes] =
      ↑((if (n.rebuilt changes).isRepresentative then [n.rebuilt changes] else []).map Node.source) +
        standsFor (results changes) := by
    rw [standsFor, List.flatMap_singleton, Node.representatives_eq, Node.children_rebuilt h,
      List.map_append, ← Multiset.coe_add]
    rfl
  rw [hrep]
  refine add_le_add_left ?_ _
  split
  · rw [List.map_singleton, Node.source_rebuilt]
    exact le_rfl
  · exact Multiset.zero_le _

/-- What stands for something in a ternary. -/
theorem IsTernary.standsFor_eq {ifNode condition n : Node} {change : Change}
    {yes no : List (Node × Change)} (h : IsTernary ifNode condition change yes no n) :
    standsFor [n] = {ifNode.source} + standsFor (change.result condition).toList +
      standsFor (results yes) + standsFor (results no) := by
  have hsource : n.source = ifNode.source := by
    obtain ⟨_, _, _, _, _, hsource, _⟩ := h
    exact hsource
  rw [standsFor, List.flatMap_singleton, h.representatives_eq, List.map_cons, List.map_append,
    List.map_append, hsource, ← Multiset.cons_coe, ← Multiset.coe_add, ← Multiset.coe_add,
    ← Multiset.singleton_add, ← add_assoc, ← add_assoc]
  rfl

/-- The entries of the `<Else>` that a list begins with, blank text aside. -/
def laterEntries (following : List Node) : List Node :=
  (Pairing.leadingElse following).toOption.getD []

@[simp] theorem laterEntries_nil : laterEntries [] = [] := rfl

/-- The nodes that may be put in the place of `n` are those below it and, if it is an `<If>`, those in
its `<Else>`. -/
def Within (following : List Node) (n : Node) (change : Change) : Prop :=
  standsFor (change.result n).toList ≤
    allBelow [n] + if n.isIf then allBelow (laterEntries following) else 0

theorem allBelow_le_of_mem_list {n : Node} {ns : List Node} (h : n ∈ ns) :
    allBelow [n] ≤ allBelow ns := by
  obtain ⟨before, after, rfl⟩ := List.append_of_mem h
  rw [allBelow_append, allBelow_cons n after, add_left_comm]
  exact Multiset.le_add_right _ _

/-- The condition of an `<If>` and what is in its second part lie below it and do not overlap. -/
theorem allBelow_condition_add_le {n openTag list closeTag condition : Node}
    (hcs : n.children = [openTag, list, closeTag]) (hif : n.isIf = true)
    (hcondition : n.condition = .ok condition) :
    {n.source} + allBelow [condition] + allBelow list.children ≤ allBelow [n] := by
  obtain ⟨openTag', hopen, v, hv, _, he⟩ := Node.exists_of_condition hcondition
  rw [Node.opening, if_pos ⟨Node.hasBody_of_isIf hif, by rw [hcs]; simp⟩, hcs, List.head?_cons,
    Option.some.injEq] at hopen
  subst hopen
  have hmem := Node.mem_preorder_trans (Node.mem_preorder_of_mem_children he) hv
  rw [allBelow_singleton n, hcs, allBelow_cons openTag, allBelow_cons list, add_assoc]
  refine add_le_add_right (add_le_add (allBelow_le_of_mem hmem) ?_) _
  rw [allBelow_singleton list]
  exact (Multiset.le_add_left _ _).trans (Multiset.le_add_right _ _)

/-- The parts of an `<If>` lie below it and do not overlap. -/
theorem allBelow_parts_le {n condition : Node} {body : List Node} (hif : n.isIf = true)
    (hcondition : n.condition = .ok condition) (hbody : n.entries = .ok body) :
    {n.source} + allBelow [condition] + allBelow body ≤ allBelow [n] := by
  obtain ⟨openTag, list, closeTag, hcs, rfl⟩ := Node.exists_parts_of_entries hbody
  exact allBelow_condition_add_le hcs hif hcondition

theorem allBelow_entries_le {n : Node} {entries : List Node} (h : n.entries = .ok entries) :
    allBelow entries ≤ allBelow [n] := by
  obtain ⟨openTag, list, closeTag, hcs, rfl⟩ := Node.exists_parts_of_entries h
  have hlist : list ∈ n.preorder := Node.mem_preorder_of_mem_children (by rw [hcs]; simp)
  refine le_trans ?_ (allBelow_le_of_mem hlist)
  rw [allBelow_singleton]
  exact Multiset.le_add_left _ _

theorem laterEntries_le_of_isElse {n : Node} {rest : List Node} (h : n.isElse = true) :
    allBelow (laterEntries (n :: rest)) ≤ allBelow [n] := by
  rw [laterEntries, Pairing.leadingElse, if_neg (by
    rw [isBlankText_eq_false_of_isElementOf h]; exact Bool.false_ne_true), if_pos h]
  cases hentries : n.entries with
  | error e => exact Multiset.zero_le _
  | ok entries => exact allBelow_entries_le hentries

/-- A count along a body. What one node counts is below it or in the part `lent` that it takes from a
later one, and what is lent is not counted with the rest. -/
theorem count_cons_le {n : Node} {ns : List Node} {own rest here later lent : Multiset Node}
    (hown : own ≤ allBelow [n] + lent) (hlater : here + lent ≤ later)
    (hrest : rest + later ≤ allBelow ns) : own + rest + here ≤ allBelow (n :: ns) := by
  rw [allBelow_cons]
  calc own + rest + here
      ≤ allBelow [n] + lent + rest + here := add_le_add_left (add_le_add_left hown _) _
    _ = allBelow [n] + (rest + (here + lent)) := by abel
    _ ≤ allBelow [n] + allBelow ns :=
        add_le_add_right ((add_le_add_right hlater _).trans hrest) _

/-- The entries of a body and the entries of the `<Else>` that it begins with stand for different
nodes, since the `<Else>` itself is removed. -/
theorem standsFor_results_le {changes : List (Node × Change)} (hwithin : Along Within true changes)
    (helse : ∀ c ∈ changes, c.1.isElse = true → c.2 = .remove) :
    standsFor (results changes) + allBelow (laterEntries (changes.map Prod.fst)) ≤
      allBelow (changes.map Prod.fst) := by
  induction changes with
  | nil => exact le_rfl
  | cons c rest ih =>
    obtain ⟨n, change⟩ := c
    obtain ⟨hn, hrest⟩ := along_cons.mp hwithin
    have hall := ih hrest fun d hd => helse d (List.mem_cons_of_mem _ hd)
    rw [results_cons, standsFor_append, List.map_cons]
    rw [Within, if_pos rfl] at hn
    by_cases he : n.isElse = true
    · obtain rfl := helse (n, change) List.mem_cons_self he
      rw [Change.result, Option.toList_none, standsFor_nil, zero_add, add_comm, allBelow_cons]
      exact add_le_add (laterEntries_le_of_isElse he) ((Multiset.le_add_right _ _).trans hall)
    · -- the entries of the next `<Else>` go to an `<If>` here or pass on over blank text, not both
      have hlater : allBelow (laterEntries (n :: rest.map Prod.fst)) +
          (if n.isIf then allBelow (laterEntries (rest.map Prod.fst)) else 0) ≤
            allBelow (laterEntries (rest.map Prod.fst)) := by
        by_cases hblank : n.isBlankText = true
        · have hif : n.isIf = false := isElementOf_eq_false_of_isBlankText hblank "If"
          rw [laterEntries, Pairing.leadingElse, if_pos hblank, if_neg (by rw [hif]; simp), add_zero]
          exact le_refl (allBelow (laterEntries (rest.map Prod.fst)))
        · rw [laterEntries, Pairing.leadingElse, if_neg hblank, if_neg he]
          split
          · exact le_rfl
          · exact Multiset.zero_le _
      exact count_cons_le hn hlater hall

/-- The children of a node that is not a list stand for themselves. -/
theorem standsFor_results_le_of_apart {changes : List (Node × Change)}
    (hwithin : Along Within false changes) :
    standsFor (results changes) ≤ allBelow (changes.map Prod.fst) := by
  induction changes with
  | nil => exact le_rfl
  | cons c rest ih =>
    obtain ⟨n, change⟩ := c
    obtain ⟨hn, hrest⟩ := along_cons.mp hwithin
    rw [results_cons, standsFor_append, List.map_cons, allBelow_cons]
    refine add_le_add ?_ (ih hrest)
    rw [Within, if_neg Bool.false_ne_true, laterEntries_nil, allBelow_nil, ite_self, add_zero] at hn
    exact hn

theorem within_nil {n : Node} {change : Change} :
    Within [] n change ↔ standsFor (change.result n).toList ≤ allBelow [n] := by
  rw [Within, laterEntries_nil, allBelow_nil, ite_self, add_zero]

/-- What is put in the place of a node stands only for nodes that are below it or in its `<Else>`, and
for each of them once. -/
theorem Becomes.within {s : Setting} {following : List Node} {n : Node} {change : Change}
    (h : Becomes s following n change) : Within following n change := by
  induction h with
  | removeImport => exact Multiset.zero_le _
  | removeElse => exact Multiset.zero_le _
  | @expand following n condition made change yes no hif _ hcondition hbody _ hother _ hyes hno hmade
      ihInner ihYes ihNo =>
    have hlater : laterEntries following = no.map Prod.fst := by
      rw [laterEntries, hother]
      rfl
    have hyesLe := (Multiset.le_add_right _ _).trans
      (standsFor_results_le ihYes hyes.remove_of_isElse)
    have hnoLe := (Multiset.le_add_right _ _).trans
      (standsFor_results_le ihNo hno.remove_of_isElse)
    rw [Within, if_pos hif, hlater]
    calc standsFor [made]
        = {n.source} + standsFor (change.result condition).toList + standsFor (results yes) +
            standsFor (results no) := hmade.standsFor_eq
      _ ≤ {n.source} + allBelow [condition] + allBelow (yes.map Prod.fst) +
            allBelow (no.map Prod.fst) :=
          add_le_add (add_le_add (add_le_add_right (within_nil.mp ihInner) _) hyesLe) hnoLe
      _ ≤ allBelow [n] + allBelow (no.map Prod.fst) :=
          add_le_add_left (allBelow_parts_le hif hcondition hbody) _
  | @visitChildren following n changes _ hif _ _ hchildren hchanges ih =>
    rw [Within, if_neg (by rw [hif]; exact Bool.false_ne_true), add_zero, Node.result_changed]
    calc standsFor [n.rebuilt changes]
        ≤ {n.source} + standsFor (results changes) := standsFor_rebuilt_le hchildren
      _ ≤ {n.source} + allBelow n.children := by
          refine add_le_add_right ?_ _
          rw [← hchildren]
          by_cases hlist : n.kind = .syntaxList
          · rw [decide_eq_true hlist] at ih hchanges
            exact (Multiset.le_add_right _ _).trans (standsFor_results_le ih hchanges.remove_of_isElse)
          · rw [decide_eq_false hlist] at ih
            exact standsFor_results_le_of_apart ih
      _ = allBelow [n] := (allBelow_singleton n).symm

/-! ### Nothing is lost, and nothing else is there -/

/-- A node that stands for something stands for a node that is reached: a ternary for an `<If>`, any
other node for one that is kept. -/
structure Faithful (marker : String) (root m : Node) : Prop where
  reached : Reached marker root m.source
  kept : m.info.synthesized = false → m.source.isConstruct marker = false
  made : m.info.synthesized = true → m.source.isIf = true

/-- All that stands for something in the place of a node is faithful. -/
def FaithfulAt (marker : String) (root : Node) (_following : List Node) (n : Node) (change : Change) :
    Prop :=
  ∀ r, change.result n = some r → ∀ m ∈ r.representatives, Faithful marker root m

theorem faithful_of_results {marker : String} {root : Node} {inBody : Bool}
    {changes : List (Node × Change)} (h : Along (FaithfulAt marker root) inBody changes) :
    ∀ m ∈ (results changes).flatMap Node.representatives, Faithful marker root m := by
  intro m hm
  obtain ⟨r, hr, hm⟩ := List.mem_flatMap.mp hm
  obtain ⟨n, change, hmem, hr⟩ := mem_results_iff.mp hr
  obtain ⟨_, hfaithful⟩ := h.exists_of_mem hmem
  exact hfaithful r hr m hm

namespace SourceTree

variable {s : Setting} {root : Node} {changes : List (Node × Change)}
  (tree : SourceTree s.links root)
include tree

theorem faithful_of_becomes {following : List Node} {n : Node} {change : Change}
    (h : Becomes s following n change) :
    ReachedAt s.marker root following n → FaithfulAt s.marker root following n change := by
  induction h with
  | removeImport => exact fun _ r hr => absurd hr (by simp [Change.result])
  | removeElse => exact fun _ r hr => absurd hr (by simp [Change.result])
  | @expand following n condition made change yes no hif _ hcondition hbody _ hother _ _ _ hmade
      ihInner ihYes ihNo =>
    intro hat r hr m hm
    obtain rfl : made = r := Option.some.inj hr
    have hb := ((tree.entries_eq_ok_iff hat.mem (Node.hasBody_of_isIf hif)).mp hbody).1
    rw [hmade.representatives_eq, List.mem_cons, List.mem_append, List.mem_append] at hm
    rcases hm with rfl | (hm | hm) | hm
    · -- the ternary itself stands for the `<If>`
      obtain ⟨_, _, _, _, hm, hsource, _⟩ := hmade
      rw [tree.source_eq hat.mem] at hsource
      refine ⟨hsource ▸ hat.reached, fun h => ?_, fun _ => hsource ▸ hif⟩
      rw [hm.synthesized] at h
      cases h
    · obtain ⟨r, hr, hm⟩ := List.mem_flatMap.mp hm
      exact ihInner (hat.condition hif hcondition) r (Option.mem_toList.mp hr) m hm
    · exact faithful_of_results ((tree.along_body hat hif hb).mp ihYes) m hm
    · exact faithful_of_results ((tree.along_otherwise hat hif hother).mp ihNo) m hm
  | @visitChildren following n changes himport hif helse _ hchildren _ ih =>
    intro hat r hr m hm
    have hplain := isConstruct_eq_false_iff.mpr ⟨hif, helse, himport⟩
    rw [Node.result_changed] at hr
    obtain rfl := Option.some.inj hr
    rw [Node.representatives_eq, Node.children_rebuilt hchildren, List.mem_append] at hm
    rcases hm with hm | hm
    · obtain rfl : m = n.rebuilt changes := by
        split at hm
        · exact List.mem_singleton.mp hm
        · exact absurd hm List.not_mem_nil
      have hsource : (n.rebuilt changes).source = n := by
        rw [Node.source_rebuilt, tree.source_eq hat.mem]
      refine ⟨hsource.symm ▸ hat.reached, fun _ => hsource.symm ▸ hplain, fun h => ?_⟩
      rw [Node.info_rebuilt, (tree.shapedAt hat.mem).notMade] at h
      cases h
    · exact faithful_of_results ((hat.along_children hplain hchildren).mp ih) m hm

/-- What stands for something in an expanded tree, the root apart. -/
theorem faithful_of_mem (hfst : changes.map Prod.fst = root.children)
    (halong : Along (Becomes s) false changes) :
    ∀ m ∈ (root.rebuilt changes).representatives,
      m = root.rebuilt changes ∨ Faithful s.marker root m := by
  intro m hm
  rw [Node.representatives_eq, Node.children_rebuilt hfst, List.mem_append] at hm
  rcases hm with hm | hm
  · split at hm
    · exact Or.inl (List.mem_singleton.mp hm)
    · exact absurd hm List.not_mem_nil
  · have hfaithful : Along (FaithfulAt s.marker root) false changes :=
      (tree.along_root hfst).mp fun before n change after hsplit =>
        tree.faithful_of_becomes (halong before n change after hsplit)
    exact Or.inr (faithful_of_results hfaithful m hm)

theorem nodup_representatives (hfst : changes.map Prod.fst = root.children)
    (halong : Along (Becomes s) false changes) :
    ((root.rebuilt changes).representatives.map Node.source).Nodup := by
  have hle : standsFor [root.rebuilt changes] ≤ allBelow [root] := by
    rw [allBelow_singleton, ← hfst]
    refine (standsFor_rebuilt_le hfst).trans (add_le_add_right ?_ _)
    exact standsFor_results_le_of_apart fun before n change after hsplit =>
      (halong before n change after hsplit).within
  have hall : root.preorder.map Node.source = root.preorder := by
    rw [List.map_congr_left fun n hn => tree.source_eq hn, List.map_id']
  rw [standsFor, allBelow, List.flatMap_singleton, List.flatMap_singleton, hall] at hle
  exact Multiset.coe_nodup.mp (Multiset.nodup_of_le hle (Multiset.coe_nodup.mpr tree.nodup_preorder))

theorem source_root : (root.rebuilt changes).source = root := by
  rw [Node.source_rebuilt, tree.source_eq (Node.self_mem_preorder root)]

/-- A node of the source is not made, and neither is a copy of it. -/
theorem synthesized_rebuilt {n : Node} (hn : n ∈ root.preorder) (changes : List (Node × Change)) :
    (n.rebuilt changes).info.synthesized = false := by
  rw [Node.info_rebuilt, (tree.shapedAt hn).notMade]

theorem mem_represented_iff (hfst : changes.map Prod.fst = root.children)
    (halong : Along (Becomes s) false changes) {n : Node} :
    n ∈ (root.rebuilt changes).represented ↔
      n = root ∨ Reached s.marker root n ∧ n.isConstruct s.marker = false := by
  have hmem : ∀ {m : Node} {cs : List (Node × Change)}, m ∈ root.preorder →
      m.rebuilt cs ∈ (root.rebuilt changes).preorder → m ∈ (root.rebuilt changes).represented := by
    intro m cs hm hcs
    refine List.mem_map.mpr ⟨_, List.mem_filter.mpr ⟨hcs, ?_⟩, ?_⟩
    · rw [tree.synthesized_rebuilt hm]
      rfl
    · rw [Node.source_rebuilt, tree.source_eq hm]
  constructor
  · intro hn
    obtain ⟨m, hm, rfl⟩ := List.mem_map.mp hn
    have hrep := (Node.kept_sublist_representatives _).subset hm
    rcases tree.faithful_of_mem hfst halong m hrep with rfl | hm'
    · exact Or.inl tree.source_root
    · exact Or.inr ⟨hm'.reached, hm'.kept (by simpa using (List.mem_filter.mp hm).2)⟩
  · rintro (rfl | ⟨hreached, hplain⟩)
    · exact hmem (Node.self_mem_preorder n) (Node.self_mem_preorder _)
    · obtain ⟨following, change, hplaced, hbecomes, hwhole⟩ :=
        tree.locatedIn_of_reached hfst halong hreached
      obtain ⟨cs, _, _, _, rfl⟩ := hbecomes.of_plain hplain
      exact hmem (mem_of_placed hplaced)
        (hwhole _ (Node.result_changed n cs) (Node.self_mem_preorder _))

theorem mem_ternarySources_iff (hfst : changes.map Prod.fst = root.children)
    (halong : Along (Becomes s) false changes) {n : Node} :
    n ∈ (root.rebuilt changes).ternarySources ↔ Reached s.marker root n ∧ n.isIf = true := by
  constructor
  · intro hn
    obtain ⟨m, hm, rfl⟩ := List.mem_map.mp hn
    have hsynth := ((Bool.and_eq_true _ _).mp (List.mem_filter.mp hm).2).1
    have hrep := (Node.made_sublist_representatives _).subset hm
    rcases tree.faithful_of_mem hfst halong m hrep with rfl | hm'
    · rw [tree.synthesized_rebuilt (Node.self_mem_preorder root)] at hsynth
      cases hsynth
    · exact ⟨hm'.reached, hm'.made hsynth⟩
  · rintro ⟨hreached, hif⟩
    obtain ⟨following, change, hplaced, hbecomes, hwhole⟩ :=
      tree.locatedIn_of_reached hfst halong hreached
    obtain ⟨_, _, _, _, made, _, _, _, _, _, _, _, _, hmade, rfl⟩ := hbecomes.of_isIf hif
    obtain ⟨_, _, _, _, hm, hsource, _⟩ := hmade
    refine List.mem_map.mpr ⟨made, List.mem_filter.mpr ⟨?_, ?_⟩, ?_⟩
    · exact hwhole made rfl (Node.self_mem_preorder made)
    · simp [hm.synthesized, hm.kind_eq]
    · rw [hsource, tree.source_eq (mem_of_placed hplaced)]

end SourceTree

/-- In an expanded tree the root and the nodes that are reached and kept are represented, each once, and
the `<If>`s that are reached are those that ternaries stand for, each once. -/
theorem SourceFile.expand_represents {name : String} {text : Text} {tree : GrammarTree}
    {file out : SourceFile} {marker reportedName : String}
    (hfile : ofGrammar name text tree = .ok file)
    (hout : (file.expand marker reportedName).outcome = .ok out) :
    (∀ n, n ∈ out.root.represented ↔
      n = file.root ∨ Reached marker file.root n ∧ n.isConstruct marker = false) ∧
    out.root.represented.Nodup ∧
    (∀ n, n ∈ out.root.ternarySources ↔ Reached marker file.root n ∧ n.isIf = true) ∧
    out.root.ternarySources.Nodup := by
  have hsource : SourceTree (file.setting marker reportedName).links file.root := sourceTree hfile
  obtain ⟨changes, hfst, halong, rfl⟩ := exists_changes_of_expand hfile hout
  have hnodup := hsource.nodup_representatives hfst halong
  refine ⟨fun n => hsource.mem_represented_iff hfst halong, ?_,
    fun n => hsource.mem_ternarySources_iff hfst halong, ?_⟩
  · exact hnodup.sublist ((Node.kept_sublist_representatives _).map Node.source)
  · exact hnodup.sublist ((Node.made_sublist_representatives _).map Node.source)

/-- On the small page, where one `<If>` stands in the `<Else>` of another. -/
theorem SourceFile.expand_represents_smallPage :
    ∃ file out, ofGrammar "page.tsx" SmallPage.text SmallPage.tree = .ok file ∧
      (file.expand "m" "").outcome = .ok out ∧
      (∀ n, n ∈ out.root.represented ↔
        n = file.root ∨ Reached "m" file.root n ∧ n.isConstruct "m" = false) ∧
      out.root.represented.Nodup ∧
      (∀ n, n ∈ out.root.ternarySources ↔ Reached "m" file.root n ∧ n.isIf = true) ∧
      out.root.ternarySources.Nodup := by
  obtain ⟨file, out, hfile, hout, _⟩ := SmallPage.exists_expanded
  exact ⟨file, out, hfile, hout, expand_represents hfile hout⟩

end CondMarkup
