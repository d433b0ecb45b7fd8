import CondMarkup.Proofs.Patches
import CondMarkup.Proofs.Representation

/-!
The order in which the nodes of a source tree are visited. `visitOrder` walks the tree of the source
alone: an `<If>` comes before all that is in its condition, then what is in its body, then what is in
the body of the `<Else>` that comes next; the children of any other node come from left to right, and
nothing comes after an `<Else>` or an import of the marker module. The nodes in this order are those
that the expansion reaches, each of them once, although the body of an `<Else>` is entered from the
`<If>` before it.
-/

namespace CondMarkup

open Expansion

theorem sizeAll_laterBody_le (following : List Node) :
    Node.sizeAll (laterBody following) ≤ Node.sizeAll following := by
  rw [laterBody]
  cases h : nextElse? following with
  | none => exact Nat.zero_le _
  | some e => exact Nat.le_trans (Nat.le_of_lt (Node.sizeAll_body_lt e)) (size_le_of_nextElse? h)

section VisitOrder

variable (marker : String)

mutual

/-- The nodes of the source that are visited within the visit of a node in front of `following`, in
order, the node itself first. -/
def visitOrder (following : List Node) (n : Node) : List Node :=
  n ::
    if n.isIf then
      let condition := match _h : n.condition with
        | .ok e => visitOrder [] e
        | .error _ => []
      condition ++ visitOrderAll true n.body ++ visitOrderAll true (laterBody following)
    else if n.isElse ∨ n.moduleSpecifier = some marker then []
    else visitOrderAll (n.kind = .syntaxList) n.children
termination_by 2 * (n.size + Node.sizeAll following)
decreasing_by
  · have := Node.size_condition_lt _h
    simp only [Node.sizeAll]
    omega
  · have := Node.sizeAll_body_lt n
    omega
  · have := sizeAll_laterBody_le following
    have := n.size_pos
    omega
  · have := Node.sizeAll_children_lt n
    omega

/-- The same for siblings, which stand in front of each other if they are the entries of a body. -/
def visitOrderAll (inBody : Bool) : List Node → List Node
  | [] => []
  | n :: rest => visitOrder (if inBody then rest else []) n ++ visitOrderAll inBody rest
termination_by ns => 2 * Node.sizeAll ns + 1
decreasing_by
  · split
    · simp only [Node.sizeAll]
      omega
    · simp only [Node.sizeAll]
      omega
  · have := n.size_pos
    simp only [Node.sizeAll]
    omega

end

/-- What is visited first in the visit of an `<If>`: what is in its condition, if it has one. -/
def conditionOrder (n : Node) : List Node :=
  match n.condition with
  | .ok e => visitOrder marker [] e
  | .error _ => []

end VisitOrder

section Equations

variable {marker : String} {following : List Node} {n : Node}

theorem visitOrder_of_isIf (hif : n.isIf = true) : visitOrder marker following n =
    n :: (conditionOrder marker n ++ visitOrderAll marker true n.body ++
      visitOrderAll marker true (laterBody following)) := by
  rw [visitOrder, if_pos hif, conditionOrder]
  split
  · rename_i e he
    rw [he]
  · rename_i cause hcause
    rw [hcause]

theorem visitOrder_of_isElse (helse : n.isElse = true) : visitOrder marker following n = [n] := by
  rw [visitOrder, if_neg (by rw [Node.isIf_eq_false_of_isElse helse]; exact Bool.false_ne_true),
    if_pos (Or.inl helse)]

theorem visitOrder_of_import (himport : n.moduleSpecifier = some marker) :
    visitOrder marker following n = [n] := by
  rw [visitOrder, if_neg (by rw [Node.isIf_eq_false_of_import himport]; exact Bool.false_ne_true),
    if_pos (Or.inr himport)]

theorem visitOrder_of_plain (hplain : n.isConstruct marker = false) :
    visitOrder marker following n = n :: visitOrderAll marker (n.kind = .syntaxList) n.children := by
  obtain ⟨hif, helse, himport⟩ := isConstruct_eq_false_iff.mp hplain
  rw [visitOrder, if_neg (by rw [hif]; exact Bool.false_ne_true), if_neg]
  rintro (h | h)
  · rw [helse] at h
    cases h
  · exact himport h

theorem self_mem_visitOrder : n ∈ visitOrder marker following n := by
  rw [visitOrder]
  exact List.mem_cons_self

theorem mem_visitOrderAll_iff {m : Node} {inBody : Bool} {ns : List Node} :
    m ∈ visitOrderAll marker inBody ns ↔ ∃ before c rest, ns = before ++ c :: rest ∧
      m ∈ visitOrder marker (if inBody then rest else []) c := by
  induction ns with
  | nil => simp [visitOrderAll]
  | cons c ns ih =>
    rw [visitOrderAll, List.mem_append, ih]
    constructor
    · rintro (h | ⟨before, d, rest, rfl, h⟩)
      · exact ⟨[], c, ns, rfl, h⟩
      · exact ⟨c :: before, d, rest, rfl, h⟩
    · rintro ⟨before, d, rest, hsplit, h⟩
      cases before with
      | nil =>
        rw [List.nil_append, List.cons.injEq] at hsplit
        obtain ⟨rfl, rfl⟩ := hsplit
        exact Or.inl h
      | cons b before =>
        rw [List.cons_append, List.cons.injEq] at hsplit
        exact Or.inr ⟨before, d, rest, hsplit.2, h⟩

end Equations

/-! ### From one visit to the next -/

/-- Within the visit of `n` in front of `following`, the node `c` is visited in front of `later`. -/
inductive Enters (marker : String) (following : List Node) (n : Node) : List Node → Node → Prop
  | condition {e : Node} (hif : n.isIf = true) (he : n.condition = .ok e) :
      Enters marker following n [] e
  | body {before rest : List Node} {c : Node} (hif : n.isIf = true)
      (hsplit : n.body = before ++ c :: rest) : Enters marker following n rest c
  | otherwise {before rest : List Node} {c : Node} (hif : n.isIf = true)
      (hsplit : laterBody following = before ++ c :: rest) : Enters marker following n rest c
  | inside {before rest : List Node} {c : Node} (hplain : n.isConstruct marker = false)
      (hsplit : n.children = before ++ c :: rest) :
      Enters marker following n (if n.kind = .syntaxList then rest else []) c

section Enters

variable {marker : String} {root n c m : Node} {following later : List Node}

theorem Enters.size_lt (h : Enters marker following n later c) :
    c.size + Node.sizeAll later < n.size + Node.sizeAll following := by
  have hsplitLe : ∀ {ns before rest : List Node} {c : Node}, ns = before ++ c :: rest →
      c.size + Node.sizeAll rest ≤ Node.sizeAll ns := by
    rintro _ before rest c rfl
    rw [Node.sizeAll_append, Node.sizeAll]
    omega
  cases h with
  | condition hif he =>
    have hlt := Node.size_condition_lt he
    rw [Node.sizeAll]
    omega
  | body hif hsplit =>
    have hle := hsplitLe hsplit
    have hlt := Node.sizeAll_body_lt n
    omega
  | otherwise hif hsplit =>
    have hle := hsplitLe hsplit
    have hbody := sizeAll_laterBody_le following
    have hpos := n.size_pos
    omega
  | inside hplain hsplit =>
    have hle := hsplitLe hsplit
    have hlt := Node.sizeAll_children_lt n
    split
    · omega
    · rw [Node.sizeAll]
      omega

/-- What is so of a node when it is so of all that are visited within its visit, is so of all
nodes. -/
theorem entersInduction {P : List Node → Node → Prop} (marker : String)
    (step : ∀ following n, (∀ later c, Enters marker following n later c → P later c) →
      P following n) (following : List Node) (n : Node) : P following n := by
  generalize hsize : n.size + Node.sizeAll following = size
  induction size using Nat.strongRecOn generalizing following n with
  | ind size ih =>
    refine step following n fun later c h => ih _ ?_ later c rfl
    rw [← hsize]
    exact h.size_lt

theorem mem_visitOrder_iff : m ∈ visitOrder marker following n ↔
    m = n ∨ ∃ later c, Enters marker following n later c ∧ m ∈ visitOrder marker later c := by
  constructor
  · intro h
    by_cases hif : n.isIf = true
    · rw [visitOrder_of_isIf hif, List.mem_cons, List.mem_append, List.mem_append] at h
      rcases h with h | (h | h) | h
      · exact Or.inl h
      · rw [conditionOrder] at h
        cases he : n.condition with
        | ok e =>
          rw [he] at h
          exact Or.inr ⟨[], e, .condition hif he, h⟩
        | error cause =>
          rw [he] at h
          exact absurd h List.not_mem_nil
      · obtain ⟨before, c, rest, hsplit, h⟩ := mem_visitOrderAll_iff.mp h
        exact Or.inr ⟨rest, c, .body hif hsplit, h⟩
      · obtain ⟨before, c, rest, hsplit, h⟩ := mem_visitOrderAll_iff.mp h
        exact Or.inr ⟨rest, c, .otherwise hif hsplit, h⟩
    · by_cases helse : n.isElse = true
      · rw [visitOrder_of_isElse helse] at h
        exact Or.inl (List.mem_singleton.mp h)
      · by_cases himport : n.moduleSpecifier = some marker
        · rw [visitOrder_of_import himport] at h
          exact Or.inl (List.mem_singleton.mp h)
        · have hplain := isConstruct_eq_false_iff.mpr
            ⟨eq_false_of_ne_true hif, eq_false_of_ne_true helse, himport⟩
          rw [visitOrder_of_plain hplain, List.mem_cons] at h
          rcases h with h | h
          · exact Or.inl h
          · obtain ⟨before, c, rest, hsplit, h⟩ := mem_visitOrderAll_iff.mp h
            refine Or.inr ⟨_, c, .inside hplain hsplit, ?_⟩
            simpa only [decide_eq_true_eq] using h
  · rintro (rfl | ⟨later, c, hc, h⟩)
    · exact self_mem_visitOrder
    · cases hc with
      | condition hif he =>
        rw [visitOrder_of_isIf hif, conditionOrder, he]
        simp only [List.mem_cons, List.mem_append]
        exact Or.inr (Or.inl (Or.inl h))
      | body hif hsplit =>
        rw [visitOrder_of_isIf hif]
        simp only [List.mem_cons, List.mem_append]
        exact Or.inr (Or.inl (Or.inr (mem_visitOrderAll_iff.mpr ⟨_, _, _, hsplit, h⟩)))
      | otherwise hif hsplit =>
        rw [visitOrder_of_isIf hif]
        simp only [List.mem_cons, List.mem_append]
        exact Or.inr (Or.inr (mem_visitOrderAll_iff.mpr ⟨_, _, _, hsplit, h⟩))
      | inside hplain hsplit =>
        rw [visitOrder_of_plain hplain]
        refine List.mem_cons_of_mem _ (mem_visitOrderAll_iff.mpr ⟨_, _, _, hsplit, ?_⟩)
        simpa only [decide_eq_true_eq] using h

end Enters

/-! ### The nodes that are reached -/

namespace SourceTree

variable {links : Links} {marker : String} {root n c m : Node} {following later : List Node}
  (tree : SourceTree links root)
include tree

/-- The entries of the `<Else>` after a node of the source are those of a node of the source. -/
theorem exists_of_mem_laterBody (hplaced : Placed root n following)
    (hc : c ∈ laterBody following) :
    ∃ e, NextElse root n e ∧ e ∈ root.preorder ∧ laterBody following = e.body := by
  rw [laterBody] at hc ⊢
  cases he : nextElse? following with
  | none =>
    rw [he] at hc
    exact absurd hc List.not_mem_nil
  | some e =>
    have hnext := (tree.nextElse_iff hplaced).mpr (nextElse?_eq_some_iff.mp he)
    exact ⟨e, hnext, tree.mem_of_nextElse hnext, rfl⟩

theorem reachedAt_of_enters (h : ReachedAt marker root following n)
    (hc : Enters marker following n later c) : ReachedAt marker root later c := by
  cases hc with
  | condition hif he => exact h.condition hif he
  | body hif hsplit =>
    exact ⟨tree.placed_of_body h.mem hsplit, .body h.reached hif (by rw [hsplit]; simp)⟩
  | otherwise hif hsplit =>
    obtain ⟨e, he, hmem, hbody⟩ :=
      tree.exists_of_mem_laterBody (c := c) h.placed (by rw [hsplit]; simp)
    rw [hbody] at hsplit
    exact ⟨tree.placed_of_body hmem hsplit, .otherwise h.reached hif he (by rw [hsplit]; simp)⟩
  | inside hplain hsplit =>
    exact ⟨placed_of_children h.mem hsplit, .inside h.reached hplain (by rw [hsplit]; simp)⟩

/-- A node in the order of visits is reached, and all that is visited within its own visit is in the
order too. -/
theorem exists_reachedAt_of_mem : ReachedAt marker root following n →
    m ∈ visitOrder marker following n → ∃ f, ReachedAt marker root f m ∧
      visitOrder marker f m ⊆ visitOrder marker following n := by
  induction following, n using entersInduction marker with
  | step following n ih =>
    intro hn hm
    rcases mem_visitOrder_iff.mp hm with rfl | ⟨later, c, hc, hm⟩
    · exact ⟨following, hn, List.Subset.refl _⟩
    · obtain ⟨f, hat, hsub⟩ := ih later c hc (tree.reachedAt_of_enters hn hc) hm
      exact ⟨f, hat, fun k hk => mem_visitOrder_iff.mpr (Or.inr ⟨later, c, hc, hsub hk⟩)⟩

/-- The order of visits of a whole tree has the nodes that are reached. -/
theorem mem_visitOrderAll_root_iff :
    m ∈ visitOrderAll marker false root.children ↔ Reached marker root m := by
  have hchild : ∀ {before rest : List Node} {c : Node}, root.children = before ++ c :: rest →
      ReachedAt marker root [] c := by
    intro before rest c hsplit
    have hplaced := placed_of_children (Node.self_mem_preorder root) hsplit
    rw [if_neg tree.rootKind] at hplaced
    exact ⟨hplaced, .child (by rw [hsplit]; simp)⟩
  have hat : ∀ {m : Node}, m ∈ visitOrderAll marker false root.children →
      ∃ f, ReachedAt marker root f m ∧
        visitOrder marker f m ⊆ visitOrderAll marker false root.children := by
    intro m hm
    obtain ⟨before, c, rest, hsplit, hm⟩ := mem_visitOrderAll_iff.mp hm
    obtain ⟨f, hat, hsub⟩ := tree.exists_reachedAt_of_mem (hchild hsplit) hm
    exact ⟨f, hat, fun k hk => mem_visitOrderAll_iff.mpr ⟨before, c, rest, hsplit, hsub hk⟩⟩
  have henters : ∀ {n c : Node} {f later : List Node},
      visitOrder marker f n ⊆ visitOrderAll marker false root.children →
      Enters marker f n later c → c ∈ visitOrderAll marker false root.children := by
    intro n c f later hsub hc
    exact hsub (mem_visitOrder_iff.mpr (Or.inr ⟨later, c, hc, self_mem_visitOrder⟩))
  constructor
  · intro hm
    obtain ⟨_, h, _⟩ := hat hm
    exact h.reached
  · intro h
    -- each way of reaching a node is a way of entering it from one that is in the order
    induction h with
    | child h =>
      obtain ⟨before, rest, hsplit⟩ := List.append_of_mem h
      exact mem_visitOrderAll_iff.mpr ⟨before, _, rest, hsplit, self_mem_visitOrder⟩
    | inside _ hplain h ih =>
      obtain ⟨f, _, hsub⟩ := hat ih
      obtain ⟨before, rest, hsplit⟩ := List.append_of_mem h
      exact henters hsub (.inside hplain hsplit)
    | condition _ hif h ih =>
      obtain ⟨f, _, hsub⟩ := hat ih
      exact henters hsub (.condition hif h)
    | body _ hif h ih =>
      obtain ⟨f, _, hsub⟩ := hat ih
      obtain ⟨before, rest, hsplit⟩ := List.append_of_mem h
      exact henters hsub (.body hif hsplit)
    | otherwise _ hif he h ih =>
      obtain ⟨f, hn, hsub⟩ := hat ih
      have hbody : laterBody f = _ := congrArg (fun o => (o.map Node.body).getD [])
        (nextElse?_eq_some_iff.mpr ((tree.nextElse_iff hn.placed).mp he))
      obtain ⟨before, rest, hsplit⟩ := List.append_of_mem h
      exact henters hsub (.otherwise hif (hbody.trans hsplit))

end SourceTree

/-! ### Each node once -/

/-- The nodes in the order of visits of `n` are below it or, if it is an `<If>`, in the `<Else>` after
it, and they are different. -/
def CountedIn (marker : String) (following : List Node) (n : Node) : Prop :=
  (↑((visitOrder marker following n).map Node.source) : Multiset Node) ≤
    allBelow [n] + if n.isIf then allBelow (laterBody following) else 0

theorem source_add_allBelow_body_le (n : Node) : {n.source} + allBelow n.body ≤ allBelow [n] := by
  rw [allBelow_singleton]
  refine add_le_add_right ?_ _
  rw [Node.body]
  cases hlist : n.bodyList with
  | none => exact Multiset.zero_le _
  | some list =>
    refine le_trans ?_ (allBelow_le_of_mem_list (Node.mem_of_bodyList hlist).1)
    rw [allBelow_singleton]
    exact Multiset.le_add_left _ _

section Counted

variable {marker : String} {following : List Node} {n : Node} {ns : List Node}

theorem countedIn_nil : CountedIn marker [] n ↔
    (↑((visitOrder marker [] n).map Node.source) : Multiset Node) ≤ allBelow [n] := by
  have hnone : laterBody [] = [] := rfl
  rw [CountedIn, hnone, allBelow_nil, ite_self, add_zero]

/-- In a body, the entries of the `<Else>` that it begins with are not visited there: the `<Else>`
counts for itself only. -/
theorem visits_add_laterBody_le
    (h : ∀ before c rest, ns = before ++ c :: rest → CountedIn marker rest c) :
    (↑((visitOrderAll marker true ns).map Node.source) : Multiset Node) +
      allBelow (laterBody ns) ≤ allBelow ns := by
  induction ns with
  | nil =>
    rw [visitOrderAll]
    exact le_rfl
  | cons n rest ih =>
    have hn := h [] n rest rfl
    have hrest := ih fun before c after hsplit => h (n :: before) c after (by rw [hsplit]; rfl)
    rw [visitOrderAll, if_pos rfl, List.map_append, ← Multiset.coe_add]
    by_cases helse : n.isElse = true
    · rw [laterBody_cons, isBlankText_eq_false_of_isElementOf helse, if_neg Bool.false_ne_true,
        if_pos helse, visitOrder_of_isElse helse, allBelow_cons]
      calc ({n.source} : Multiset Node) + ↑((visitOrderAll marker true rest).map Node.source) +
            allBelow n.body
          = {n.source} + allBelow n.body + ↑((visitOrderAll marker true rest).map Node.source) := by
            abel
        _ ≤ allBelow [n] + allBelow rest :=
            add_le_add (source_add_allBelow_body_le n) ((Multiset.le_add_right _ _).trans hrest)
    · -- the entries of the next `<Else>` go to an `<If>` here or pass on over blank text, not both
      have hlater : allBelow (laterBody (n :: rest)) +
          (if n.isIf then allBelow (laterBody rest) else 0) ≤ allBelow (laterBody rest) := by
        rw [laterBody_cons]
        by_cases hblank : n.isBlankText = true
        · have hif : n.isIf = false := isElementOf_eq_false_of_isBlankText hblank "If"
          rw [if_pos hblank, hif, if_neg Bool.false_ne_true, add_zero]
        · rw [if_neg hblank, if_neg helse, allBelow_nil, zero_add]
          split
          · exact le_rfl
          · exact Multiset.zero_le _
      exact count_cons_le hn hlater hrest

theorem visits_le_of_apart (h : ∀ c ∈ ns, CountedIn marker [] c) :
    (↑((visitOrderAll marker false ns).map Node.source) : Multiset Node) ≤ allBelow ns := by
  induction ns with
  | nil =>
    rw [visitOrderAll]
    exact le_rfl
  | cons n rest ih =>
    rw [visitOrderAll, if_neg Bool.false_ne_true, List.map_append, ← Multiset.coe_add, allBelow_cons]
    exact add_le_add (countedIn_nil.mp (h n List.mem_cons_self))
      (ih fun c hc => h c (List.mem_cons_of_mem n hc))

end Counted

namespace SourceTree

variable {links : Links} {marker : String} {root n : Node} {following : List Node}
  (tree : SourceTree links root)
include tree

/-- What is visited in the condition of an `<If>` and what is in its body are different nodes. -/
theorem conditionOrder_add_body_le (hn : n ∈ root.preorder) (hif : n.isIf = true)
    (h : ∀ e, n.condition = .ok e → CountedIn marker [] e) :
    {n.source} + (↑((conditionOrder marker n).map Node.source) : Multiset Node) +
      allBelow n.body ≤ allBelow [n] := by
  rw [conditionOrder]
  cases he : n.condition with
  | error cause =>
    show {n.source} + (0 : Multiset Node) + allBelow n.body ≤ allBelow [n]
    rw [add_zero]
    exact source_add_allBelow_body_le n
  | ok e =>
    obtain ⟨openTag, list, closeTag, hcs, _, hbody, _, _⟩ :=
      tree.exists_list hn (Node.hasBody_of_isIf hif)
    refine le_trans ?_ (allBelow_condition_add_le hcs hif he)
    rw [hbody]
    exact add_le_add_left (add_le_add_right (countedIn_nil.mp (h e he)) _) _

theorem countedIn : Placed root n following → CountedIn marker following n := by
  induction following, n using entersInduction marker with
  | step following n ih =>
    intro hplaced
    have hn := mem_of_placed hplaced
    by_cases hif : n.isIf = true
    · have hparts := tree.conditionOrder_add_body_le hn hif fun e he =>
        ih [] e (.condition hif he) (placed_condition hn he)
      have hbody := visits_add_laterBody_le fun before c rest (hsplit : n.body = _) =>
        ih rest c (.body hif hsplit) (tree.placed_of_body hn hsplit)
      have hother := visits_add_laterBody_le fun before c rest
          (hsplit : laterBody following = before ++ c :: rest) => by
        obtain ⟨e, _, hmem, hb⟩ :=
          tree.exists_of_mem_laterBody (c := c) hplaced (by rw [hsplit]; simp)
        exact ih rest c (.otherwise hif hsplit) (tree.placed_of_body hmem (hb ▸ hsplit))
      rw [CountedIn, if_pos hif, visitOrder_of_isIf hif, List.map_cons, List.map_append,
        List.map_append, ← Multiset.cons_coe, ← Multiset.coe_add, ← Multiset.coe_add,
        ← Multiset.singleton_add, ← add_assoc, ← add_assoc]
      calc {n.source} + (↑((conditionOrder marker n).map Node.source) : Multiset Node) +
              ↑((visitOrderAll marker true n.body).map Node.source) +
              ↑((visitOrderAll marker true (laterBody following)).map Node.source)
          ≤ {n.source} + ↑((conditionOrder marker n).map Node.source) + allBelow n.body +
              allBelow (laterBody following) :=
            add_le_add (add_le_add_right ((Multiset.le_add_right _ _).trans hbody) _)
              ((Multiset.le_add_right _ _).trans hother)
        _ ≤ allBelow [n] + allBelow (laterBody following) := add_le_add_left hparts _
    · rw [CountedIn, if_neg hif, add_zero]
      by_cases hplain : n.isConstruct marker = false
      · rw [visitOrder_of_plain hplain, List.map_cons, ← Multiset.cons_coe,
          ← Multiset.singleton_add, allBelow_singleton]
        refine add_le_add_right ?_ _
        have hcounted : ∀ before c rest, n.children = before ++ c :: rest →
            CountedIn marker (if n.kind = .syntaxList then rest else []) c :=
          fun before c rest hsplit => ih _ c (.inside hplain hsplit) (placed_of_children hn hsplit)
        by_cases hlist : n.kind = .syntaxList
        · simp only [if_pos hlist] at hcounted
          rw [decide_eq_true hlist]
          exact (Multiset.le_add_right _ _).trans (visits_add_laterBody_le hcounted)
        · simp only [if_neg hlist] at hcounted
          rw [decide_eq_false hlist]
          refine visits_le_of_apart fun c hc => ?_
          obtain ⟨before, rest, hsplit⟩ := List.append_of_mem hc
          exact hcounted before c rest hsplit
      · have hstop : n.isElse = true ∨ n.moduleSpecifier = some marker := by
          rw [Bool.not_eq_false] at hplain
          simpa [Node.isConstruct, hif] using hplain
        rw [visitOrder, if_neg hif, if_pos hstop, allBelow_singleton]
        exact Multiset.le_add_right _ _

/-- No node comes twice in the order of visits of a whole tree. -/
theorem nodup_visitOrderAll_root : (visitOrderAll marker false root.children).Nodup := by
  have hle : (↑((visitOrderAll marker false root.children).map Node.source) : Multiset Node) ≤
      allBelow [root] := by
    rw [allBelow_singleton]
    refine le_trans (visits_le_of_apart fun c hc => ?_) (Multiset.le_add_left _ _)
    obtain ⟨before, rest, hsplit⟩ := List.append_of_mem hc
    have hplaced := placed_of_children (Node.self_mem_preorder root) hsplit
    rw [if_neg tree.rootKind] at hplaced
    exact tree.countedIn hplaced
  have hall : root.preorder.map Node.source = root.preorder := by
    rw [List.map_congr_left fun n hn => tree.source_eq hn, List.map_id']
  rw [allBelow, List.flatMap_singleton, hall] at hle
  exact List.Nodup.of_map _
    (Multiset.coe_nodup.mp (Multiset.nodup_of_le hle (Multiset.coe_nodup.mpr tree.nodup_preorder)))

theorem nodup_ids_visitOrderAll_root :
    ((visitOrderAll marker false root.children).map Node.id).Nodup := by
  refine tree.nodup_visitOrderAll_root.map_on fun m hm n hn heq => ?_
  exact tree.eq_of_id_eq (tree.mem_of_reached (tree.mem_visitOrderAll_root_iff.mp hm))
    (tree.mem_of_reached (tree.mem_visitOrderAll_root_iff.mp hn)) heq

end SourceTree

end CondMarkup
