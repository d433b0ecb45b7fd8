import CondMarkup.Proofs.Depth
import CondMarkup.Proofs.Refinement

/-!
The expansion on a store does what the expansion does. The store contains the tree of the source, in
which every `<If>` and every `<Else>` is found, so what is read of them is what they are; of made
nodes it matters only what does not depend on their identities. From this each part of the expansion
on the store is compared with its counterpart, up to a visit.
-/

namespace CondMarkup

open Store Expansion

/-! ### The source in the store -/

/-- The first nodes of the store are those of the tree of `root`. -/
structure Contains (known : Nat) (root : Node) (s : Store) : Prop where
  ordered : Ordered known s
  source : ∀ n ∈ root.preorder, ∃ i < known, n.id = some i ∧ s.unfold known i = some n

section Contains

variable {known : Nat} {root : Node} {s s' : Store}

theorem Contains.of_same (h : Contains known root s) (hordered : Ordered known s')
    (hsame : SameBelow known s s') : Contains known root s' := by
  refine ⟨hordered, fun n hn => ?_⟩
  obtain ⟨i, hi, hid, hunfold⟩ := h.source n hn
  refine ⟨i, hi, hid, ?_⟩
  rw [unfold_congr h.ordered.source hsame known i hi]
  exact hunfold

namespace SourceTree

variable {links : Links} (tree : SourceTree links root) (h : Contains known root s)
include tree h

theorem holdsAt_source {n : Node} (hn : n ∈ root.preorder) :
    ∃ i < known, n.id = some i ∧ HoldsAt known s known i n := by
  obtain ⟨i, hi, hid, hunfold⟩ := h.source n hn
  refine ⟨i, hi, hid, n, hunfold, Node.forget_of_known fun m hm => ?_⟩
  have hmem := Node.mem_preorder_trans hm hn
  obtain ⟨j, hj, hjd, _⟩ := h.source m hmem
  exact ⟨⟨j, hj, hjd⟩, tree.bare m hmem⟩

theorem holds_source {n : Node} (hn : n ∈ root.preorder) :
    ∃ i < known, n.id = some i ∧ Holds known s i n := by
  obtain ⟨i, hi, hid, hholds⟩ := tree.holdsAt_source h hn
  exact ⟨i, hi, hid, hholds.mono h.ordered.size⟩

omit tree in
/-- A node that reads as a node of the source is that node. -/
theorem node?_of_holds {i : NodeId} {n : Node} (hholds : Holds known s i n) (hn : n ∈ root.preorder) :
    i < known ∧ n.id = some i ∧ s.node? i = some n := by
  obtain ⟨j, hj, hid, hunfold⟩ := h.source n hn
  obtain ⟨_, _, hfilter, _⟩ := hholds.exists_stored
  rw [hid] at hfilter
  obtain ⟨heq, _⟩ := Option.filter_eq_some_iff.mp hfilter.symm
  obtain rfl : i = j := Option.some.inj heq
  exact ⟨hj, hid, unfold_mono hunfold h.ordered.size⟩

omit tree in
/-- A node of the source is read as it is. -/
theorem eq_of_read {i : NodeId} {n : Node} (hread : s.node? i = some n)
    (hn : n.forget known ∈ root.preorder) : n.forget known = n := by
  obtain ⟨_, _, hsource⟩ := node?_of_holds h ⟨n, hread, rfl⟩ hn
  exact Option.some.inj (hsource.symm.trans hread)

/-- What reads as a node of the source does so without what was made later. -/
theorem holdsAt_of_holds {i : NodeId} {n : Node} (hholds : Holds known s i n) (hn : n ∈ root.preorder) :
    i < known ∧ HoldsAt known s known i n := by
  obtain ⟨hknown, hid, _⟩ := node?_of_holds h hholds hn
  obtain ⟨j, _, hj, hsource⟩ := tree.holdsAt_source h hn
  obtain rfl : i = j := Option.some.inj (hid.symm.trans hj)
  exact ⟨hknown, hsource⟩

/-- The links of the store are as good as any. -/
theorem sourceTree_links : SourceTree s.links root where
  found := by
    intro n hn
    obtain ⟨i, _, hid, hunfold⟩ := h.source n hn
    exact ⟨i, hid, unfold_mono hunfold h.ordered.size⟩
  parent := tree.parent
  rootParent := tree.rootParent
  distinct := tree.distinct
  bare := tree.bare
  shaped := tree.shaped
  rootKind := tree.rootKind

theorem markupParent_links {n : Node} (hn : n ∈ root.preorder) :
    n.markupParent s.links = n.markupParent links := by
  refine Option.ext fun p => ?_
  rw [(tree.sourceTree_links h).markupParent_eq_some_iff hn, tree.markupParent_eq_some_iff hn]

/-- The identities of nodes of the source are at hand. -/
theorem mapM_identity {ns : List Node} (hns : ∀ n ∈ ns, n ∈ root.preorder) :
    ∃ ids, ns.mapM OnStore.identity s = ⟨[], .ok ids⟩ ∧ List.Forall₂ (Holds known s) ids ns := by
  induction ns with
  | nil => exact ⟨[], rfl, .nil⟩
  | cons n rest ih =>
    obtain ⟨i, _, hid, hholds⟩ := tree.holds_source h (hns n List.mem_cons_self)
    obtain ⟨ids, hids, hrest⟩ := ih fun m hm => hns m (List.mem_cons_of_mem n hm)
    refine ⟨i :: ids, ?_, .cons hholds hrest⟩
    rw [List.mapM_cons, OnStore.bind_of_silent (OnStore.identity_of_id hid s),
      OnStore.bind_of_silent hids]
    rfl

end SourceTree

end Contains

/-! ### Making a ternary -/

/-- A node that was made since the store had the size `base`, and what it reads as. -/
def Fresh (known base : Nat) (s : Store) (i : NodeId) (p : Node) : Prop :=
  base ≤ i ∧ Holds known s i p

section Ternary

variable {known : Nat} {root : Node} {s : Store} {links : Links} (tree : SourceTree links root)
  (hs : Contains known root s) {i : NodeId} {n : Node}
include tree hs

/-- A branch is made around entries that are there. -/
theorem refines_wrap {ids : List NodeId} {entries : List Node} (hn : n ∈ root.preorder)
    (hi : Holds known s i n) (hentries : List.Forall₂ (Holds known s) ids entries) :
    Refines known s.nodes.size s (InPlace.wrap i ids) (pure (Branches.wrap n entries))
      (Fresh known s.nodes.size) := by
  obtain ⟨hknown, horigin⟩ := tree.holdsAt_of_holds hs hi hn
  refine (refines_make hs.ordered .nil).bind_left hs.ordered (Nat.le_refl _) ?_
  rintro s₁ opening hs₁ hknown₁ hsame₁ hsize₁ ⟨rfl, _, hopening⟩
  have horigin₁ := horigin.of_same hs.ordered (Nat.le_refl _) hknown₁ hknown
  refine (refines_setOrigin hs₁ hs.ordered.size hknown hopening horigin₁).bind_left hs₁
    (Nat.le_refl _) ?_
  intro s₂ _ hs₂ _ hsame₂ hsize₂ hopening
  have hlater₂ : Later s s₂ := ⟨hsame₁.trans hsame₂, Nat.le_trans hsize₁ hsize₂⟩
  refine (refines_make hs₂ .nil).bind_left hs₂ hlater₂.2 ?_
  rintro s₃ closing hs₃ _ _ _ ⟨_, hlater₃, hclosing⟩
  have hentries₃ := hentries.imp fun _ _ h => h.later hs.ordered (hlater₂.trans hlater₃)
  refine (refines_make hs₃ hentries₃).bind_left hs₃ (hlater₂.trans hlater₃).2 ?_
  rintro s₄ list hs₄ _ _ _ ⟨_, hlater₄, hlist⟩
  have hparts := List.Forall₂.cons (hopening.later hs₂ (hlater₃.trans hlater₄))
    (.cons hlist (.cons (hclosing.later hs₃ hlater₄) .nil))
  have hlater : Later s s₄ := (hlater₂.trans hlater₃).trans hlater₄
  refine (refines_make hs₄ hparts).finish hs₄ hlater.2 fun s₅ fragment _ _ h => ?_
  exact ⟨h.1 ▸ hlater.2, h.2.2⟩

omit hs in
/-- The entries of the `<Else>` that belongs to an `<If>` are nodes of the source. -/
theorem SourceTree.mem_of_elseEntries {following other : List Node}
    (hplaced : Placed root n following)
    (hother : elseEntries links n = .ok other) : ∀ c ∈ other, c ∈ root.preorder := by
  rcases tree.body_of_leadingElse hplaced ((tree.elseEntries_eq_ok_iff hplaced).mp hother).2 with
    rfl | ⟨e, _, he, _, rfl⟩
  · exact fun c hc => absurd hc List.not_mem_nil
  · exact fun c hc => tree.mem_of_mem_body he hc

theorem refines_whenTrue (hn : n ∈ root.preorder) (hi : Holds known s i n)
    (hbody : n.hasBody = true) :
    Refines known s.nodes.size s (InPlace.whenTrue i n) (checked (Branches.whenTrue n))
      (Fresh known s.nodes.size) := by
  rw [InPlace.whenTrue, Branches.whenTrue, checked_bind]
  refine refines_checked_bind fun entries hentries => ?_
  have hmem : ∀ c ∈ entries, c ∈ root.preorder := by
    rw [((tree.entries_eq_ok_iff hn hbody).mp hentries).1]
    exact fun c hc => tree.mem_of_mem_body hn hc
  obtain ⟨ids, hids, hholds⟩ := tree.mapM_identity hs hmem
  exact refines_of_silent hids (refines_wrap tree hs hn hi hholds)

omit tree in
theorem refines_makeNull : Refines known s.nodes.size s InPlace.makeNull (pure Node.makeNull)
    (Fresh known s.nodes.size) :=
  (refines_make hs.ordered .nil).finish hs.ordered (Nat.le_refl _) fun _ _ _ _ h =>
    ⟨Nat.le_of_eq h.1.symm, h.2.2⟩

theorem refines_whenFalse {following : List Node} (hplaced : Placed root n following)
    (hi : Holds known s i n) :
    Refines known s.nodes.size s (InPlace.whenFalse i n) (checked (Branches.whenFalse links n))
      (Fresh known s.nodes.size) := by
  have hn := mem_of_placed hplaced
  rw [InPlace.whenFalse, Branches.whenFalse]
  refine refines_of_silent rfl ?_
  rw [tree.markupParent_links hs hn]
  cases hparent : n.markupParent links with
  | none => exact refines_makeNull hs
  | some parent =>
    simp only
    rw [checked_bind]
    refine refines_checked_bind fun entries hentries => ?_
    cases entries with
    | nil => exact refines_makeNull hs
    | cons entry rest =>
      have hother : elseEntries links n = .ok (entry :: rest) := by
        rw [elseEntries, hparent]
        exact hentries
      obtain ⟨ids, hids, hholds⟩ := tree.mapM_identity hs (tree.mem_of_elseEntries hplaced hother)
      exact refines_of_silent hids (refines_wrap tree hs hn hi hholds)

omit tree hs in
theorem refines_conditionPart {condition : Node} {test : NodeId} (hordered : Ordered known s)
    (h : Holds known s test condition) :
    Refines known s.nodes.size s (InPlace.conditionPart test condition) (pure ())
      fun s' j _ => Holds known s' j (conditionPart condition) := by
  rw [InPlace.conditionPart, conditionPart]
  split
  · exact (refines_make hordered (.cons h .nil)).mono (Nat.le_refl _) fun _ _ _ hmade => hmade.2.2
  · exact refines_pure h

/-- The ternary for an `<If>` is made from nodes that were made since and from nodes of the source. -/
theorem refines_ternary {following : List Node} (hplaced : Placed root n following)
    (hi : Holds known s i n) (hbody : n.hasBody = true) :
    Refines known s.nodes.size s (InPlace.ternary i n) (checked (Branches.ternary links n))
      (Fresh known s.nodes.size) := by
  have hn := mem_of_placed hplaced
  rw [InPlace.ternary, Branches.ternary, checked_bind]
  refine refines_checked_bind fun condition hcondition => ?_
  obtain ⟨test, _, hid, htest⟩ :=
    tree.holds_source hs (mem_of_placed (placed_condition hn hcondition))
  refine refines_of_silent (OnStore.identity_of_id hid s) ?_
  rw [checked_bind]
  refine (refines_whenTrue tree hs hn hi hbody).bind hs.ordered (Nat.le_refl _) ?_
  rintro s₁ yes yesNode hs₁ hknown₁ hsame₁ hsize₁ - ⟨_, hyes⟩
  have hlater₁ : Later s s₁ := ⟨hsame₁, hsize₁⟩
  have hi₁ := hi.later hs.ordered hlater₁
  rw [checked_bind]
  refine (refines_whenFalse tree (hs.of_same hs₁ hknown₁) hplaced hi₁).bind hs₁ hsize₁ ?_
  rintro s₂ no noNode hs₂ _ hsame₂ hsize₂ - ⟨_, hno⟩
  have hlater₂ : Later s₁ s₂ := ⟨hsame₂, hsize₂⟩
  have htest₂ := htest.later hs.ordered (hlater₁.trans hlater₂)
  refine (refines_conditionPart hs₂ htest₂).bind_left hs₂ (hlater₁.trans hlater₂).2 ?_
  intro s₃ test hs₃ _ hsame₃ hsize₃ htest
  have hlater₃ : Later s₂ s₃ := ⟨hsame₃, hsize₃⟩
  have hparts := List.Forall₂.cons htest (.cons ((hyes.later hs₁ hlater₂).later hs₂ hlater₃)
    (.cons (hno.later hs₂ hlater₃) .nil))
  have hlater : Later s s₃ := (hlater₁.trans hlater₂).trans hlater₃
  refine (refines_make hs₃ hparts).bind_left hs₃ hlater.2 ?_
  rintro s₄ conditional hs₄ _ _ hsize₄ ⟨_, _, hconditional⟩
  refine (refines_make hs₄ (.cons hconditional .nil)).finish hs₄ (Nat.le_trans hlater.2 hsize₄) ?_
  rintro s₅ made _ _ ⟨rfl, _, hmade⟩
  exact ⟨Nat.le_trans hlater.2 hsize₄, hmade⟩

end Ternary

/-! ### Visiting children -/

/-- What a visit of the node `i` on a store comes to, where `base` is the size of the store before.
What takes the place of the node was made by the visit. -/
def Yields (known base : Nat) (s : Store) (i : NodeId) (result : Option NodeId) : Change → Prop
  | .keep => result = some i
  | .remove => result = none
  | .replace q => ∃ j, result = some j ∧ Fresh known base s j q

/-- A node with what its visit came to, on a store and off it. -/
def Corresponds (known base : Nat) (s : Store) (x : NodeId × Option NodeId) (y : Node × Change) :
    Prop :=
  x.1 < base ∧ Holds known s x.1 y.1 ∧ Yields known base s x.1 x.2 y.2

section Children

variable {known base : Nat} {root : Node} {s s' : Store} {i : NodeId} {n : Node}

theorem Fresh.later {j : NodeId} {q : Node} (h : Fresh known base s j q) (hordered : Ordered known s)
    (hlater : Later s s') : Fresh known base s' j q := ⟨h.1, h.2.later hordered hlater⟩

theorem Yields.later {result : Option NodeId} {change : Change}
    (h : Yields known base s i result change) (hordered : Ordered known s) (hlater : Later s s') :
    Yields known base s' i result change := by
  cases change with
  | keep => exact h
  | remove => exact h
  | replace q =>
    obtain ⟨j, hj, hfresh⟩ := h
    exact ⟨j, hj, hfresh.later hordered hlater⟩

/-- More is made since there was less. -/
theorem Yields.mono {less : Nat} {result : Option NodeId} {change : Change}
    (h : Yields known base s i result change) (hless : less ≤ base) :
    Yields known less s i result change := by
  cases change with
  | keep => exact h
  | remove => exact h
  | replace q =>
    obtain ⟨j, hj, hbase, hholds⟩ := h
    exact ⟨j, hj, Nat.le_trans hless hbase, hholds⟩

/-- What stands in the place of a node that is never removed. -/
theorem Yields.fresh_result {less : Nat} {j : NodeId} {change : Change}
    (h : Yields known base s i (some j) change) (hi : Fresh known less s i n) (hless : less ≤ base) :
    Fresh known less s j ((change.result n).getD n) := by
  cases change with
  | keep =>
    obtain rfl : j = i := Option.some.inj h
    exact hi
  | remove => cases h
  | replace q =>
    obtain ⟨k, hk, hbase, hq⟩ := h
    obtain rfl : j = k := Option.some.inj hk
    exact ⟨Nat.le_trans hless hbase, hq⟩

/-- A node is kept on the store exactly if it is kept. -/
theorem Corresponds.keep_iff {x : NodeId × Option NodeId} {y : Node × Change}
    (h : Corresponds known base s x y) : x.2 = some x.1 ↔ y.2.isKeep = true := by
  obtain ⟨i, result⟩ := x
  obtain ⟨m, change⟩ := y
  obtain ⟨hi, _, hyields⟩ := h
  cases change with
  | keep => exact iff_of_true hyields rfl
  | remove =>
    obtain rfl : result = none := hyields
    simp [Change.isKeep]
  | replace q =>
    obtain ⟨j, rfl, hj, _⟩ := hyields
    have hne : j ≠ i := Nat.ne_of_gt (Nat.lt_of_lt_of_le hi hj)
    simp [Change.isKeep, hne]

theorem forall₂_corresponds_all {xs : List (NodeId × Option NodeId)} {ys : List (Node × Change)}
    (h : List.Forall₂ (Corresponds known base s) xs ys) :
    (xs.all fun x => x.2 = some x.1) = ys.all fun y => y.2.isKeep := by
  induction h with
  | nil => rfl
  | cons hxy _ ih =>
    rw [List.all_cons, List.all_cons, ih, Bool.eq_iff_iff.mpr (decide_eq_true_iff.trans hxy.keep_iff)]

theorem forall₂_corresponds_results {xs : List (NodeId × Option NodeId)} {ys : List (Node × Change)}
    (h : List.Forall₂ (Corresponds known base s) xs ys) :
    List.Forall₂ (Holds known s) (xs.filterMap Prod.snd) (ys.filterMap fun y => y.2.result y.1) := by
  induction h with
  | nil => exact .nil
  | @cons x y xs ys hxy _ ih =>
    obtain ⟨i, result⟩ := x
    obtain ⟨m, change⟩ := y
    obtain ⟨_, hm, hyields⟩ := hxy
    cases change with
    | keep =>
      obtain rfl : result = some i := hyields
      exact .cons hm ih
    | remove =>
      obtain rfl : result = none := hyields
      exact ih
    | replace q =>
      obtain ⟨j, rfl, _, hq⟩ := hyields
      exact .cons hq ih

/-- Visits of a node on a store do what visits of the node do, whenever it comes to them. -/
def VisitRefines (known : Nat) (root : Node) (visit : NodeId → OnStore (Option NodeId))
    (recur : Node → Visited) (n : Node) : Prop :=
  ∀ s i, Contains known root s → Holds known s i n →
    Refines known s.nodes.size s (visit i) (recur n) fun s' => Yields known s.nodes.size s' i

variable {visit : NodeId → OnStore (Option NodeId)} {recur : Node → Visited}

/-- Nodes that are there are visited one after the other. -/
theorem refines_visits {is : List NodeId} {ns : List Node} (hs : Contains known root s)
    (hbase : base ≤ s.nodes.size) (his : ∀ i ∈ is, i < base)
    (hholds : List.Forall₂ (Holds known s) is ns)
    (hvisit : ∀ n ∈ ns, VisitRefines known root visit recur n) :
    Refines known s.nodes.size s (is.mapM fun i => return (i, ← visit i))
      (ns.mapM fun n => return (n, ← recur n))
      fun s' => List.Forall₂ (Corresponds known base s') := by
  induction ns generalizing s is with
  | nil =>
    obtain rfl := List.forall₂_nil_right_iff.mp hholds
    exact refines_pure .nil
  | cons n ns ih =>
    obtain ⟨i, is, hi, hrest, rfl⟩ := List.forall₂_cons_right_iff.mp hholds
    have hbefore : i < base := his i List.mem_cons_self
    rw [List.mapM_cons, List.mapM_cons, bind_assoc, bind_assoc]
    refine (hvisit n List.mem_cons_self s i hs hi).bind hs.ordered (Nat.le_refl _) ?_
    intro s₁ result change hs₁ hknown₁ hsame₁ hsize₁ _ hyields
    have hlater₁ : Later s s₁ := ⟨hsame₁, hsize₁⟩
    have hrest₁ := hrest.imp fun _ _ h => h.later hs.ordered hlater₁
    rw [pure_bind, pure_bind]
    -- the others are visited in a store with more nodes, but they were there before
    refine (ih (hs.of_same hs₁ hknown₁) (Nat.le_trans hbase hsize₁)
      (fun j hj => his j (List.mem_cons_of_mem i hj)) hrest₁
      fun m hm => hvisit m (List.mem_cons_of_mem n hm)).bind hs₁ hsize₁ ?_
    intro s₂ results changes _ _ hsame₂ hsize₂ _ hresults
    have hlater₂ : Later s₁ s₂ := ⟨hsame₂, hsize₂⟩
    refine refines_pure (.cons ⟨hbefore, ?_, ?_⟩ hresults)
    · exact hi.later hs.ordered (hlater₁.trans hlater₂)
    · exact (hyields.mono hbase).later hs₁ hlater₂

/-- The children of a node are visited in the same way, and a copy is made if something changes. -/
theorem refines_visitChildren (hs : Contains known root s) (hi : Holds known s i n)
    (hvisit : ∀ c ∈ n.children, VisitRefines known root visit recur c) :
    Refines known s.nodes.size s (InPlace.visitChildren visit i) (n.visitChildren recur)
      fun s' j => Yields known s.nodes.size s' i (some j) := by
  obtain ⟨stored, hstored, _, _, _, hchildren⟩ := hi.exists_stored
  have hbefore : ∀ c ∈ stored.children, c < s.nodes.size := fun c hc => by
    obtain ⟨m, _, hm⟩ := exists_of_forall₂ hchildren hc
    exact hm.lt_size
  rw [InPlace.visitChildren, Node.visitChildren]
  refine refines_of_silent (OnStore.childrenOf_of_getElem? hstored) ?_
  refine (refines_visits hs (Nat.le_refl _) hbefore hchildren hvisit).bind hs.ordered
    (Nat.le_refl _) ?_
  intro s₁ results changes hs₁ _ hsame₁ hsize₁ _ hresults
  rw [forall₂_corresponds_all hresults, Node.changedChildren]
  split
  · exact refines_pure rfl
  · have hi₁ := hi.later hs.ordered ⟨hsame₁, hsize₁⟩
    refine (refines_copy hs₁ hi₁ (forall₂_corresponds_results hresults)).finish hs₁ hsize₁ ?_
    rintro s₂ copy _ _ ⟨rfl, _, hcopy⟩
    exact ⟨_, rfl, hsize₁, hcopy⟩

/-! ### Visiting a node -/

variable {links : Links} (tree : SourceTree links root) (hs : Contains known root s) {fuel : Nat}
include tree hs

theorem refines_expandIf {setting : Setting} (hlinks : setting.links = links) {following : List Node}
    (hplaced : Placed root n following) (hi : Holds known s i n) (hif : n.isIf = true)
    (hvisit : ∀ T, Branches.ternary links n = .ok T →
      ∀ c ∈ T.children, VisitRefines known root visit recur c) :
    Refines known s.nodes.size s (InPlace.expandIf visit i n) (expandIf setting recur n)
      fun s' => Yields known s.nodes.size s' i := by
  obtain ⟨hknown, horigin⟩ := tree.holdsAt_of_holds hs hi (mem_of_placed hplaced)
  rw [InPlace.expandIf, expandIf, hlinks]
  refine (refines_ternary tree hs hplaced hi (Node.hasBody_of_isIf hif)).bind hs.ordered
    (Nat.le_refl _) ?_
  rintro s₁ made T hs₁ hknown₁ hsame₁ hsize₁ hT hmade
  refine refines_tell_bind ?_
  have hs₁' := hs.of_same hs₁ hknown₁
  refine (refines_visitChildren hs₁' hmade.2 (hvisit T (outcome_checked.mp hT))).bind hs₁ hsize₁ ?_
  intro s₂ result change hs₂ hknown₂ hsame₂ hsize₂ _ hresult
  have hfresh := hresult.fresh_result (hmade.later hs₁ ⟨hsame₂, hsize₂⟩) hsize₁
  have horigin₂ : HoldsAt known s₂ known i n :=
    horigin.of_same hs.ordered (Nat.le_refl _) (hknown₁.trans hknown₂) hknown
  -- the result was made since, copy or not, so its origin may be written
  have htarget : known ≤ result := Nat.le_trans hs.ordered.size hfresh.1
  refine (refines_setOrigin hs₂ htarget hknown hfresh.2 horigin₂).bind_left hs₂ hfresh.1 ?_
  intro s₃ _ _ _ _ _ hwritten
  exact refines_pure ⟨result, rfl, hfresh.1, hwritten⟩

theorem refines_removeElse {setting : Setting} (hlinks : setting.links = links)
    (hn : n ∈ root.preorder) :
    Refines known s.nodes.size s (InPlace.removeElse n) (removeElse setting n)
      fun s' => Yields known s.nodes.size s' i := by
  rw [InPlace.removeElse, removeElse]
  refine refines_of_silent rfl ?_
  rw [tree.markupParent_links hs hn, hlinks]
  cases n.markupParent links with
  | none => exact ⟨trivial, .refl _ s, rfl, rfl⟩
  | some parent => exact refines_pure rfl

omit tree in
/-- An element that is read is one of the source, and it is read as it is there. -/
theorem placed_of_read_element (hfits : Fits root fuel (n.forget known)) (hread : s.node? i = some n)
    (helement : n.kind = .jsxElement) :
    n.forget known = n ∧ ∃ following, Placed root n following := by
  obtain ⟨following, hplaced, _⟩ := hfits.placed_of_element ((Node.kind_forget n).trans helement)
  have heq := SourceTree.eq_of_read hs hread (mem_of_placed hplaced)
  exact ⟨heq, following, heq ▸ hplaced⟩

/-- What is done with a node that passed its check. It is read from the store, so it may have an
identity that it has not off the store. -/
theorem refines_treatChecked {setting : Setting} (hlinks : setting.links = links)
    (hfits : Fits root fuel (n.forget known)) (hread : s.node? i = some n)
    (hbelow : ∀ nodes, planChecked setting (n.forget known) = .ok nodes →
      ∀ c ∈ nodes, VisitRefines known root visit recur c) :
    Refines known s.nodes.size s
      (if n.isIf = true then InPlace.expandIf visit i n
        else if n.isElse = true then InPlace.removeElse n
        else return some (← InPlace.visitChildren visit i))
      (if (n.forget known).isIf = true then expandIf setting recur (n.forget known)
        else if (n.forget known).isElse = true then removeElse setting (n.forget known)
        else (n.forget known).visitChildren recur)
      fun s' => Yields known s.nodes.size s' i := by
  have hi : Holds known s i (n.forget known) := ⟨n, hread, rfl⟩
  rw [planChecked, Node.isIf_forget, Node.isElse_forget] at hbelow
  rw [Node.isIf_forget, Node.isElse_forget]
  by_cases hif : n.isIf = true
  · obtain ⟨heq, following, hplaced⟩ :=
      placed_of_read_element hs hfits hread (Node.kind_of_isElementOf hif)
    rw [if_pos hif, if_pos hif]
    rw [if_pos hif, heq, hlinks] at hbelow
    rw [heq] at hi ⊢
    refine refines_expandIf tree hs hlinks hplaced hi hif fun T hT => hbelow T.children ?_
    rw [hT]
    rfl
  rw [if_neg hif, if_neg hif]
  by_cases helse : n.isElse = true
  · obtain ⟨heq, following, hplaced⟩ :=
      placed_of_read_element hs hfits hread (Node.kind_of_isElementOf helse)
    rw [if_pos helse, if_pos helse, heq]
    exact refines_removeElse tree hs hlinks (mem_of_placed hplaced)
  · rw [if_neg hif, if_neg helse] at hbelow
    rw [if_neg helse, if_neg helse]
    have hchildren := (refines_visitChildren hs hi (hbelow _ rfl)).bind hs.ordered (Nat.le_refl _)
      (f := fun j => pure (some j)) (g := pure)
      fun s' j change _ _ _ _ _ hyields => refines_pure hyields
    rwa [bind_pure] at hchildren

theorem refines_treat {setting : Setting} (hlinks : setting.links = links)
    (hfits : Fits root (fuel + 1) (n.forget known)) (hread : s.node? i = some n)
    (hvisit : ∀ c, Fits root fuel c → VisitRefines known root visit recur c) :
    Refines known s.nodes.size s (InPlace.treat setting.marker visit i n)
      (treat setting recur (n.forget known)) fun s' => Yields known s.nodes.size s' i := by
  have hbelow : ∀ nodes, plan setting (n.forget known) = .ok nodes →
      ∀ c ∈ nodes, VisitRefines known root visit recur c := fun nodes hplan c hc =>
    hvisit c (tree.fits_of_plan hlinks hfits hplan hc)
  rw [plan, Node.moduleSpecifier_forget, Node.hasBody_forget, check_forget] at hbelow
  rw [InPlace.treat, treat, Node.moduleSpecifier_forget]
  by_cases himport : n.moduleSpecifier = some setting.marker
  · rw [if_pos himport, if_pos himport]
    exact refines_tell_bind (refines_pure rfl)
  rw [if_neg himport] at hbelow
  rw [if_neg himport, if_neg himport]
  by_cases hbody : n.hasBody = true
  · rw [if_pos hbody] at hbelow
    simp only [Node.hasBody_forget, if_pos hbody]
    rw [check_forget]
    refine refines_checked_bind fun _ hcheck => ?_
    rw [hcheck] at hbelow
    exact refines_treatChecked tree hs hlinks hfits hread hbelow
  · rw [if_neg hbody] at hbelow
    simp only [Node.hasBody_forget, if_neg hbody]
    exact refines_treatChecked tree hs hlinks hfits hread hbelow

omit tree in
/-- An error is given the same place on the store. -/
theorem placeErrorAt_eq {setting : Setting} (hi : Holds known s i n) (hfits : Fits root fuel n)
    (e : ExpansionError) : InPlace.placeErrorAt setting s i e = placeError setting n e := by
  obtain ⟨m, hread, rfl⟩ := hi
  rw [InPlace.placeErrorAt, show s.node? i = some m from hread]
  rcases hfits.mem_or_isMade with hn | ⟨_, _, hmade, _⟩
  · rw [SourceTree.eq_of_read hs hread hn]
  · -- a made node has no place to tell, whatever its identity
    have hinfo := hmade.synthesized
    rw [Node.info_forget] at hinfo
    have hread : m.hasSource = false := by simp [Node.hasSource, hinfo]
    have hknown : (m.forget known).hasSource = false := by simp [Node.hasSource, hinfo]
    cases e <;> simp [placeError, hread, hknown]

omit tree in
theorem refines_placingErrors {setting : Setting} {α β : Type} {x : OnStore α}
    {y : Journaled Step ExpansionError β} {R : Store → α → β → Prop} (hi : Holds known s i n)
    (hfits : Fits root fuel n) (h : Refines known s.nodes.size s x y R) :
    Refines known s.nodes.size s (InPlace.placingErrors setting i x)
      (y.mapError (placeError setting n)) R := by
  have hafter := hi.later hs.ordered h.later
  have hcontains := hs.of_same (h.allowed.ordered hs.ordered) (h.allowed.sameBelow hs.ordered)
  have hplace : InPlace.placeErrorAt setting _ i = placeError setting n :=
    funext (placeErrorAt_eq hcontains hafter hfits)
  refine ⟨h.allowed, h.same, h.steps, ?_⟩
  have houtcome := h.outcome.mapError (placeError setting n)
  rw [← hplace] at houtcome ⊢
  exact houtcome

end Children

/-- A visit on the store tells the same identity. -/
theorem SourceTree.id_told {known : Nat} {root : Node} {links : Links} {s : Store} {i fuel : Nat}
    {n : Node} (tree : SourceTree links root) (hs : Contains known root s)
    (hfits : Fits root fuel (n.forget known)) (hread : s.node? i = some n) :
    (if n.info.synthesized then none else n.id) = (n.forget known).id := by
  rcases hfits.mem_or_isMade with hn | ⟨_, _, hmade, _⟩
  · have heq := eq_of_read hs hread hn
    rw [heq] at hn ⊢
    rw [(tree.shapedAt hn).notMade]
    rfl
  · have hinfo := hmade.synthesized
    rw [Node.info_forget] at hinfo
    rw [if_pos hinfo, hmade.id_eq]

/-- A visit on the store does what the visit does. -/
theorem SourceTree.visitRefines {known : Nat} {root : Node} {links : Links} {setting : Setting}
    (tree : SourceTree links root) (hlinks : setting.links = links) (fuel : Nat) :
    ∀ n, Fits root fuel n →
      VisitRefines known root (InPlace.visit setting fuel) (visit setting fuel) n := by
  induction fuel with
  | zero => exact fun n hfits => absurd hfits not_fits_zero
  | succ fuel ih =>
    intro n hfits s i hs hi
    obtain ⟨m, hread, rfl⟩ := id hi
    rw [InPlace.visit, visit]
    refine refines_placingErrors hs hi hfits (refines_of_silent (OnStore.read_of_node? hread) ?_)
    rw [tree.id_told hs hfits hread]
    exact refines_tell_bind (refines_treat tree hs hlinks hfits hread ih)

end CondMarkup
