import CondMarkup.Markup.SourceFile

/-!
Trees of nodes as wholes. `preorder` lists the nodes of a tree; the lemmas here say which nodes those
are and that the nodes below one of them form a stretch of the list. `Everywhere` is a condition on
what a node and its children say about themselves, demanded at every node of a tree: such a condition
does not depend on identities, so it survives numbering.
-/

namespace CondMarkup.Node

theorem sizeOf_lt_of_mem_children {c n : Node} (h : c ∈ n.children) : sizeOf c < sizeOf n := by
  cases n with
  | mk i p o info cs =>
    have hc := List.sizeOf_lt_of_mem h
    simp only [children] at hc
    simp only [mk.sizeOf_spec]
    omega

/-- What holds of a node as soon as it holds of its children holds of every node. -/
theorem treeInduction {P : Node → Prop} (step : ∀ n, (∀ c ∈ n.children, P c) → P n) (n : Node) :
    P n :=
  step n fun c _ => treeInduction step c
termination_by n
decreasing_by exact sizeOf_lt_of_mem_children ‹_›

/-! ### The nodes of a tree -/

theorem preorderAll_eq (cs : List Node) : preorderAll cs = cs.flatMap preorder := by
  induction cs with
  | nil => rfl
  | cons c rest ih => rw [preorderAll, ih, List.flatMap_cons]

theorem preorder_eq (n : Node) : n.preorder = n :: n.children.flatMap preorder := by
  cases n with
  | mk i p o info cs => rw [preorder, preorderAll_eq, children]

theorem self_mem_preorder (n : Node) : n ∈ n.preorder := by
  rw [preorder_eq]
  exact List.mem_cons_self

theorem mem_preorder_iff {m n : Node} :
    m ∈ n.preorder ↔ m = n ∨ ∃ c ∈ n.children, m ∈ c.preorder := by
  rw [preorder_eq, List.mem_cons, List.mem_flatMap]

theorem mem_preorder_of_mem_children {c n : Node} (h : c ∈ n.children) : c ∈ n.preorder :=
  mem_preorder_iff.mpr (Or.inr ⟨c, h, self_mem_preorder c⟩)

/-- The nodes below a node of a tree form a part of the list of all nodes, in the same order. -/
theorem preorder_sublist {n : Node} : ∀ {m : Node}, m ∈ n.preorder → m.preorder.Sublist n.preorder := by
  induction n using treeInduction with
  | step n ih =>
    intro m hm
    rcases mem_preorder_iff.mp hm with rfl | ⟨c, hc, hmc⟩
    · exact List.Sublist.refl _
    · have hcn : c.preorder.Sublist (n.children.flatMap preorder) := by
        rw [List.flatMap_def]
        exact List.sublist_flatten_of_mem (List.mem_map_of_mem hc)
      rw [preorder_eq n]
      exact ((ih c hc hmc).trans hcn).cons n

theorem mem_preorder_trans {a b c : Node} (hab : a ∈ b.preorder) (hbc : b ∈ c.preorder) :
    a ∈ c.preorder := (preorder_sublist hbc).subset hab

theorem child_mem_preorder {c n root : Node} (hc : c ∈ n.children) (hn : n ∈ root.preorder) :
    c ∈ root.preorder := mem_preorder_trans (mem_preorder_of_mem_children hc) hn

/-- Every node of a tree but its root is a child in the tree. -/
theorem exists_parent {root : Node} :
    ∀ {n : Node}, n ∈ root.preorder → n = root ∨ ∃ p ∈ root.preorder, n ∈ p.children := by
  induction root using treeInduction with
  | step root ih =>
    intro n hn
    rcases mem_preorder_iff.mp hn with rfl | ⟨c, hc, hnc⟩
    · exact Or.inl rfl
    · have hcr := mem_preorder_of_mem_children hc
      rcases ih c hc hnc with rfl | ⟨p, hp, hnp⟩
      · exact Or.inr ⟨root, self_mem_preorder root, hc⟩
      · exact Or.inr ⟨p, mem_preorder_trans hp hcr, hnp⟩

theorem sublist_flatMap_preorder (cs : List Node) : cs.Sublist (cs.flatMap preorder) := by
  induction cs with
  | nil => exact List.Sublist.refl _
  | cons c rest ih =>
    rw [List.flatMap_cons, preorder_eq c, List.cons_append]
    exact (ih.trans (List.sublist_append_right _ _)).cons_cons c

theorem children_sublist_preorder (n : Node) : n.children.Sublist n.preorder := by
  rw [preorder_eq n]
  exact (sublist_flatMap_preorder n.children).cons n

theorem length_preorder (n : Node) : n.preorder.length = n.size := by
  induction n using treeInduction with
  | step n ih =>
    have hall : ∀ cs : List Node, (∀ c ∈ cs, c.preorder.length = c.size) →
        (cs.flatMap preorder).length = sizeAll cs := by
      intro cs
      induction cs with
      | nil => intro _; rfl
      | cons c rest ihr =>
        intro h
        rw [List.flatMap_cons, List.length_append, sizeAll, h c List.mem_cons_self,
          ihr fun d hd => h d (List.mem_cons_of_mem c hd)]
    rw [preorder_eq, List.length_cons, hall n.children ih]
    cases n with
    | mk i p o info cs => rfl

theorem size_le_of_mem_preorder {m n : Node} (h : m ∈ n.preorder) : m.size ≤ n.size := by
  have hlength := (preorder_sublist h).length_le
  rwa [length_preorder, length_preorder] at hlength

theorem size_pos (n : Node) : 0 < n.size := by
  cases n with
  | mk i p o info cs => simp only [size]; omega

theorem sizeAll_children_lt (n : Node) : sizeAll n.children < n.size := by
  cases n with
  | mk i p o info cs => simp only [size, children]; omega

theorem sizeAll_append (cs ds : List Node) : sizeAll (cs ++ ds) = sizeAll cs + sizeAll ds := by
  induction cs with
  | nil => simp [sizeAll]
  | cons c rest ih => simp only [List.cons_append, sizeAll, ih]; omega

theorem size_le_sizeAll {c : Node} {cs : List Node} (h : c ∈ cs) : c.size ≤ sizeAll cs := by
  obtain ⟨before, after, rfl⟩ := List.append_of_mem h
  rw [sizeAll_append, sizeAll]
  omega

theorem size_lt_of_mem_children {c n : Node} (h : c ∈ n.children) : c.size < n.size :=
  Nat.lt_of_le_of_lt (size_le_sizeAll h) (sizeAll_children_lt n)

theorem sizeAll_body_lt (n : Node) : sizeAll n.body < n.size := by
  rw [body, bodyList]
  split
  · cases hlist : n.children.find? fun c => c.kind = .syntaxList with
    | none => exact size_pos n
    | some list =>
      exact Nat.lt_trans (sizeAll_children_lt list)
        (size_lt_of_mem_children (List.mem_of_find?_eq_some hlist))
  · exact size_pos n

theorem mem_preorder_of_mem_body {c n : Node} (h : c ∈ n.body) : c ∈ n.preorder := by
  rw [body, bodyList] at h
  split at h
  · cases hlist : n.children.find? fun c => c.kind = .syntaxList with
    | none =>
      rw [hlist] at h
      exact absurd h List.not_mem_nil
    | some list =>
      rw [hlist] at h
      exact child_mem_preorder h (mem_preorder_of_mem_children (List.mem_of_find?_eq_some hlist))
  · exact absurd h List.not_mem_nil

/-! ### Conditions at every node -/

/-- At every node of the tree, `P` holds of what the node and its children say about themselves. -/
def Everywhere (P : NodeInfo → List NodeInfo → Prop) (n : Node) : Prop :=
  ∀ m ∈ n.preorder, P m.info (m.children.map info)

variable {P : NodeInfo → List NodeInfo → Prop}

theorem everywhere_iff {n : Node} :
    n.Everywhere P ↔ P n.info (n.children.map info) ∧ ∀ c ∈ n.children, c.Everywhere P := by
  constructor
  · intro h
    refine ⟨h n (self_mem_preorder n), fun c hc m hm => ?_⟩
    exact h m (mem_preorder_iff.mpr (Or.inr ⟨c, hc, hm⟩))
  · rintro ⟨hn, hc⟩ m hm
    rcases mem_preorder_iff.mp hm with rfl | ⟨c, hcn, hmc⟩
    · exact hn
    · exact hc c hcn m hmc

end CondMarkup.Node
