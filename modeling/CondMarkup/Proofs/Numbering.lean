import CondMarkup.Proofs.Tree
import Mathlib.Data.List.Nodup

/-!
Numbered trees. Numbering a tree gives the nodes, in the order in which they start, consecutive
identities; it changes nothing else, and afterwards every child names its parent. So the list of all
nodes of a numbered tree finds each of them under its identity.
-/

namespace CondMarkup.Node

theorem number_eq (parent : Option NodeId) (next : NodeId) (n : Node) :
    n.number parent next =
      (mk (some next) parent n.origin n.info (numberAll next (next + 1) n.children).1,
        (numberAll next (next + 1) n.children).2) := by
  cases n with
  | mk i p o info cs => rfl

@[simp] theorem id_number (parent : Option NodeId) (next : NodeId) (n : Node) :
    (n.number parent next).1.id = some next := by rw [number_eq]; rfl

@[simp] theorem parent_number (parent : Option NodeId) (next : NodeId) (n : Node) :
    (n.number parent next).1.parent = parent := by rw [number_eq]; rfl

@[simp] theorem origin_number (parent : Option NodeId) (next : NodeId) (n : Node) :
    (n.number parent next).1.origin = n.origin := by rw [number_eq]; rfl

@[simp] theorem info_number (parent : Option NodeId) (next : NodeId) (n : Node) :
    (n.number parent next).1.info = n.info := by rw [number_eq]; rfl

@[simp] theorem children_number (parent : Option NodeId) (next : NodeId) (n : Node) :
    (n.number parent next).1.children = (numberAll next (next + 1) n.children).1 := by
  rw [number_eq]; rfl

theorem kind_number (parent : Option NodeId) (next : NodeId) (n : Node) :
    (n.number parent next).1.kind = n.kind := congrArg NodeInfo.kind (info_number parent next n)

theorem map_info_numberAll (parent : NodeId) (cs : List Node) :
    ∀ next, (numberAll parent next cs).1.map info = cs.map info := by
  induction cs with
  | nil => intro next; rfl
  | cons c rest ih =>
    intro next
    simp only [numberAll, List.map_cons, info_number, ih]

theorem numberAll_append (parent : NodeId) (ns ms : List Node) : ∀ next,
    numberAll parent next (ns ++ ms) =
      ((numberAll parent next ns).1 ++ (numberAll parent (numberAll parent next ns).2 ms).1,
        (numberAll parent (numberAll parent next ns).2 ms).2) := by
  induction ns with
  | nil => exact fun next => rfl
  | cons n ns ih =>
    intro next
    simp only [List.cons_append, numberAll, ih]

/-- The nodes of a numbered list are those of the list, each numbered. -/
theorem exists_of_mem_numberAll {parent : NodeId} {c : Node} {cs : List Node} :
    ∀ {next}, c ∈ (numberAll parent next cs).1 →
      ∃ d ∈ cs, ∃ start, c = (d.number (some parent) start).1 := by
  induction cs with
  | nil => intro next h; simp [numberAll] at h
  | cons d rest ih =>
    intro next h
    simp only [numberAll, List.mem_cons] at h
    rcases h with rfl | h
    · exact ⟨d, List.mem_cons_self, next, rfl⟩
    · obtain ⟨e, he, start, hs⟩ := ih h
      exact ⟨e, List.mem_cons_of_mem d he, start, hs⟩

/-- The same for the children of a numbered node. -/
theorem exists_of_mem_children_number {parent : Option NodeId} {next : NodeId} {c n : Node}
    (h : c ∈ (n.number parent next).1.children) :
    ∃ d ∈ n.children, ∃ start, c = (d.number (some next) start).1 := by
  rw [children_number] at h
  exact exists_of_mem_numberAll h

/-- A condition on what nodes say about themselves holds of a numbered tree if it holds of the tree. -/
theorem Everywhere.number {P : NodeInfo → List NodeInfo → Prop} {n : Node} :
    n.Everywhere P → ∀ parent next, (n.number parent next).1.Everywhere P := by
  induction n using treeInduction with
  | step n ih =>
    intro h parent next
    rw [everywhere_iff] at h ⊢
    refine ⟨?_, fun c hc => ?_⟩
    · rw [info_number, children_number, map_info_numberAll]
      exact h.1
    · obtain ⟨d, hd, start, rfl⟩ := exists_of_mem_children_number hc
      exact ih d hd (h.2 d hd) (some next) start

/-- Numbering gives no origins. -/
theorem origin_eq_none_number {n : Node} :
    (∀ m ∈ n.preorder, m.origin = none) →
      ∀ parent next, ∀ m ∈ (n.number parent next).1.preorder, m.origin = none := by
  induction n using treeInduction with
  | step n ih =>
    intro h parent next m hm
    rcases mem_preorder_iff.mp hm with rfl | ⟨c, hc, hmc⟩
    · rw [origin_number]
      exact h n (self_mem_preorder n)
    · obtain ⟨d, hd, start, rfl⟩ := exists_of_mem_children_number hc
      have hd' : ∀ k ∈ d.preorder, k.origin = none :=
        fun k hk => h k (mem_preorder_iff.mpr (Or.inr ⟨d, hd, hk⟩))
      exact ih d hd hd' (some next) start m hmc

/-- In a numbered tree every child names its parent. -/
theorem parent_eq_id_number {n : Node} :
    ∀ parent next, ∀ m ∈ (n.number parent next).1.preorder, ∀ c ∈ m.children, c.parent = m.id := by
  induction n using treeInduction with
  | step n ih =>
    intro parent next m hm c hc
    rcases mem_preorder_iff.mp hm with rfl | ⟨d, hd, hmd⟩
    · obtain ⟨e, he, start, rfl⟩ := exists_of_mem_children_number hc
      rw [parent_number, id_number]
    · obtain ⟨e, he, start, rfl⟩ := exists_of_mem_children_number hd
      exact ih e he (some next) start m hmd c hc

/-- The identities of a numbered tree are consecutive, and the next one is left. -/
theorem ids_number {n : Node} :
    ∀ parent next, (n.number parent next).1.preorder.map id = (List.range' next n.size).map some ∧
      (n.number parent next).2 = next + n.size := by
  induction n using treeInduction with
  | step n ih =>
    intro parent next
    have hall : ∀ cs : List Node, (∀ c ∈ cs, c ∈ n.children) → ∀ start,
        ((numberAll next start cs).1.flatMap preorder).map id =
            (List.range' start (sizeAll cs)).map some ∧
          (numberAll next start cs).2 = start + sizeAll cs := by
      intro cs
      induction cs with
      | nil => intro _ start; exact ⟨rfl, rfl⟩
      | cons c rest ihr =>
        intro hmem start
        obtain ⟨hids, hleft⟩ := ih c (hmem c List.mem_cons_self) (some next) start
        obtain ⟨hids', hleft'⟩ :=
          ihr (fun d hd => hmem d (List.mem_cons_of_mem c hd)) (start + c.size)
        simp only [numberAll, hleft, sizeAll, List.flatMap_cons, List.map_append, hids, hids',
          hleft', ← List.range'_append_1]
        exact ⟨trivial, Nat.add_assoc start c.size (sizeAll rest)⟩
    have hsize : n.size = sizeAll n.children + 1 := by cases n with | mk i p o info cs => rfl
    obtain ⟨hids, hleft⟩ := hall n.children (fun _ h => h) (next + 1)
    constructor
    · rw [preorder_eq, List.map_cons, id_number, children_number, hids, hsize, List.range'_succ]
      rfl
    · rw [number_eq, hsize]
      simp only [hleft]
      exact Nat.add_right_comm next 1 (sizeAll n.children)

theorem nodup_ids_number (parent : Option NodeId) (next : NodeId) (n : Node) :
    ((n.number parent next).1.preorder.map id).Nodup := by
  rw [(ids_number parent next).1]
  exact (List.nodup_range' 1).map fun _ _ h => Option.some.inj h

/-- A tree numbered from zero on lists every node in the place of its identity. -/
theorem getElem?_preorder_number {parent : Option NodeId} {n m : Node}
    (h : m ∈ (n.number parent 0).1.preorder) :
    ∃ i, m.id = some i ∧ (n.number parent 0).1.preorder[i]? = some m := by
  obtain ⟨i, hi, hget⟩ := List.mem_iff_getElem.mp h
  have hids := (ids_number (n := n) parent 0).1
  have hlen : i < ((n.number parent 0).1.preorder.map id).length := by
    rwa [List.length_map]
  have hid : ((n.number parent 0).1.preorder.map id)[i] = some i := by
    simp only [hids, List.getElem_map, List.getElem_range']
    simp
  rw [List.getElem_map, hget] at hid
  exact ⟨i, hid, by rw [List.getElem?_eq_getElem hi, hget]⟩

end CondMarkup.Node
