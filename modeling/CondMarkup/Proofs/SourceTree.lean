import CondMarkup.Proofs.Building
import CondMarkup.Proofs.Shape
import CondMarkup.Expansion.Pairing

/-!
The trees of parsed files. All that the expansion relies on is collected in `SourceTree`: nodes are
found under their identities, children know their parents, and the tree has the shape of a converted
tree. A node is `Placed` in front of the entries that follow it in its body; a node that is not an
entry of a body is placed in front of nothing.
-/

namespace CondMarkup

/-- `root` is the tree of a parsed text, and `links` finds its nodes. -/
structure SourceTree (links : Links) (root : Node) : Prop where
  found : ∀ n ∈ root.preorder, ∃ i, n.id = some i ∧ links i = some n
  parent : ∀ n ∈ root.preorder, ∀ c ∈ n.children, c.parent = n.id
  rootParent : root.parent = none
  distinct : (root.preorder.map Node.id).Nodup
  bare : ∀ n ∈ root.preorder, n.origin = none
  shaped : root.Everywhere Shaped
  rootKind : root.kind ≠ .syntaxList

/-- What a file is that was made of a parsed text. -/
theorem SourceFile.ofGrammar_eq_ok {name : String} {text : Text} {tree : GrammarTree}
    {file : SourceFile} (h : SourceFile.ofGrammar name text tree = .ok file) :
    ∃ n, Conversion.convert text true tree.root = .ok n ∧
      file = SourceFile.ofRoot name text (n.number none 0).1 := by
  obtain ⟨root, hroot, h⟩ := bind_eq_ok_iff.mp h
  rw [Node.ofGrammar_eq] at hroot
  cases hn : Conversion.convert text true tree.root with
  | error e => rw [hn] at hroot; cases hroot
  | ok n =>
    rw [hn] at hroot
    exact ⟨n, rfl, by rw [← pure_eq_ok_iff.mp h, ← Except.ok.inj hroot]⟩

theorem SourceFile.text_of_ofGrammar {name : String} {text : Text} {tree : GrammarTree}
    {file : SourceFile} (h : SourceFile.ofGrammar name text tree = .ok file) :
    file.text = text := by
  obtain ⟨n, _, rfl⟩ := SourceFile.ofGrammar_eq_ok h
  rfl

/-- The converted root is well made, whatever it spans. -/
theorem Conversion.wellMade_root {t : Text} {g : GrammarNode} {n : Node}
    (h : convert t true g = .ok n) : n.kind ≠ .syntaxList ∧ WellMade n := by
  obtain ⟨m, hm, ⟨_, rfl⟩ | ⟨_, rfl⟩⟩ := convert_root h
  · exact hm.wellMade
  · obtain ⟨hkind, hshaped, hbare⟩ := hm.wellMade
    rw [Node.everywhere_iff] at hshaped
    refine ⟨hkind, ?_, fun k hk => ?_⟩
    · rw [Node.everywhere_iff]
      exact ⟨⟨hshaped.1.element, hshaped.1.fragment, hshaped.1.opening, hshaped.1.noList,
        hshaped.1.notMade⟩, hshaped.2⟩
    · rcases Node.mem_preorder_iff.mp hk with rfl | ⟨c, hc, hkc⟩
      · rfl
      · exact hbare k (Node.mem_preorder_iff.mpr (Or.inr ⟨c, hc, hkc⟩))

/-- A parsed file holds the tree of its text. -/
theorem SourceFile.sourceTree {name : String} {text : Text} {tree : GrammarTree}
    {file : SourceFile} (h : SourceFile.ofGrammar name text tree = .ok file) :
    SourceTree file.links file.root := by
  obtain ⟨n, hn, rfl⟩ := SourceFile.ofGrammar_eq_ok h
  obtain ⟨hkind, hmade⟩ := Conversion.wellMade_root hn
  constructor
  · intro m hm
    obtain ⟨i, hid, hget⟩ := Node.getElem?_preorder_number hm
    refine ⟨i, hid, ?_⟩
    show (SourceFile.ofRoot name text (n.number none 0).1).nodes[i]? = some m
    rw [SourceFile.ofRoot, List.getElem?_toArray]
    exact hget
  · exact Node.parent_eq_id_number none 0
  · exact Node.parent_number none 0 n
  · exact Node.nodup_ids_number none 0 n
  · exact Node.origin_eq_none_number hmade.bare none 0
  · exact hmade.shaped.number none 0
  · show (n.number none 0).1.info.kind ≠ .syntaxList
    rw [Node.info_number]
    exact hkind

/-- The root of a program is a source file. -/
theorem SourceFile.kind_root_of_program {name : String} {text : Text} {tree : GrammarTree}
    {file : SourceFile} (h : SourceFile.ofGrammar name text tree = .ok file)
    (hprogram : tree.root.type = "program") : file.root.kind = .sourceFile := by
  obtain ⟨n, hn, rfl⟩ := SourceFile.ofGrammar_eq_ok h
  obtain ⟨m, hm, hroot⟩ := Conversion.convert_root hn
  have hplain := Conversion.not_isSpecialType_of_program hprogram
  have hkind : m.kind = .sourceFile := by
    rw [hm.kind_eq hplain, hprogram]
    rfl
  obtain ⟨hspecial, _⟩ | ⟨_, rfl⟩ := hroot
  · exact absurd hspecial hplain
  · show (Node.number none 0 _).1.info.kind = .sourceFile
    rw [Node.info_number]
    exact hkind

namespace Node

/-- A node that is neither an element nor a fragment has no body. -/
theorem body_eq_nil {n : Node} (h : ¬ n.hasBody = true) : n.body = [] := by
  simp [body, bodyList, h]

theorem hasBody_of_mem_body {n c : Node} (h : c ∈ n.body) : n.hasBody = true := by
  by_contra hbody
  rw [body_eq_nil hbody] at h
  exact List.not_mem_nil h

end Node

/-- A list without repetition splits at an entry in one way. -/
theorem split_unique {α : Type} {before after before' after' : List α} {x : α}
    (hnodup : (before ++ x :: after).Nodup)
    (h : before ++ x :: after = before' ++ x :: after') : before = before' ∧ after = after' := by
  have hb : x ∉ before := fun hx =>
    (List.nodup_append.mp hnodup).2.2 x hx x List.mem_cons_self rfl
  have ha : x ∉ after := (List.nodup_cons.mp (List.nodup_append.mp hnodup).2.1).1
  have hinj := (List.append_cons_inj_of_notMem hb ha).mp h
  exact ⟨hinj.1, hinj.2.2⟩

/-- The node `n` is a child in the tree of `root` and stands in a body in front of `following`; if it
stands in no body, nothing follows. -/
def Placed (root n : Node) (following : List Node) : Prop :=
  ∃ p ∈ root.preorder, ∃ before rest, p.children = before ++ n :: rest ∧
    following = if p.kind = .syntaxList then rest else []

/-- The children of a node that is not a list are placed in front of nothing, those of a list in front
of each other. -/
theorem placed_of_children {root p c : Node} {before rest : List Node} (hp : p ∈ root.preorder)
    (h : p.children = before ++ c :: rest) :
    Placed root c (if p.kind = .syntaxList then rest else []) := ⟨p, hp, before, rest, h, rfl⟩

theorem mem_of_placed {root n : Node} {following : List Node} (h : Placed root n following) :
    n ∈ root.preorder := by
  obtain ⟨p, hp, before, rest, hcs, _⟩ := h
  exact Node.child_mem_preorder (by rw [hcs]; simp) hp

theorem mem_of_following {root n c : Node} {following : List Node} (h : Placed root n following)
    (hc : c ∈ following) : c ∈ root.preorder := by
  obtain ⟨p, hp, before, rest, hcs, rfl⟩ := h
  split at hc
  · exact Node.child_mem_preorder (by rw [hcs]; simp [hc]) hp
  · exact absurd hc List.not_mem_nil

namespace SourceTree

variable {links : Links} {root : Node} (tree : SourceTree links root)
include tree

theorem shapedAt {n : Node} (hn : n ∈ root.preorder) :
    Shaped n.info (n.children.map Node.info) := tree.shaped n hn

/-- An identity belongs to one node. -/
theorem eq_of_id_eq {m n : Node} (hm : m ∈ root.preorder) (hn : n ∈ root.preorder)
    (h : m.id = n.id) : m = n := by
  obtain ⟨i, hi, hmi⟩ := tree.found m hm
  obtain ⟨j, hj, hnj⟩ := tree.found n hn
  rw [hi, hj, Option.some.injEq] at h
  rw [h, hnj, Option.some.injEq] at hmi
  exact hmi.symm

theorem same_iff {m n : Node} (hm : m ∈ root.preorder) (hn : n ∈ root.preorder) :
    m.same n = true ↔ m = n := by
  obtain ⟨i, hi, _⟩ := tree.found m hm
  obtain ⟨j, hj, _⟩ := tree.found n hn
  have hsame : m.same n = true ↔ m.id = n.id := by
    simp [Node.same, hi, hj]
  rw [hsame]
  exact ⟨tree.eq_of_id_eq hm hn, fun h => by rw [h]⟩

theorem source_eq {n : Node} (hn : n ∈ root.preorder) : n.source = n :=
  Node.source_of_origin_none (tree.bare n hn)

theorem nodup_preorder : root.preorder.Nodup := List.Nodup.of_map Node.id tree.distinct

/-- The children of a node are pairwise different. -/
theorem nodup_children {n : Node} (hn : n ∈ root.preorder) : n.children.Nodup :=
  tree.nodup_preorder.sublist
    ((Node.children_sublist_preorder n).trans (Node.preorder_sublist hn))

theorem parentOf_child {p c : Node} (hp : p ∈ root.preorder) (hc : c ∈ p.children) :
    links.parentOf c = some p := by
  obtain ⟨i, hi, hlink⟩ := tree.found p hp
  rw [Links.parentOf, tree.parent p hp c hc, hi]
  exact hlink

/-- A node is the child of one node only. -/
theorem parent_unique {p q c : Node} (hp : p ∈ root.preorder) (hq : q ∈ root.preorder)
    (hcp : c ∈ p.children) (hcq : c ∈ q.children) : p = q := by
  have h := tree.parentOf_child hp hcp
  rw [tree.parentOf_child hq hcq, Option.some.injEq] at h
  exact h.symm

/-! ### Elements and fragments -/

/-- An element or fragment is made of a tag, a list of entries, and a tag. -/
theorem exists_list {n : Node} (hn : n ∈ root.preorder) (hbody : n.hasBody = true) :
    ∃ openTag list closeTag, n.children = [openTag, list, closeTag] ∧ list.kind = .syntaxList ∧
      n.body = list.children ∧ openTag.kind ≠ .syntaxList ∧ closeTag.kind ≠ .syntaxList := by
  have hshape := tree.shapedAt hn
  have hkinds : ∃ a b, (n.children.map Node.info).map NodeInfo.kind = [a, .syntaxList, b] ∧
      a ≠ .syntaxList ∧ b ≠ .syntaxList := by
    have hb := hbody
    simp only [Node.hasBody, Kind.hasBody, Bool.or_eq_true, decide_eq_true_eq] at hb
    rcases hb with hk | hk
    · exact ⟨_, _, hshape.element hk, by decide, by decide⟩
    · exact ⟨_, _, hshape.fragment hk, by decide, by decide⟩
  obtain ⟨a, b, hmap, ha, hb⟩ := hkinds
  obtain ⟨openTag, list, closeTag, hcs, rfl, hlist, rfl⟩ := exists_of_map_kind_eq_three hmap
  refine ⟨openTag, list, closeTag, hcs, hlist, ?_, ha, hb⟩
  simp [Node.body, Node.bodyList, hbody, hcs, ha, hlist]

theorem list_mem {n : Node} (hn : n ∈ root.preorder) (hbody : n.hasBody = true) :
    ∃ list ∈ n.children, list.kind = .syntaxList ∧ n.body = list.children := by
  obtain ⟨openTag, list, closeTag, hcs, hlist, hb, _, _⟩ := tree.exists_list hn hbody
  exact ⟨list, by rw [hcs]; simp, hlist, hb⟩

/-- A list belongs to an element or fragment. -/
theorem exists_owner {list : Node} (hlist : list ∈ root.preorder) (hkind : list.kind = .syntaxList) :
    ∃ owner ∈ root.preorder, list ∈ owner.children ∧ owner.hasBody = true ∧
      owner.body = list.children := by
  rcases Node.exists_parent hlist with rfl | ⟨owner, howner, hmem⟩
  · exact absurd hkind tree.rootKind
  · have hbody : owner.hasBody = true := by
      by_contra hnot
      rw [Bool.not_eq_true] at hnot
      apply (tree.shapedAt howner).noList hnot
      rw [List.map_map]
      exact List.mem_map.mpr ⟨list, hmem, hkind⟩
    obtain ⟨openTag, list', closeTag, hcs, _, hb, hopen, hclose⟩ := tree.exists_list howner hbody
    have heq : list = list' := by
      have hm := hmem
      rw [hcs] at hm
      simp only [List.mem_cons, List.not_mem_nil, or_false] at hm
      rcases hm with rfl | rfl | rfl
      · exact absurd hkind hopen
      · rfl
      · exact absurd hkind hclose
    exact ⟨owner, howner, hmem, hbody, by rw [hb, heq]⟩

theorem mem_of_mem_body {c n : Node} (hn : n ∈ root.preorder) (hc : c ∈ n.body) :
    c ∈ root.preorder := by
  obtain ⟨list, hl, _, hb⟩ := tree.list_mem hn (Node.hasBody_of_mem_body hc)
  rw [hb] at hc
  exact Node.child_mem_preorder hc (Node.child_mem_preorder hl hn)

/-! ### Places -/

/-- Only one list of entries follows a node. -/
theorem placed_unique {n : Node} {f g : List Node} (hf : Placed root n f) (hg : Placed root n g) :
    f = g := by
  obtain ⟨p, hp, before, rest, hcs, rfl⟩ := hf
  obtain ⟨q, hq, before', rest', hcs', rfl⟩ := hg
  have hmem : n ∈ p.children := by rw [hcs]; simp
  have hmem' : n ∈ q.children := by rw [hcs']; simp
  obtain rfl := tree.parent_unique hp hq hmem hmem'
  have hnodup := tree.nodup_children hp
  rw [hcs] at hnodup hcs'
  rw [(split_unique hnodup hcs').2]

/-- The entries of the body of a node are placed in front of each other. -/
theorem placed_of_body {n c : Node} {before rest : List Node} (hn : n ∈ root.preorder)
    (h : n.body = before ++ c :: rest) : Placed root c rest := by
  have hmem : c ∈ n.body := by rw [h]; simp
  obtain ⟨list, hl, hkind, hb⟩ := tree.list_mem hn (Node.hasBody_of_mem_body hmem)
  exact ⟨list, Node.child_mem_preorder hl hn, before, rest, hb ▸ h, by rw [if_pos hkind]⟩

/-- A node has an element or fragment around it exactly if it is an entry of its body. -/
theorem markupParent_eq_some_iff {n p : Node} (hn : n ∈ root.preorder) :
    n.markupParent links = some p ↔ p ∈ root.preorder ∧ n ∈ p.body := by
  constructor
  · intro h
    rcases Node.exists_parent hn with rfl | ⟨q, hq, hmem⟩
    · simp [Node.markupParent, Links.parentOf, tree.rootParent] at h
    · simp only [Node.markupParent, tree.parentOf_child hq hmem, Option.bind_eq_bind,
        Option.bind_some] at h
      split at h
      · rename_i hkind
        obtain ⟨owner, howner, hl, hbody, hb⟩ := tree.exists_owner hq hkind
        rw [tree.parentOf_child howner hl, Option.filter_some, if_pos hbody,
          Option.some.injEq] at h
        subst h
        exact ⟨howner, by rw [hb]; exact hmem⟩
      · exact absurd h (by simp)
  · rintro ⟨hp, hmem⟩
    have hbody := Node.hasBody_of_mem_body hmem
    obtain ⟨list, hl, hkind, hb⟩ := tree.list_mem hp hbody
    rw [hb] at hmem
    have hlist := Node.child_mem_preorder hl hp
    simp [Node.markupParent, tree.parentOf_child hlist hmem, tree.parentOf_child hp hl, hkind,
      hbody]

/-- The entries that follow a node in the body of its markup parent. -/
theorem following_of_body {n p : Node} {following : List Node} (hplaced : Placed root n following)
    (hp : p ∈ root.preorder) (hmem : n ∈ p.body) : ∃ before, p.body = before ++ n :: following := by
  obtain ⟨before, rest, hbody⟩ := List.append_of_mem hmem
  rw [tree.placed_unique hplaced (tree.placed_of_body hp hbody)]
  exact ⟨before, hbody⟩

/-- Nothing follows a node that is not an entry of a body. -/
theorem following_eq_nil {n : Node} {following : List Node} (hplaced : Placed root n following)
    (h : n.markupParent links = none) : following = [] := by
  obtain ⟨p, hp, before, rest, hcs, rfl⟩ := hplaced
  split
  · rename_i hkind
    obtain ⟨owner, howner, _, _, hb⟩ := tree.exists_owner hp hkind
    have hmem : n ∈ p.children := by rw [hcs]; simp
    have hsome := (tree.markupParent_eq_some_iff (Node.child_mem_preorder hmem hp)).mpr
      ⟨howner, hb ▸ hmem⟩
    rw [hsome] at h
    exact absurd h (by simp)
  · rfl

end SourceTree

end CondMarkup
