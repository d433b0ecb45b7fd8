import CondMarkup.Proofs.CopyEdits
import CondMarkup.Proofs.Patches
import CondMarkup.Proofs.Reached

/-!
The text of a node with its children expanded. Each child that is not kept is found in the copy under
its own identity. If every child has the text of its stretch with its patches in it, so has the node.
-/

namespace CondMarkup

open Expansion

/-- The text of what a node becomes. -/
def printed (text : Text) (n : Node) (change : Change) : Except PrintError Text :=
  match change.result n with
  | some r => r.print text
  | none => .ok []

/-- What a node becomes has the text of its stretch with the patches in it. -/
def PrintsAs (marker : String) (text : Text) (following : List Node) (n : Node) (change : Change) :
    Prop :=
  printed text n change =
    .ok (splice text n.info.start n.info.stop (patches marker text following n))

namespace SourceTree

variable {s : Setting} {root : Node} (tree : SourceTree s.links root)
include tree

theorem source_of_result {following : List Node} {n r : Node} {change : Change}
    (hn : n ∈ root.preorder) (h : Becomes s following n change)
    (hr : change.result n = some r) : r.source = n := by
  cases change with
  | keep =>
    rw [Change.result, Option.some.injEq] at hr
    rw [← hr, tree.source_eq hn]
  | remove => cases hr
  | replace made =>
    rw [Change.result, Option.some.injEq] at hr
    rw [← hr, (h.of_replace rfl).1, tree.source_eq hn]

/-- In the copy of a node, its children are found as what they became. -/
theorem standIn?_eq {text : Text} {p n : Node} {inBody : Bool} {change : Change}
    {changes : List (Node × Change)} (hp : p ∈ root.preorder)
    (hfst : changes.map Prod.fst = p.children) (halong : Along (Becomes s) inBody changes)
    (hmem : (n, change) ∈ changes) :
    standIn? n (Node.printAll text (results changes)) =
      (change.result n).map fun r => (r, r.print text) := by
  have hsource : ∀ m other r, (m, other) ∈ changes → other.result m = some r →
      m ∈ root.preorder ∧ r.source = m := by
    intro m other r hother hresult
    have hm := Node.child_mem_preorder (hfst ▸ List.mem_map_of_mem hother) hp
    obtain ⟨_, hbecomes⟩ := halong.exists_of_mem hother
    exact ⟨hm, tree.source_of_result hm hbecomes hresult⟩
  have hn : n ∈ root.preorder :=
    Node.child_mem_preorder (hfst ▸ List.mem_map_of_mem (f := Prod.fst) hmem) hp
  have hnodup : (changes.map Prod.fst).Nodup := hfst ▸ tree.nodup_children hp
  rw [standIn?, Node.printAll_eq]
  cases hfind : ((results changes).map fun c => (c, c.print text)).reverse.find?
      fun c => c.1.source.same n with
  | some x =>
    -- what was found leads back to the child, and no child occurs twice
    have hsame : x.1.source.same n = true := by simpa using List.find?_some hfind
    have hx := List.mem_of_find?_eq_some hfind
    rw [List.mem_reverse, List.mem_map] at hx
    obtain ⟨r, hr, rfl⟩ := hx
    obtain ⟨m, other, hother, hresult⟩ := mem_results_iff.mp hr
    obtain ⟨hm, hrm⟩ := hsource m other r hother hresult
    rw [hrm, tree.same_iff hm hn] at hsame
    have heq := List.inj_on_of_nodup_map hnodup hother hmem hsame
    rw [Prod.mk.injEq] at heq
    rw [← heq.1, ← heq.2, hresult, Option.map_some]
  | none =>
    cases hresult : change.result n with
    | none => rfl
    | some r =>
      have hr : (r, r.print text) ∈ ((results changes).map fun c => (c, c.print text)).reverse := by
        rw [List.mem_reverse]
        exact List.mem_map.mpr ⟨r, mem_results_iff.mpr ⟨n, change, hmem, hresult⟩, rfl⟩
      have hnot := List.find?_eq_none.mp hfind _ hr
      rw [(hsource n change r hmem hresult).2] at hnot
      exact absurd ((tree.same_iff hn hn).mpr rfl) hnot

end SourceTree

/-! ### Copies -/

/-- The patches of siblings are those of each of them in front of those that follow it. -/
theorem exists_laid (marker : String) (text : Text) {P : List Node → Node → Change → Prop}
    {inBody : Bool} {changes : List (Node × Change)} (h : Along P inBody changes) :
    ∃ laid : List (Node × List Patch), laid.map Prod.fst = changes.map Prod.fst ∧
      laid.flatMap Prod.snd = patchesAll marker text inBody (changes.map Prod.fst) ∧
      ∀ x ∈ laid, ∃ following change, (x.1, change) ∈ changes ∧ P following x.1 change ∧
        x.2 = patches marker text following x.1 := by
  induction changes with
  | nil =>
    refine ⟨[], rfl, ?_, fun x hx => absurd hx List.not_mem_nil⟩
    rw [List.map_nil, patchesAll]
    rfl
  | cons c rest ih =>
    obtain ⟨n, change⟩ := c
    obtain ⟨hn, hrest⟩ := along_cons.mp h
    obtain ⟨laid, hfst, hpatches, hlaid⟩ := ih hrest
    refine ⟨(n, patches marker text (if inBody then rest.map Prod.fst else []) n) :: laid, ?_, ?_, ?_⟩
    · rw [List.map_cons, hfst, List.map_cons]
    · rw [List.flatMap_cons, hpatches, List.map_cons, patchesAll]
    · intro x hx
      rcases List.mem_cons.mp hx with rfl | hx
      · exact ⟨_, change, List.mem_cons_self, hn, rfl⟩
      · obtain ⟨following, other, hmem, hx⟩ := hlaid x hx
        exact ⟨following, other, List.mem_cons_of_mem _ hmem, hx⟩

namespace SpansText

variable {marker : String} {text : Text} {root : Node} (spans : SpansText text root)
include spans

variable {s : Setting} (tree : SourceTree s.links root)

include tree in
/-- A node of the source has the text of its stretch. -/
theorem print_eq {n : Node} (hn : n ∈ root.preorder) :
    n.print text = .ok (window text n.info.start n.info.stop) :=
  Node.print_of_source (tree.bare n hn) (tree.shapedAt hn).notMade (spans.bounds hn).1

include tree in
/-- In the place of a child that is kept nothing is replaced. -/
theorem splice_eq_window_of_keep {n : Node} {following : List Node} (hn : n ∈ root.preorder)
    (h : PrintsAs marker text following n .keep) :
    splice text n.info.start n.info.stop (patches marker text following n) =
      window text n.info.start n.info.stop := by
  have hprint : n.print text = _ := h
  rw [spans.print_eq tree hn, Except.ok.injEq] at hprint
  exact hprint.symm

include tree in
/-- What stands for a child in the copy of its parent has the text of what the child became. -/
theorem standInText_eq {p n : Node} {inBody : Bool} {following : List Node} {change : Change}
    {changes : List (Node × Change)} (hp : p ∈ root.preorder)
    (hfst : changes.map Prod.fst = p.children) (halong : Along (Becomes s) inBody changes)
    (hmem : (n, change) ∈ changes) (hprints : PrintsAs marker text following n change) :
    standInText text n (Node.printAll text (results changes)) =
      .ok (splice text n.info.start n.info.stop (patches marker text following n)) := by
  have hn : n ∈ root.preorder :=
    Node.child_mem_preorder (hfst ▸ List.mem_map_of_mem (f := Prod.fst) hmem) hp
  rw [standInText, tree.standIn?_eq hp hfst halong hmem]
  cases change with
  | keep =>
    have hsame : n.same n = true := (tree.same_iff hn hn).mpr rfl
    dsimp only [Change.result, Option.map_some]
    rw [if_pos hsame, spans.splice_eq_window_of_keep tree hn hprints]
  | remove => exact hprints
  | replace r =>
    obtain ⟨_, hbecomes⟩ := halong.exists_of_mem hmem
    have hsame : ¬ r.same n = true := by simp [Node.same, (hbecomes.of_replace rfl).2]
    dsimp only [Change.result, Option.map_some]
    rw [if_neg hsame]
    exact hprints

include tree in
/-- A node with its children changed has the text of its stretch with the patches of its children. -/
theorem print_rebuilt {p : Node} {inBody : Bool} {changes : List (Node × Change)}
    (hp : p ∈ root.preorder) (hfst : changes.map Prod.fst = p.children)
    (halong : Along (Becomes s) inBody changes)
    (hprints : Along (PrintsAs marker text) inBody changes) :
    (p.rebuilt changes).print text = .ok (splice text p.info.start p.info.stop
      (patchesAll marker text inBody p.children)) := by
  obtain ⟨hfirst, _, hlast⟩ := spans.bounds hp
  have horder := spans.inOrder hp
  obtain ⟨laid, hlaidFst, hpatches, hlaid⟩ := exists_laid marker text hprints
  rw [hfst] at hlaidFst hpatches
  have hmem : ∀ x ∈ laid, x.1 ∈ root.preorder := fun x hx =>
    Node.child_mem_preorder (hlaidFst ▸ List.mem_map_of_mem hx) hp
  have hpatched : Patched laid := by
    intro x hx
    obtain ⟨following, _, _, _, hpatchesX⟩ := hlaid x hx
    rw [hpatchesX]
    exact spans.inOrder_patches (hmem x hx) following
  rw [← hpatches]
  rcases Node.changed_cases p changes with ⟨hkeep, _, hrebuilt⟩ | ⟨_, hrebuilt⟩
  · rw [hrebuilt, spans.print_eq tree hp, hpatched.splice_eq_window hfirst hlast (hlaidFst ▸ horder)]
    intro x hx
    obtain ⟨following, change, hchange, hprintsX, hpatchesX⟩ := hlaid x hx
    obtain rfl : change = .keep := hkeep (x.1, change) hchange
    rw [hpatchesX, spans.splice_eq_window_of_keep tree (hmem x hx) hprintsX]
  · have hsource : (p.copyWith (results changes)).source = p := by
      rw [Node.source_copyWith, tree.source_eq hp]
    have hmade : p.info.synthesized = false := (tree.shapedAt hp).notMade
    rw [hrebuilt]
    have hprint := @Patched.print_of_origin text laid (p.copyWith (results changes)) hpatched
    rw [hsource] at hprint
    refine hprint (Option.some_ne_none p) hmade hmade hfirst hlast horder hlaidFst ?_
    intro x hx
    obtain ⟨following, change, hchange, hprintsX, hpatchesX⟩ := hlaid x hx
    rw [hpatchesX]
    exact spans.standInText_eq tree hp hfst halong hchange hprintsX

end SpansText

end CondMarkup
