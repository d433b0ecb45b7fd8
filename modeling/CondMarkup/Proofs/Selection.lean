import CondMarkup.Proofs.Success

/-!
The markup that is selected when the conditions of the `<If>`s are known. In the source an `<If>` stands
for its body if its condition holds, and an `<Else>` stands for its body if the condition of the `<If>`
before it does not. In an expanded tree a ternary stands for one of its branches. Both ways of selecting
come to the same, blank text aside: the body of an `<Else>`, which is selected where the `<Else>` stands
in the source, is selected in the place of the `<If>` before it in the expanded tree, and nothing but
blank text is between the two.
-/

namespace CondMarkup

open Expansion

/-- Selected markup: nodes of the source, each with what is selected below it. -/
inductive Selection where
  | mk (node : Node) (below : List Selection)

namespace Selection

mutual

/-- The selection without blank texts. -/
def dropBlank : Selection → List Selection
  | mk node below => if node.isBlankText then [] else [mk node (dropBlankAll below)]

def dropBlankAll : List Selection → List Selection
  | [] => []
  | s :: rest => s.dropBlank ++ dropBlankAll rest

end

theorem dropBlankAll_append (ss ts : List Selection) :
    dropBlankAll (ss ++ ts) = dropBlankAll ss ++ dropBlankAll ts := by
  induction ss with
  | nil => rfl
  | cons s rest ih => rw [List.cons_append, dropBlankAll, dropBlankAll, ih, List.append_assoc]

@[simp] theorem dropBlankAll_nil : dropBlankAll [] = [] := by rw [dropBlankAll]

theorem dropBlankAll_singleton (node : Node) (below : List Selection) :
    dropBlankAll [mk node below] =
      if node.isBlankText then [] else [mk node (dropBlankAll below)] := by
  rw [dropBlankAll, dropBlankAll, dropBlank, List.append_nil]

end Selection

/-! ### Selecting in the source -/

section Source

variable (marker : String) (holds : Node → Bool)

mutual

/-- What is selected of a node of the source, where `before` is the last sibling before it that is not
blank text and `holds` tells for each `<If>` whether its condition holds. -/
def selectNode (before : Option Node) (n : Node) : List Selection :=
  if n.moduleSpecifier = some marker then []
  else if n.isIf then if holds n then selectAll none n.body else []
  else if n.isElse then
    if before.any fun i => i.isIf && !holds i then selectAll none n.body else []
  else [.mk n (selectAll none n.children)]
termination_by 2 * n.size
decreasing_by
  · have := n.sizeAll_body_lt
    omega
  · have := n.sizeAll_body_lt
    omega
  · have := n.sizeAll_children_lt
    omega

def selectAll (before : Option Node) : List Node → List Selection
  | [] => []
  | n :: rest =>
    selectNode before n ++ selectAll (if n.isBlankText then before else some n) rest
termination_by ns => 2 * Node.sizeAll ns + 1
decreasing_by
  · simp only [Node.sizeAll]
    omega
  · have := n.size_pos
    simp only [Node.sizeAll]
    omega

end

end Source

/-! ### Selecting in an expanded tree -/

/-- The entries of the branch of a ternary in braces that is taken. -/
def Node.branchEntries (taken : Bool) (n : Node) : List Node :=
  match (n.children.flatMap children).reverse with
  | no :: yes :: _ => if taken then yes.body else no.body
  | _ => []

theorem Node.sizeAll_branchEntries_lt (taken : Bool) (n : Node) :
    sizeAll (n.branchEntries taken) < n.size := by
  have hbranch : ∀ {b : Node}, b ∈ n.children.flatMap children → sizeAll b.body < n.size := by
    intro b hb
    obtain ⟨t, ht, hbt⟩ := List.mem_flatMap.mp hb
    have hbody := b.sizeAll_body_lt
    have hsize := size_lt_of_mem_children hbt
    have hsize' := size_lt_of_mem_children ht
    omega
  rw [branchEntries]
  split
  · rename_i no yes rest heq
    split
    · exact hbranch (List.mem_reverse.mp (by rw [heq]; simp))
    · exact hbranch (List.mem_reverse.mp (by rw [heq]; simp))
  · exact n.size_pos

section Expanded

variable (holds : Node → Bool)

mutual

/-- What is selected of a node of an expanded tree. -/
def selectMade (n : Node) : List Selection :=
  if n.info.synthesized && n.kind = .jsxExpression then
    selectAllMade (n.branchEntries (holds n.source))
  else [.mk n.source (selectAllMade n.children)]
termination_by 2 * n.size
decreasing_by
  · have := n.sizeAll_branchEntries_lt (holds n.source)
    omega
  · have := n.sizeAll_children_lt
    omega

def selectAllMade : List Node → List Selection
  | [] => []
  | n :: rest => selectMade n ++ selectAllMade rest
termination_by ns => 2 * Node.sizeAll ns + 1
decreasing_by
  · simp only [Node.sizeAll]
    omega
  · have := n.size_pos
    simp only [Node.sizeAll]
    omega

end

end Expanded

/-! ### What is shown -/

/-- What is selected of siblings in the source, without blank texts. -/
def shown (marker : String) (holds : Node → Bool) (before : Option Node) (ns : List Node) :
    List Selection := Selection.dropBlankAll (selectAll marker holds before ns)

/-- What is selected of siblings in an expanded tree, without blank texts. -/
def shownMade (holds : Node → Bool) (ns : List Node) : List Selection :=
  Selection.dropBlankAll (selectAllMade holds ns)

section Shown

variable {marker : String} {holds : Node → Bool} {before : Option Node} {n : Node}

@[simp] theorem shown_nil : shown marker holds before [] = [] := by
  rw [shown, selectAll, Selection.dropBlankAll_nil]

@[simp] theorem shownMade_nil : shownMade holds [] = [] := by
  rw [shownMade, selectAllMade, Selection.dropBlankAll_nil]

theorem shown_singleton :
    shown marker holds before [n] = Selection.dropBlankAll (selectNode marker holds before n) := by
  rw [shown, selectAll, selectAll, List.append_nil]

theorem shownMade_singleton :
    shownMade holds [n] = Selection.dropBlankAll (selectMade holds n) := by
  rw [shownMade, selectAllMade, selectAllMade, List.append_nil]

theorem shown_cons {rest : List Node} : shown marker holds before (n :: rest) =
    shown marker holds before [n] ++
      shown marker holds (if n.isBlankText then before else some n) rest := by
  rw [shown_singleton, shown, selectAll, Selection.dropBlankAll_append, shown]

theorem shownMade_append {ns ms : List Node} :
    shownMade holds (ns ++ ms) = shownMade holds ns ++ shownMade holds ms := by
  have hall : selectAllMade holds (ns ++ ms) = selectAllMade holds ns ++ selectAllMade holds ms := by
    induction ns with
    | nil => rw [List.nil_append, selectAllMade, List.nil_append]
    | cons n rest ih =>
      rw [List.cons_append, selectAllMade, ih, selectAllMade, List.append_assoc]
  rw [shownMade, hall, Selection.dropBlankAll_append]
  rfl

theorem shown_of_import (h : n.moduleSpecifier = some marker) :
    shown marker holds before [n] = [] := by
  rw [shown_singleton, selectNode, if_pos h, Selection.dropBlankAll_nil]

theorem shown_of_isIf (h : n.isIf = true) :
    shown marker holds before [n] = if holds n then shown marker holds none n.body else [] := by
  have himport : n.moduleSpecifier ≠ some marker := by
    rw [Node.moduleSpecifier_of_isElementOf h]
    simp
  rw [shown_singleton, selectNode, if_neg himport, if_pos h]
  split
  · rfl
  · exact Selection.dropBlankAll_nil

theorem shown_of_isElse (h : n.isElse = true) : shown marker holds before [n] =
    if before.any fun i => i.isIf && !holds i then shown marker holds none n.body else [] := by
  have himport : n.moduleSpecifier ≠ some marker := by
    rw [Node.moduleSpecifier_of_isElementOf h]
    simp
  have hif : ¬ n.isIf = true := by
    rw [Node.isIf_eq_false_of_isElse h]
    exact Bool.false_ne_true
  rw [shown_singleton, selectNode, if_neg himport, if_neg hif, if_pos h]
  split
  · rfl
  · exact Selection.dropBlankAll_nil

theorem shown_of_plain (h : n.isConstruct marker = false) : shown marker holds before [n] =
    if n.isBlankText then [] else [.mk n (shown marker holds none n.children)] := by
  obtain ⟨hif, helse, himport⟩ := isConstruct_eq_false_iff.mp h
  rw [shown_singleton, selectNode, if_neg himport, if_neg (by rw [hif]; exact Bool.false_ne_true),
    if_neg (by rw [helse]; exact Bool.false_ne_true), Selection.dropBlankAll_singleton]
  rfl

theorem shown_of_isBlankText (h : n.isBlankText = true) : shown marker holds before [n] = [] := by
  have himport : n.moduleSpecifier ≠ some marker := by
    simp only [Node.isBlankText, Bool.and_eq_true, decide_eq_true_eq] at h
    simp [Node.moduleSpecifier, h.1]
  have hplain : n.isConstruct marker = false := isConstruct_eq_false_iff.mpr
    ⟨isElementOf_eq_false_of_isBlankText h "If", isElementOf_eq_false_of_isBlankText h "Else", himport⟩
  rw [shown_of_plain hplain, if_pos h]

/-- A node that is kept is shown as the node of the source that it is or was copied from. -/
theorem shownMade_rebuilt {changes : List (Node × Change)} (hmade : n.info.synthesized = false)
    (hsource : n.source = n) (hfst : changes.map Prod.fst = n.children) :
    shownMade holds [n.rebuilt changes] =
      if n.isBlankText then [] else [.mk n (shownMade holds (results changes))] := by
  rw [shownMade_singleton, selectMade, if_neg (by rw [Node.info_rebuilt, hmade]; simp),
    Selection.dropBlankAll_singleton, Node.source_rebuilt, hsource, Node.children_rebuilt hfst]
  rfl

end Shown

theorem IsBranch.body_eq {ifNode branch : Node} {entries : List Node}
    (h : IsBranch ifNode entries branch) : branch.body = entries := by
  obtain ⟨openTag, list, closeTag, hbranch, hopen, _, hlist, _⟩ := h
  simp [Node.body, Node.bodyList, Node.hasBody, hbranch.kind_eq, Kind.hasBody, hbranch.children_eq,
    hopen.kind_eq, hlist.kind_eq, hlist.children_eq]

theorem IsElseBranch.body_eq {ifNode branch : Node} {entries : List (Node × Change)}
    (h : IsElseBranch ifNode entries branch) : branch.body = results entries := by
  rcases h with ⟨rfl, h⟩ | ⟨_, h⟩
  · exact Node.body_eq_nil (by rw [Node.hasBody, h.kind_eq]; exact Bool.false_ne_true)
  · exact h.body_eq

/-- A ternary shows the branch that is taken. -/
theorem IsTernary.shownMade_eq {ifNode condition n : Node} {change : Change}
    {yes no : List (Node × Change)} {holds : Node → Bool}
    (h : IsTernary ifNode condition change yes no n) :
    shownMade holds [n] =
      shownMade holds (if holds ifNode.source then results yes else results no) := by
  obtain ⟨ternary, parts, yesBranch, noBranch, hn, hsource, hternary, _, hyes, hno⟩ := h
  have hentries : ∀ taken, n.branchEntries taken = if taken then results yes else results no := by
    intro taken
    rw [Node.branchEntries, hn.children_eq, List.flatMap_singleton, hternary.children_eq,
      List.reverse_append, ← hyes.body_eq, ← hno.body_eq]
    rfl
  rw [shownMade_singleton, selectMade, if_pos (by simp [hn.synthesized, hn.kind_eq]), hsource,
    hentries]
  rfl

/-! ### Both ways of selecting -/

/-- What is shown of the `<Else>` that the entries begin with, where `before` comes before them. -/
def pending (marker : String) (holds : Node → Bool) (before : Option Node) (following : List Node) :
    List Selection :=
  if before.any fun i => i.isIf && !holds i then shown marker holds none (laterBody following)
  else []

/-- In the place of a node is shown what is selected of the node, and if it is an `<If>`, what is
selected of the `<Else>` that belongs to it. -/
def Selects (marker : String) (holds : Node → Bool) (following : List Node) (n : Node)
    (change : Change) : Prop :=
  n.isElse = false → ∀ before, shownMade holds (change.result n).toList =
    shown marker holds before [n] ++ pending marker holds (some n) following

section Lists

variable {marker : String} {holds : Node → Bool} {changes : List (Node × Change)}

theorem pending_of_not_isIf {n : Node} {following : List Node} (h : n.isIf = false) :
    pending marker holds (some n) following = [] := by
  rw [pending, Option.any_some, h, Bool.false_and, if_neg Bool.false_ne_true]

theorem pending_nil {before : Option Node} : pending marker holds before [] = [] := by
  rw [pending, laterBody, nextElse?, Option.map_none, Option.getD_none, shown_nil, ite_self]

/-- The entries of a body: what is shown of an `<Else>` goes to the `<If>` before it. -/
theorem shown_eq_of_body (hselects : Along (Selects marker holds) true changes)
    (helse : ∀ c ∈ changes, c.1.isElse = true → c.2 = .remove) :
    ∀ before, shown marker holds before (changes.map Prod.fst) =
      pending marker holds before (changes.map Prod.fst) ++ shownMade holds (results changes) := by
  induction changes with
  | nil =>
    intro before
    rw [List.map_nil, shown_nil, pending_nil, results_nil, shownMade_nil]
    rfl
  | cons c rest ih =>
    obtain ⟨n, change⟩ := c
    obtain ⟨hn, hrest⟩ := along_cons.mp hselects
    have hall := ih hrest fun d hd => helse d (List.mem_cons_of_mem _ hd)
    intro before
    rw [List.map_cons, shown_cons, hall, results_cons, shownMade_append]
    by_cases he : n.isElse = true
    · have hblank := isBlankText_eq_false_of_isElementOf he
      have hif : n.isIf = false := Node.isIf_eq_false_of_isElse he
      have hpending : pending marker holds before (n :: rest.map Prod.fst) =
          shown marker holds before [n] := by
        rw [pending, laterBody_cons, hblank, if_neg Bool.false_ne_true, if_pos he,
          shown_of_isElse he]
      obtain rfl := helse (n, change) List.mem_cons_self he
      -- the `<Else>` is shown from the source, and nothing is made of it
      rw [hblank, if_neg Bool.false_ne_true, pending_of_not_isIf hif, hpending, Change.result,
        Option.toList_none, shownMade_nil]
    · rw [Bool.not_eq_true] at he
      rw [hn he before, if_pos rfl]
      by_cases hblank : n.isBlankText = true
      · have hif : n.isIf = false := isElementOf_eq_false_of_isBlankText hblank "If"
        rw [if_pos hblank, shown_of_isBlankText hblank, pending_of_not_isIf hif, pending, pending,
          laterBody_cons, if_pos hblank]
        rfl
      · have hpending : pending marker holds before (n :: rest.map Prod.fst) = [] := by
          rw [pending, laterBody_cons, if_neg hblank, he, if_neg Bool.false_ne_true, shown_nil,
            ite_self]
        rw [if_neg hblank, hpending, List.nil_append, List.append_assoc]

/-- The children of a node that is not a list, among which there is no `<Else>`. -/
theorem shown_eq_of_apart (hselects : Along (Selects marker holds) false changes)
    (helse : ∀ c ∈ changes, c.1.isElse = false) :
    ∀ before, shown marker holds before (changes.map Prod.fst) =
      shownMade holds (results changes) := by
  induction changes with
  | nil =>
    intro before
    rw [List.map_nil, shown_nil, results_nil, shownMade_nil]
  | cons c rest ih =>
    obtain ⟨n, change⟩ := c
    obtain ⟨hn, hrest⟩ := along_cons.mp hselects
    intro before
    rw [List.map_cons, shown_cons, ih hrest fun d hd => helse d (List.mem_cons_of_mem _ hd),
      results_cons, shownMade_append, hn (helse (n, change) List.mem_cons_self) before,
      if_neg Bool.false_ne_true, pending_nil, List.append_nil]

end Lists

namespace SourceTree

variable {s : Setting} {root : Node} (tree : SourceTree s.links root)
include tree

/-- What is shown of the children of a node is shown of what they become. -/
theorem shown_children {marker : String} {holds : Node → Bool} {n : Node}
    {changes : List (Node × Change)} (hn : n ∈ root.preorder)
    (hfst : changes.map Prod.fst = n.children)
    (halong : Along (Becomes s) (n.kind = .syntaxList) changes)
    (hselects : Along (Selects marker holds) (n.kind = .syntaxList) changes) :
    shown marker holds none n.children = shownMade holds (results changes) := by
  rw [← hfst]
  by_cases hkind : n.kind = .syntaxList
  · rw [decide_eq_true hkind] at halong hselects
    exact shown_eq_of_body hselects halong.remove_of_isElse none
  · rw [decide_eq_false hkind] at hselects
    refine shown_eq_of_apart hselects (fun c hc => ?_) none
    obtain ⟨_, hbecomes⟩ := halong.exists_of_mem hc
    exact tree.isElse_eq_false_of_apart hn hkind (hfst ▸ List.mem_map_of_mem hc) hbecomes

/-- One step of the comparison: it holds in the place of every node that becomes something. -/
theorem selects_of_becomes (holds : Node → Bool) {following : List Node} {n : Node} {change : Change}
    (h : Becomes s following n change) :
    ReachedAt s.marker root following n → Selects s.marker holds following n change := by
  induction h with
  | @removeImport following n himport =>
    intro _ _ before
    have hif : n.isIf = false := Node.isIf_eq_false_of_import himport
    rw [shown_of_import himport, pending_of_not_isIf hif, Change.result, Option.toList_none,
      shownMade_nil, List.nil_append]
  | removeElse helse =>
    intro _ hnot
    rw [helse] at hnot
    cases hnot
  | @expand following n condition made change yes no hif _ _ hbody _ hother _ hyes hno hmade _ ihYes
      ihNo =>
    intro hat _ before
    have hb := ((tree.entries_eq_ok_iff hat.mem (Node.hasBody_of_isIf hif)).mp hbody).1
    have hlater := tree.laterBody_eq (fun c => mem_of_following hat.placed) hother
    have hyesShown : shown s.marker holds none (yes.map Prod.fst) = shownMade holds (results yes) :=
      shown_eq_of_body ((tree.along_body hat hif hb).mp ihYes) hyes.remove_of_isElse none
    have hnoShown : shown s.marker holds none (no.map Prod.fst) = shownMade holds (results no) :=
      shown_eq_of_body ((tree.along_otherwise hat hif hother).mp ihNo) hno.remove_of_isElse none
    rw [Change.result, Option.toList_some, hmade.shownMade_eq, tree.source_eq hat.mem,
      shown_of_isIf hif, pending, Option.any_some, hif, Bool.true_and, hlater, hnoShown, ← hb,
      hyesShown]
    -- the body stands in the `<If>`, the other branch is still pending after it
    cases holds n with
    | true => exact (List.append_nil _).symm
    | false => rfl
  | @visitChildren following n changes himport hif helse _ hchildren hchanges ih =>
    intro hat _ before
    have hplain := isConstruct_eq_false_iff.mpr ⟨hif, helse, himport⟩
    have hshown := tree.shown_children hat.mem hchildren hchanges
      ((hat.along_children hplain hchildren).mp ih)
    rw [Node.result_changed, Option.toList_some, pending_of_not_isIf hif, List.append_nil,
      shownMade_rebuilt (tree.shapedAt hat.mem).notMade (tree.source_eq hat.mem) hchildren,
      shown_of_plain hplain, hshown]

/-- The whole tree. -/
theorem shown_root (holds : Node → Bool) {changes : List (Node × Change)}
    (hplain : root.isConstruct s.marker = false) (hfst : changes.map Prod.fst = root.children)
    (halong : Along (Becomes s) false changes) :
    shown s.marker holds none [root] = shownMade holds [root.rebuilt changes] := by
  have hself := Node.self_mem_preorder root
  have hkind : decide (root.kind = .syntaxList) = false := decide_eq_false tree.rootKind
  have hselects : Along (Selects s.marker holds) false changes :=
    (tree.along_root hfst).mp fun before n change after hsplit =>
      tree.selects_of_becomes holds (halong before n change after hsplit)
  rw [← hkind] at halong hselects
  rw [shown_of_plain hplain, tree.shown_children hself hfst halong hselects,
    shownMade_rebuilt (tree.shapedAt hself).notMade (tree.source_eq hself) hfst]

end SourceTree

/-- Whatever conditions hold, the same markup is selected in the source and in the expanded tree, blank
texts aside. -/
theorem SourceFile.expand_preserves_selection {name : String} {text : Text} {tree : GrammarTree}
    {file out : SourceFile} {marker reportedName : String}
    (hprogram : tree.root.type = "program") (hfile : ofGrammar name text tree = .ok file)
    (hout : (file.expand marker reportedName).outcome = .ok out) (holds : Node → Bool) :
    Selection.dropBlankAll (selectMade holds out.root) =
      Selection.dropBlankAll (selectNode marker holds none file.root) := by
  have hsource : SourceTree (file.setting marker reportedName).links file.root := sourceTree hfile
  obtain ⟨changes, hfst, halong, rfl⟩ := exists_changes_of_expand hfile hout
  have hkind := kind_root_of_program hfile hprogram
  have hplain : file.root.isConstruct marker = false := by
    simp [Node.isConstruct, Node.isIf, Node.isElse, Node.isElementOf, Node.moduleSpecifier, hkind]
  rw [← shownMade_singleton, ← shown_singleton]
  exact (hsource.shown_root holds hplain hfst halong).symm

/-- The small page, for all four ways in which its conditions may hold. -/
theorem SourceFile.expand_preserves_selection_smallPage :
    ∃ file out, ofGrammar "page.tsx" SmallPage.text SmallPage.tree = .ok file ∧
      (file.expand "m" "").outcome = .ok out ∧ SmallPage.tree.root.type = "program" ∧
      ∀ holds, Selection.dropBlankAll (selectMade holds out.root) =
        Selection.dropBlankAll (selectNode "m" holds none file.root) := by
  obtain ⟨file, out, hfile, hout, _⟩ := SmallPage.exists_expanded
  exact ⟨file, out, hfile, hout, rfl, expand_preserves_selection rfl hfile hout⟩

end CondMarkup
