import CondMarkup.Proofs.Reached

/-!
When an expansion succeeds. `WellUsed root n` says what has to be right about the conditional tags at a
single node, in terms of the source tree alone. The expansion of a parsed file succeeds exactly if this
holds of every node that is reached: what is wrong with a node that is reached is found, and nothing
else is. The depth up to which visits may nest is never the reason for a failure.
-/

namespace CondMarkup

open Expansion

namespace Node

/-- An attribute, not a spread, with the name `condition`. -/
def IsConditionAttribute (a : Node) : Prop :=
  a.kind = .jsxAttribute ∧ a.attributeName = some "condition"

/-- The first attribute named `condition` has a value in braces, and the braces hold something that the
grammar names and that is no comment. -/
def HasCondition (n : Node) : Prop :=
  ∃ attributes before a after v, n.attributes = some attributes ∧
    attributes.children = before ++ a :: after ∧ a.IsConditionAttribute ∧
    (∀ b ∈ before, ¬ b.IsConditionAttribute) ∧ a.initializer = some v ∧ v.kind = .jsxExpression ∧
    ∃ e ∈ v.children, e.info.named = true ∧ e.typeName ≠ "comment"

theorem conditionAttribute_eq_some_iff {n a : Node} :
    n.conditionAttribute = some a ↔ ∃ attributes before after, n.attributes = some attributes ∧
      attributes.children = before ++ a :: after ∧ a.IsConditionAttribute ∧
      ∀ b ∈ before, ¬ b.IsConditionAttribute := by
  rw [conditionAttribute]
  refine Option.bind_eq_some_iff.trans (exists_congr fun attributes => ?_)
  rw [List.find?_eq_some_iff_append]
  simp only [IsConditionAttribute, Bool.and_eq_true, decide_eq_true_eq, Bool.not_eq_true',
    ← Bool.not_eq_true, exists_and_left]
  constructor
  · rintro ⟨hattributes, ha, before, after, hsplit, hbefore⟩
    exact ⟨hattributes, before, after, hsplit, ha, hbefore⟩
  · rintro ⟨hattributes, before, after, hsplit, ha, hbefore⟩
    exact ⟨hattributes, ha, before, after, hsplit, hbefore⟩

theorem exists_expression_iff {v : Node} (hkind : v.kind = .jsxExpression) :
    (∃ e, v.expression = some e) ↔
      ∃ e ∈ v.children, e.info.named = true ∧ e.typeName ≠ "comment" := by
  rw [expression, if_pos (Or.inl hkind), ← Option.isSome_iff_exists, List.find?_isSome]
  simp

/-- A condition is found exactly if it is there. -/
theorem exists_condition_iff {n : Node} : (∃ e, n.condition = .ok e) ↔ n.HasCondition := by
  simp only [condition_eq_ok_iff, conditionAttribute_eq_some_iff]
  constructor
  · rintro ⟨e, a, v, ⟨attributes, before, after, hattributes, hsplit, ha, hbefore⟩, hv, hkind, he⟩
    exact ⟨attributes, before, a, after, v, hattributes, hsplit, ha, hbefore, hv, hkind,
      (exists_expression_iff hkind).mp ⟨e, he⟩⟩
  · rintro ⟨attributes, before, a, after, v, hattributes, hsplit, ha, hbefore, hv, hkind, hnamed⟩
    obtain ⟨e, he⟩ := (exists_expression_iff hkind).mpr hnamed
    exact ⟨e, a, v, ⟨attributes, before, after, hattributes, hsplit, ha, hbefore⟩, hv, hkind, he⟩

end Node

/-- The conditional tags are used rightly at the node `n` of the tree of `root`. -/
structure WellUsed (root n : Node) : Prop where
  /-- Every `<Else>` in the body follows an `<If>`. -/
  paired : n.hasBody = true → Paired n
  /-- An `<If>` has a condition, -/
  condition : n.isIf = true → n.HasCondition
  /-- a body of the right kinds, -/
  body : n.isIf = true → n.AllowedBody
  /-- siblings of the right kinds, -/
  siblings : n.isIf = true → ∀ p ∈ root.preorder, n ∈ p.body → p.AllowedBody
  /-- and if an `<Else>` comes next, the body of that is of the right kinds too. -/
  other : n.isIf = true → ∀ e, NextElse root n e → e.AllowedBody
  /-- An `<Else>` stands in a body. -/
  inBody : n.isElse = true → ∃ p ∈ root.preorder, n ∈ p.body

theorem Expansion.checked_iff {n : Node} : Checked n ↔ (n.hasBody = true → Paired n) := by
  rw [Checked, Paired, elsesFollowIfs_iff]

/-- A node that becomes something has passed its check. -/
theorem Becomes.checked {s : Setting} {following : List Node} {n : Node} {change : Change}
    (h : Becomes s following n change) : Checked n := by
  cases h with
  | removeImport himport =>
    intro hbody
    rw [Node.moduleSpecifier] at himport
    split at himport
    · rename_i hkind
      rw [Node.hasBody, hkind] at hbody
      exact absurd hbody (by decide)
    · cases himport
  | removeElse _ hchecked => exact hchecked
  | expand _ hchecked => exact hchecked
  | visitChildren _ _ _ hchecked => exact hchecked

namespace SourceTree

variable {s : Setting} {root : Node} (tree : SourceTree s.links root)
include tree

/-! ### What is wrong is found -/

/-- At a node that becomes something, the conditional tags are used rightly. -/
theorem wellUsed_of_becomes {n : Node} {following : List Node} {change : Change}
    (hplaced : Placed root n following) (h : Becomes s following n change) : WellUsed root n := by
  have hn := mem_of_placed hplaced
  refine ⟨checked_iff.mp h.checked, fun hif => ?_, fun hif => ?_, fun hif p hp hmem => ?_,
    fun hif e he => ?_, fun helse => ?_⟩
  · obtain ⟨e, _, _, _, _, _, hcondition, _⟩ := h.of_isIf hif
    exact Node.exists_condition_iff.mp ⟨e, hcondition⟩
  · obtain ⟨_, _, _, _, _, _, _, hbody, _⟩ := h.of_isIf hif
    exact ((tree.entries_eq_ok_iff hn (Node.hasBody_of_isIf hif)).mp hbody).2
  · obtain ⟨_, _, _, _, _, _, _, _, hparent, _⟩ := h.of_isIf hif
    obtain ⟨entries, hentries⟩ := hparent p ((tree.markupParent_eq_some_iff hn).mpr ⟨hp, hmem⟩)
    exact ((tree.entries_eq_ok_iff hp (Node.hasBody_of_mem_body hmem)).mp hentries).2
  · obtain ⟨_, _, _, _, _, _, _, _, _, hother, _⟩ := h.of_isIf hif
    have heFollowing := (tree.nextElse_iff hplaced).mp he
    rw [heFollowing.leadingElse_eq] at hother
    have hbody := Node.hasBody_of_isElse heFollowing.isElse
    exact ((tree.entries_eq_ok_iff (tree.mem_of_nextElse he) hbody).mp hother).2
  · obtain ⟨_, ⟨p, hparent⟩, _⟩ := h.of_isElse helse
    exact ⟨p, (tree.markupParent_eq_some_iff hn).mp hparent⟩

/-! ### Nothing else is -/

/-- With a node, all entries after it in its body are reached. -/
theorem reached_of_following {marker : String} {n c : Node} {following : List Node}
    (h : Reached marker root n) (hplaced : Placed root n following) (hc : c ∈ following) :
    Reached marker root c := by
  have hinside : ∀ {p : Node}, p ∈ root.preorder → n ∈ p.children →
      p.kind = .syntaxList ∧ c ∈ p.children := by
    intro p hp hmem
    obtain ⟨q, hq, before, rest, hcs, hfollowing⟩ := hplaced
    obtain rfl := tree.parent_unique hp hq hmem (by rw [hcs]; simp)
    rw [hfollowing] at hc
    split at hc
    · exact ⟨‹_›, by rw [hcs]; simp [hc]⟩
    · exact absurd hc List.not_mem_nil
  have hbody : ∀ {p : Node}, p ∈ root.preorder → n ∈ p.body → c ∈ p.body := by
    intro p hp hmem
    obtain ⟨before, hsplit⟩ := tree.following_of_body hplaced hp hmem
    rw [hsplit]
    simp [hc]
  cases h with
  | child h => exact absurd (hinside (Node.self_mem_preorder root) h).1 tree.rootKind
  | inside hm hplain h => exact .inside hm hplain (hinside (tree.mem_of_reached hm) h).2
  | condition hm hif h =>
    rw [tree.placed_unique hplaced (placed_condition (tree.mem_of_reached hm) h)] at hc
    exact absurd hc List.not_mem_nil
  | body hm hif h => exact .body hm hif (hbody (tree.mem_of_reached hm) h)
  | otherwise hm hif he h => exact .otherwise hm hif he (hbody (tree.mem_of_nextElse he) h)

omit tree in
/-- If the visit of every node of a list succeeds, all of them do together. -/
theorem exists_visits {visit : Node → Visited} {ns : List Node}
    (h : ∀ n ∈ ns, ∃ change, (visit n).outcome = .ok change) :
    ∃ changes, changes.map Prod.fst = ns ∧ Visits visit changes := by
  induction ns with
  | nil => exact ⟨[], rfl, visits_nil⟩
  | cons n rest ih =>
    obtain ⟨change, hchange⟩ := h n List.mem_cons_self
    obtain ⟨changes, rfl, hchanges⟩ := ih fun m hm => h m (List.mem_cons_of_mem n hm)
    exact ⟨(n, change) :: changes, rfl, visits_cons hchange hchanges⟩

/-- If visits of reached nodes succeed with that fuel for their size and that of what follows, then so
do the visits of the entries of a body. -/
theorem exists_visits_body (fuel : Nat) {p : Node} (hp : p ∈ root.preorder)
    (hreached : ∀ c ∈ p.body, Reached s.marker root c)
    (hsize : 4 * Node.sizeAll p.body ≤ fuel)
    (ih : ∀ n following, Placed root n following → Reached s.marker root n →
      4 * (n.size + Node.sizeAll following) ≤ fuel → ∃ change, (visit s fuel n).outcome = .ok change) :
    ∃ changes, changes.map Prod.fst = p.body ∧ Visits (visit s fuel) changes := by
  refine exists_visits fun c hc => ?_
  obtain ⟨before, rest, hsplit⟩ := List.append_of_mem hc
  refine ih c rest (tree.placed_of_body hp hsplit) (hreached c hc) ?_
  rw [hsplit, Node.sizeAll_append, Node.sizeAll] at hsize
  omega

omit tree in
/-- The same for the children of a node. -/
theorem exists_visits_children (fuel : Nat) {p : Node} (hp : p ∈ root.preorder)
    (hreached : ∀ c ∈ p.children, Reached s.marker root c)
    (hsize : 4 * Node.sizeAll p.children ≤ fuel)
    (ih : ∀ n following, Placed root n following → Reached s.marker root n →
      4 * (n.size + Node.sizeAll following) ≤ fuel → ∃ change, (visit s fuel n).outcome = .ok change) :
    ∃ changes, changes.map Prod.fst = p.children ∧ Visits (visit s fuel) changes := by
  refine exists_visits fun c hc => ?_
  obtain ⟨before, rest, hsplit⟩ := List.append_of_mem hc
  refine ih c _ (placed_of_children hp hsplit) (hreached c hc) ?_
  rw [hsplit, Node.sizeAll_append, Node.sizeAll] at hsize
  split
  · omega
  · rw [Node.sizeAll]
    omega

/-- The entries of the second branch can be visited. -/
theorem exists_visits_other (fuel : Nat) {n : Node} {following : List Node}
    (hall : ∀ m, Reached s.marker root m → WellUsed root m) (hplaced : Placed root n following)
    (hn : Reached s.marker root n) (hif : n.isIf = true)
    (hsize : 4 * Node.sizeAll following ≤ fuel)
    (ih : ∀ n following, Placed root n following → Reached s.marker root n →
      4 * (n.size + Node.sizeAll following) ≤ fuel → ∃ change, (visit s fuel n).outcome = .ok change) :
    ∃ changes, Pairing.leadingElse following = .ok (changes.map Prod.fst) ∧
      Pairing.elsesFollowIfs none (changes.map Prod.fst) = true ∧
      Visits (visit s fuel) changes := by
  rcases leadingElse_cases following with ⟨e, he, hsearch⟩ | ⟨_, hsearch⟩
  · have hnext := (tree.nextElse_iff hplaced).mpr he
    have hmem := tree.mem_of_nextElse hnext
    have hbody := Node.hasBody_of_isElse he.isElse
    have hlt := Node.sizeAll_body_lt e
    have hle := Node.size_le_sizeAll he.mem
    obtain ⟨changes, hfst, hvisits⟩ := tree.exists_visits_body fuel hmem
      (fun c hc => .otherwise hn hif hnext hc) (by omega) ih
    refine ⟨changes, ?_, ?_, hvisits⟩
    · rw [hsearch, hfst, tree.entries_eq_ok_iff hmem hbody]
      exact ⟨rfl, (hall n hn).other hif e hnext⟩
    · rw [hfst, elsesFollowIfs_iff]
      exact (hall e (tree.reached_of_following hn hplaced he.mem)).paired hbody
  · exact ⟨[], hsearch, rfl, visits_nil⟩

/-- If the conditional tags are used rightly at every node that is reached, the visit of such a node
succeeds with fuel for all that it comes to: what is below the node and what follows it. -/
theorem exists_visit_of_wellUsed (hall : ∀ m, Reached s.marker root m → WellUsed root m) (fuel : Nat) :
    ∀ n following, Placed root n following → Reached s.marker root n →
      4 * (n.size + Node.sizeAll following) ≤ fuel → ∃ change, (visit s fuel n).outcome = .ok change := by
  induction fuel using Nat.strongRecOn with
  | ind fuel ih =>
    intro n following hplaced hreached hfuel
    have hn := mem_of_placed hplaced
    have hused := hall n hreached
    have hpos := Node.size_pos n
    obtain ⟨f, rfl⟩ : ∃ f, fuel = f + 3 + 1 := ⟨fuel - 4, by omega⟩
    simp only [visit_eq_ok_iff, Treated]
    by_cases himport : n.moduleSpecifier = some s.marker
    · exact ⟨.remove, Or.inl ⟨himport, rfl⟩⟩
    have hchecked := checked_iff.mpr hused.paired
    by_cases hif : n.isIf = true
    · obtain ⟨e, he⟩ := Node.exists_condition_iff.mpr (hused.condition hif)
      have hesize := Node.size_condition_lt he
      have hbsize := Node.sizeAll_body_lt n
      have hdeep : conditionFuel (f + 1) e < f + 3 + 1 ∧ f + 1 ≤ conditionFuel (f + 1) e := by
        rw [conditionFuel]
        split <;> omega
      obtain ⟨inner, hinner⟩ := ih _ hdeep.1 e [] (placed_condition hn he)
        (.condition hreached hif he) (by rw [Node.sizeAll]; omega)
      obtain ⟨yes, hyes, hvyes⟩ := tree.exists_visits_body f hn
        (fun c hc => .body hreached hif hc) (by omega) (ih f (by omega))
      obtain ⟨no, hno, hnoChecked, hvno⟩ := tree.exists_visits_other f hall hplaced hreached
        hif (by omega) (ih f (by omega))
      have hentries : n.entries = .ok (yes.map Prod.fst) :=
        (tree.entries_eq_ok_iff hn (Node.hasBody_of_isIf hif)).mpr ⟨hyes, hused.body hif⟩
      have hother : elseEntries s.links n = .ok (no.map Prod.fst) := by
        refine (tree.elseEntries_eq_ok_iff hplaced).mpr ⟨fun p hp => ?_, hno⟩
        obtain ⟨hp, hmem⟩ := (tree.markupParent_eq_some_iff hn).mp hp
        exact ⟨p.body, (tree.entries_eq_ok_iff hp (Node.hasBody_of_mem_body hmem)).mpr
          ⟨rfl, hused.siblings hif p hp hmem⟩⟩
      have hyesChecked : Pairing.elsesFollowIfs none (yes.map Prod.fst) = true :=
        hyes ▸ hchecked (Node.hasBody_of_isIf hif)
      exact ⟨_, Or.inr ⟨himport, hchecked, Or.inl ⟨hif, expandIf_eq_ok_iff.mpr ⟨e, inner, yes, no, he,
        hentries, hother, hyesChecked, hnoChecked, hinner, hvyes, hvno, rfl⟩⟩⟩⟩
    by_cases helse : n.isElse = true
    · obtain ⟨p, hp, hmem⟩ := hused.inBody helse
      have hparent := (tree.markupParent_eq_some_iff hn).mpr ⟨hp, hmem⟩
      exact ⟨.remove, Or.inr ⟨himport, hchecked, Or.inr (Or.inl
        ⟨by simpa using hif, helse, ⟨p, hparent⟩, rfl⟩)⟩⟩
    · rw [Bool.not_eq_true] at hif helse
      have hplain : n.isConstruct s.marker = false :=
        isConstruct_eq_false_iff.mpr ⟨hif, helse, himport⟩
      have hcsize := Node.sizeAll_children_lt n
      obtain ⟨changes, hfst, hvisits⟩ := exists_visits_children (f + 3) hn
        (fun c hc => .inside hreached hplain hc) (by omega) (ih (f + 3) (by omega))
      exact ⟨_, Or.inr ⟨himport, hchecked, Or.inr (Or.inr ⟨hif, helse, changes, hfst, hvisits, rfl⟩)⟩⟩

end SourceTree

/-- The expansion of a parsed file succeeds exactly if the conditional tags are used rightly at every
node that it reaches. -/
theorem SourceFile.expand_succeeds_iff {name : String} {text : Text} {tree : GrammarTree}
    {file : SourceFile} (hfile : ofGrammar name text tree = .ok file) (marker reportedName : String) :
    (∃ out, (file.expand marker reportedName).outcome = .ok out) ↔
      ∀ n, Reached marker file.root n → WellUsed file.root n := by
  have hsource : SourceTree (file.setting marker reportedName).links file.root := sourceTree hfile
  constructor
  · rintro ⟨out, hout⟩ n hn
    obtain ⟨changes, hfst, halong, _⟩ := exists_changes_of_expand hfile hout
    obtain ⟨following, change, hplaced, hbecomes, _⟩ := hsource.locatedIn_of_reached hfst halong hn
    exact hsource.wellUsed_of_becomes hplaced hbecomes
  · intro hall
    have hsize := Node.sizeAll_children_lt file.root
    obtain ⟨changes, hfst, hvisits⟩ := SourceTree.exists_visits_children
      (visitDepth file.nodes.size file.root) (Node.self_mem_preorder file.root)
      (fun c hc => .child hc) (by rw [visitDepth]; omega)
      (hsource.exists_visit_of_wellUsed hall _)
    exact ⟨_, outcome_expand_eq_ok_iff.mpr ⟨changes, hfst, hvisits, rfl⟩⟩

/-! ### A small page -/

namespace SmallPage

/-- An import of the marker module, and an `<If>` whose `<Else>` holds another. -/
def text : Text :=
  "import \"m\";<><If condition={a=b}>x</If> <Else><If condition={c}>y</If></Else></>".toList

/-- A grammar node without parts. -/
def leaf (type : String) (start stop : Nat) (field : Option String) : GrammarNode :=
  .mk type start stop true field []

/-- An element from byte `start` to byte `stop`, with its body from `inner` to `outer`. -/
def element (start inner outer stop : Nat) (tag body : List GrammarNode) : GrammarNode :=
  .mk "jsx_element" start stop true none
    (.mk "jsx_opening_element" start inner true (some "open_tag") tag ::
      (body ++ [leaf "jsx_closing_element" outer stop (some "close_tag")]))

/-- The attribute `condition` with an expression of a type in its braces. -/
def condition (type : String) (start stop : Nat) : GrammarNode :=
  .mk "jsx_attribute" start stop true (some "attribute")
    [leaf "property_identifier" start (start + 9) none,
      .mk "jsx_expression" (start + 10) stop true none [leaf type (start + 11) (stop - 1) none]]

def tree : GrammarTree where
  root := .mk "program" 0 80 true none
    [.mk "import_statement" 0 11 true none [leaf "string" 7 10 (some "source")],
      element 11 13 77 80 []
        [element 13 33 34 39
            [leaf "identifier" 14 16 (some "name"), condition "assignment_expression" 17 32]
            [leaf "jsx_text" 33 34 none],
          leaf "jsx_text" 39 40 none,
          element 40 46 70 77 [leaf "identifier" 41 45 (some "name")]
            [element 46 64 65 70
              [leaf "identifier" 47 49 (some "name"), condition "identifier" 50 63]
              [leaf "jsx_text" 64 65 none]]]]

/-- The page is converted and expanded, and its conditions are no imports. -/
theorem exists_expanded : ∃ file out, SourceFile.ofGrammar "page.tsx" text tree = .ok file ∧
    (file.expand "m" "").outcome = .ok out ∧
    ∀ n ∈ file.root.preorder, ∀ e, n.condition = .ok e → e.kind ≠ .importDeclaration := by
  have hsome : ((SourceFile.ofGrammar "page.tsx" text tree).toOption.bind fun file =>
      (file.expand "m" "").outcome.toOption.filter fun _ =>
        file.root.preorder.all fun n => n.condition.toOption.all fun e =>
          e.kind ≠ .importDeclaration).isSome = true := by
    rw [SourceFile.ofGrammar, Node.ofGrammar_eq, Conversion.convert_eq,
      Conversion.convert_eq_repeat text 7]
    decide +kernel
  obtain ⟨out, hout⟩ := Option.isSome_iff_exists.mp hsome
  obtain ⟨file, hfile, hout⟩ := Option.bind_eq_some_iff.mp hout
  obtain ⟨hout, hkinds⟩ := Option.filter_eq_some_iff.mp hout
  refine ⟨file, out, toOption_eq_some_iff.mp hfile, toOption_eq_some_iff.mp hout, ?_⟩
  intro n hn e he
  have hkind := List.all_eq_true.mp hkinds n hn
  rw [toOption_eq_some_iff.mpr he, Option.all_some] at hkind
  exact of_decide_eq_true hkind

end SmallPage

/-- The conditional tags of the page are used rightly. -/
theorem SourceFile.expand_succeeds_smallPage :
    ∃ file, ofGrammar "page.tsx" SmallPage.text SmallPage.tree = .ok file ∧
      (∃ out, (file.expand "m" "").outcome = .ok out) ∧
      ∀ n, Reached "m" file.root n → WellUsed file.root n := by
  obtain ⟨file, out, hfile, hout, _⟩ := SmallPage.exists_expanded
  exact ⟨file, hfile, ⟨out, hout⟩, (expand_succeeds_iff hfile "m" "").mp ⟨out, hout⟩⟩

end CondMarkup
