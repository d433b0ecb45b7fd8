import CondMarkup.Proofs.CopyText
import CondMarkup.Proofs.Success

/-!
The text of an expanded file. A ternary is made and prints by its parts, what is around it is copied
and prints by edits; both ways the text of what a node becomes is the stretch of the node with its
patches. So the file as a whole is printed as one splice of the source text, however deep constructs
are nested.
-/

namespace CondMarkup

open Expansion

/-! ### Texts of made nodes -/

/-- The texts of nodes. -/
def PrintedAll (text : Text) (ns : List Node) (parts : List Text) : Prop :=
  (Node.printAll text ns).mapM (fun c => c.2) = .ok parts

section Made

variable {text : Text}

theorem printedAll_nil : PrintedAll text [] [] := rfl

theorem printedAll_cons {n : Node} {ns : List Node} {part : Text} {parts : List Text}
    (hn : n.print text = .ok part) (hns : PrintedAll text ns parts) :
    PrintedAll text (n :: ns) (part :: parts) := by
  have hns' : (Node.printAll text ns).mapM (fun c => c.2) = .ok parts := hns
  rw [PrintedAll, Node.printAll, List.mapM_cons, hn, hns']
  rfl

/-- A made node has the text of its parts. -/
theorem Node.IsMade.print_eq {n : Node} {kind : Kind} {cs : List Node} {parts : List Text}
    (h : n.IsMade kind cs) (hparts : PrintedAll text cs parts) :
    n.print text = printParts kind parts := by
  have hprint : cs.mapM (fun c => c.print text) = .ok parts := by
    rw [PrintedAll, Node.printAll_eq, List.mapM_map] at hparts
    exact hparts
  rw [Node.print_of_made h.synthesized, h.children_eq, h.kind_eq, hprint]
  rfl

theorem IsBranch.print_eq {ifNode branch : Node} {entries : List Node} {parts : List Text}
    (h : IsBranch ifNode entries branch) (hparts : PrintedAll text entries parts) :
    branch.print text = .ok ("<>".toList ++ parts.flatten ++ "</>".toList) := by
  obtain ⟨openTag, list, closeTag, hbranch, hopen, _, hlist, hclose⟩ := h
  have hall := printedAll_cons (hopen.print_eq printedAll_nil)
    (printedAll_cons (hlist.print_eq hparts)
      (printedAll_cons (hclose.print_eq printedAll_nil) printedAll_nil))
  rw [hbranch.print_eq hall]
  simp [printParts]

theorem IsElseBranch.print_eq {ifNode branch : Node} {entries : List (Node × Change)}
    {parts : List Text} (h : IsElseBranch ifNode entries branch)
    (hparts : PrintedAll text (results entries) parts) :
    branch.print text = .ok (if entries.map Prod.fst = [] then "null".toList
      else "<>".toList ++ parts.flatten ++ "</>".toList) := by
  rcases h with ⟨rfl, hnull⟩ | ⟨hentries, hbranch⟩
  · rw [hnull.print_eq printedAll_nil]
    rfl
  · rw [hbranch.print_eq hparts, if_neg (by simpa using hentries)]

theorem IsConditionPart.exists_print {condition r : Node} {change : Change} {parts : List Node}
    {written : Text} (h : IsConditionPart condition change parts)
    (hresult : change.result condition = some r) (hprint : r.print text = .ok written) :
    ∃ part, parts = [part] ∧ part.print text = .ok (operandText condition written) := by
  rw [IsConditionPart, hresult, Option.toList_some] at h
  rw [operandText]
  by_cases hloose : condition.bindsLoosely = true
  · rw [if_pos hloose] at h ⊢
    obtain ⟨part, hparts, hpart⟩ := h
    refine ⟨part, hparts, ?_⟩
    rw [hpart.print_eq (printedAll_cons hprint printedAll_nil)]
    simp [printParts]
  · rw [if_neg hloose] at h ⊢
    exact ⟨r, h, hprint⟩

/-- A ternary in braces has the texts of its condition and its branches. -/
theorem IsTernary.print_eq {ifNode condition n r : Node} {change : Change}
    {yes no : List (Node × Change)} {written : Text} {yesParts noParts : List Text}
    (h : IsTernary ifNode condition change yes no n)
    (hresult : change.result condition = some r) (hprint : r.print text = .ok written)
    (hyes : PrintedAll text (results yes) yesParts) (hno : PrintedAll text (results no) noParts) :
    n.print text = .ok (ternaryText (operandText condition written) yesParts.flatten
      (if no.map Prod.fst = [] then "null".toList
        else "<>".toList ++ noParts.flatten ++ "</>".toList)) := by
  obtain ⟨ternary, parts, yesBranch, noBranch, hn, _, hternary, hcondition, hyesMade, hnoMade⟩ := h
  obtain ⟨part, rfl, hpart⟩ := hcondition.exists_print hresult hprint
  have hall := printedAll_cons hpart (printedAll_cons (hyesMade.print_eq hyes)
    (printedAll_cons (hnoMade.print_eq hno) printedAll_nil))
  have hinner := hternary.print_eq hall
  rw [printParts] at hinner
  rw [hn.print_eq (printedAll_cons hinner printedAll_nil)]
  simp [printParts, ternaryText]

end Made

/-! ### Texts of bodies -/

namespace SpansText

variable {marker : String} {text : Text} {root : Node} (spans : SpansText text root)
include spans

/-- What the entries of a body become has the text of the body as a splice, since the entries leave
no space between them. -/
theorem exists_printedAll {inBody : Bool} {changes : List (Node × Change)} {a b : Int}
    (hall : ∀ c ∈ changes.map Prod.fst, c ∈ root.preorder)
    (hprints : Along (PrintsAs marker text) inBody changes)
    (h : Tiled a b ((changes.map Prod.fst).map Node.span)) (ha : 0 ≤ a) (hb : b ≤ text.length) :
    ∃ parts, PrintedAll text (results changes) parts ∧ parts.flatten =
      splice text a b (patchesAll marker text inBody (changes.map Prod.fst)) := by
  induction changes generalizing a with
  | nil =>
    obtain rfl : a = b := h
    refine ⟨[], printedAll_nil, ?_⟩
    rw [List.map_nil, patchesAll, splice, window_self, List.flatten_nil]
  | cons c rest ih =>
    obtain ⟨n, change⟩ := c
    obtain ⟨hn, hrest⟩ := along_cons.mp hprints
    have horder := h.inOrder
    obtain ⟨hstart, hspan, htiled⟩ := h
    obtain rfl : a = n.info.start := hstart
    obtain ⟨parts, hparts, hflatten⟩ := ih (fun d hd => hall d (List.mem_cons_of_mem n hd)) hrest
      htiled (Int.le_trans ha hspan)
    have hsplice : splice text n.info.start b
        (patchesAll marker text inBody (n :: rest.map Prod.fst)) = _ :=
      spans.splice_cons hall horder ha hb
    rw [window_self, List.nil_append] at hsplice
    rw [PrintsAs, printed] at hn
    rw [results_cons, List.map_cons, hsplice, ← hflatten]
    cases hresult : change.result n with
    | some r =>
      rw [hresult] at hn
      exact ⟨_, printedAll_cons hn hparts, List.flatten_cons⟩
    | none =>
      rw [hresult] at hn
      rw [← Except.ok.inj hn]
      exact ⟨parts, hparts, rfl⟩

theorem exists_printed_body {n : Node} {changes : List (Node × Change)} (hn : n ∈ root.preorder)
    (hfst : changes.map Prod.fst = n.body) (hprints : Along (PrintsAs marker text) true changes) :
    ∃ parts, PrintedAll text (results changes) parts ∧
      parts.flatten = bodyText marker text n := by
  rw [bodyText]
  cases hlist : n.bodyList with
  | none =>
    rw [Node.body, hlist] at hfst
    rw [List.map_eq_nil_iff.mp hfst]
    exact ⟨[], printedAll_nil, rfl⟩
  | some list =>
    rw [Node.body, hlist, Option.map_some, Option.getD_some] at hfst
    obtain ⟨hmem, hkind⟩ := Node.mem_of_bodyList hlist
    have hroot := Node.child_mem_preorder hmem hn
    have hbounds := spans.bounds hroot
    dsimp only
    rw [← hfst]
    refine spans.exists_printedAll (fun c hc => ?_) hprints (hfst ▸ spans.tiled hroot hkind)
      hbounds.1 hbounds.2.2
    exact Node.child_mem_preorder (hfst ▸ hc) hroot

end SpansText

/-! ### The text of an expanded file -/

namespace SpansText

variable {s : Setting} {text : Text} {root : Node} (spans : SpansText text root)
  (tree : SourceTree s.links root)
include spans tree

/-- The second branch has the text of the body of the `<Else>` that comes next. -/
theorem exists_printed_otherwise {n : Node} {following : List Node} {no : List (Node × Change)}
    (hplaced : Placed root n following)
    (hother : Pairing.leadingElse following = .ok (no.map Prod.fst))
    (hprints : Along (PrintsAs s.marker text) true no) :
    ∃ parts, PrintedAll text (results no) parts ∧
      (if no.map Prod.fst = [] then "null".toList
        else "<>".toList ++ parts.flatten ++ "</>".toList) =
        otherwiseText s.marker text following := by
  rw [leadingElse_eq_nextElse?] at hother
  rw [otherwiseText]
  cases hnext : nextElse? following with
  | none =>
    rw [hnext] at hother
    rw [← Except.ok.inj hother, List.map_eq_nil_iff.mp (Except.ok.inj hother).symm]
    exact ⟨[], printedAll_nil, if_pos rfl⟩
  | some e =>
    rw [hnext] at hother
    have he := nextElse?_eq_some_iff.mp hnext
    have hmem := mem_of_following hplaced he.mem
    have hbody := ((tree.entries_eq_ok_iff hmem (Node.hasBody_of_isElse he.isElse)).mp hother).1
    obtain ⟨parts, hparts, hflatten⟩ := spans.exists_printed_body hmem hbody hprints
    exact ⟨parts, hparts, by rw [hflatten, hbody]⟩

/-- One step of the law: what takes the place of a node is printed as the stretch of the node with its
patches. -/
theorem printsAs_of_becomes {following : List Node} {n : Node} {change : Change}
    (hconditions : ∀ m e, Reached s.marker root m → m.isIf = true → m.condition = .ok e →
      e.kind ≠ .importDeclaration)
    (h : Becomes s following n change) :
    ReachedAt s.marker root following n → PrintsAs s.marker text following n change := by
  -- on the rules, since an `<If>` needs the law for the `<Else>` that follows it as well
  induction h with
  | removeImport himport =>
    intro _
    rw [PrintsAs, patches_of_import himport, splice_whole]
    rfl
  | removeElse helse =>
    intro _
    rw [PrintsAs, patches_of_isElse helse, splice_whole]
    rfl
  | @expand following n condition made change yes no hif _ hcondition hbody _ hother hinner _ _ hmade
      ihInner ihYes ihNo =>
    intro hat
    have hb := ((tree.entries_eq_ok_iff hat.mem (Node.hasBody_of_isIf hif)).mp hbody).1
    obtain ⟨r, hresult⟩ := tree.exists_result_of_condition hat.mem hcondition
      (hconditions n condition hat.reached hif hcondition) hinner
    have hwritten := ihInner (hat.condition hif hcondition)
    rw [PrintsAs, printed, hresult] at hwritten
    obtain ⟨yesParts, hyes, hyesText⟩ :=
      spans.exists_printed_body hat.mem hb ((tree.along_body hat hif hb).mp ihYes)
    obtain ⟨noParts, hno, hnoText⟩ := spans.exists_printed_otherwise tree hat.placed hother
      ((tree.along_otherwise hat hif hother).mp ihNo)
    rw [PrintsAs, patches_of_isIf hif hcondition, splice_whole, conditionText, ← hyesText, ← hnoText]
    exact hmade.print_eq hresult hwritten hyes hno
  | @visitChildren following n changes himport hif helse _ hchildren hchanges ih =>
    intro hat
    have hplain := isConstruct_eq_false_iff.mpr ⟨hif, helse, himport⟩
    rw [PrintsAs, printed, Node.result_changed, patches_of_plain hif helse himport]
    exact spans.print_rebuilt tree hat.mem hchildren hchanges
      ((hat.along_children hplain hchildren).mp ih)

/-- The law for the whole tree. -/
theorem print_root {changes : List (Node × Change)} (hfst : changes.map Prod.fst = root.children)
    (halong : Along (Becomes s) false changes)
    (hconditions : ∀ n e, Reached s.marker root n → n.isIf = true → n.condition = .ok e →
      e.kind ≠ .importDeclaration) :
    (root.rebuilt changes).print text =
      .ok (splice text 0 text.length (patchesAll s.marker text false root.children)) := by
  have hself := Node.self_mem_preorder root
  have hprints : Along (PrintsAs s.marker text) false changes :=
    (tree.along_root hfst).mp fun before n change after hsplit =>
      spans.printsAs_of_becomes tree hconditions (halong before n change after hsplit)
  have hstart : root.info.start = 0 := congrArg Prod.fst spans.span_eq
  have hstop : root.info.stop = text.length := congrArg Prod.snd spans.span_eq
  have hprint := spans.print_rebuilt tree hself hfst halong hprints
  rwa [hstart, hstop] at hprint

end SpansText

/-- The text of an expanded file is the splice of the source text in which the outermost constructs are
replaced: an `<Else>` and an import of the marker module by nothing, an `<If>` by the text of its
ternary, whose parts are splices in the same way. -/
theorem SourceFile.print_expand {name : String} {text : Text} {tree : GrammarTree}
    {file out : SourceFile} {marker reportedName : String}
    (hprogram : tree.root.type = "program") (hformed : tree.root.WellFormed)
    (hover : tree.root.stop ≤ (Utf8.encode text).length)
    (hfile : ofGrammar name text tree = .ok file)
    (hout : (file.expand marker reportedName).outcome = .ok out)
    (hconditions : ∀ n e, Reached marker file.root n → n.isIf = true → n.condition = .ok e →
      e.kind ≠ .importDeclaration) :
    out.print = .ok (splice text 0 text.length (patchesAll marker text false file.root.children)) := by
  have hsource : SourceTree (file.setting marker reportedName).links file.root := sourceTree hfile
  have hplain := Conversion.not_isSpecialType_of_program hprogram
  have hspans := spansText hfile hplain hformed hover
  obtain ⟨changes, hfst, halong, rfl⟩ := exists_changes_of_expand hfile hout
  rw [print]
  show (file.root.rebuilt changes).print file.text = _
  rw [text_of_ofGrammar hfile]
  exact hspans.print_root hsource hfst halong hconditions

theorem SmallPage.wellFormed : SmallPage.tree.root.WellFormed := by
  simp [tree, element, condition, leaf, GrammarNode.wellFormed_mk_iff, GrammarNode.orderedAt_iff,
    GrammarNode.IsTag, GrammarNode.child?, GrammarNode.childrenIn, GrammarNode.span, InOrder]

/-- The small page: its import is gone, and each `<If>` has become a ternary. -/
theorem SourceFile.print_expand_smallPage :
    ∃ file out, ofGrammar "page.tsx" SmallPage.text SmallPage.tree = .ok file ∧
      (file.expand "m" "").outcome = .ok out ∧ SmallPage.tree.root.type = "program" ∧
      SmallPage.tree.root.WellFormed ∧
      SmallPage.tree.root.stop ≤ (Utf8.encode SmallPage.text).length ∧
      (∀ n e, Reached "m" file.root n → n.isIf = true → n.condition = .ok e →
        e.kind ≠ .importDeclaration) ∧
      out.print = .ok (splice SmallPage.text 0 SmallPage.text.length
        (patchesAll "m" SmallPage.text false file.root.children)) := by
  obtain ⟨file, out, hfile, hout, hkinds⟩ := SmallPage.exists_expanded
  have hover : SmallPage.tree.root.stop ≤ (Utf8.encode SmallPage.text).length := by
    decide +kernel
  have hconditions : ∀ n e, Reached "m" file.root n → n.isIf = true → n.condition = .ok e →
      e.kind ≠ .importDeclaration := fun n e hn _ he =>
    hkinds n ((sourceTree hfile).mem_of_reached hn) e he
  exact ⟨file, out, hfile, hout, rfl, SmallPage.wellFormed, hover, hconditions,
    print_expand rfl SmallPage.wellFormed hover hfile hout hconditions⟩

end CondMarkup
