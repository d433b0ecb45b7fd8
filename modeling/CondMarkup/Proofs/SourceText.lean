import CondMarkup.Proofs.Bodies
import CondMarkup.Proofs.ReadBack
import CondMarkup.Proofs.Written

/-!
What a text is expanded to, whatever parser reads it. The law of the printed text asks that the parsed
tree is in order, that it lies in the text below a root that is no markup, and that no condition is an
import. If the parser gives such a tree, in which no import stands directly in braces, nothing is left to
suppose but that the expansion succeeds.
-/

namespace CondMarkup

open Conversion

/-! ### Trees of texts -/

/-- What is relied on of the tree that a parser reads from a text: the nodes are in order and lie in the
text, the root is no markup, and an import is a statement, which never stands directly in braces. -/
structure GrammarTree.IsTreeOf (tree : GrammarTree) (text : Text) : Prop where
  wellFormed : tree.root.WellFormed
  plainRoot : ¬ isSpecialType tree.root.type
  within : tree.root.stop ≤ (Utf8.encode text).length
  braces : ∀ g : GrammarNode, g.Within tree.root → g.type = "jsx_expression" →
    ∀ c ∈ g.children, c.type ≠ "import_statement"

/-! ### What stands in braces -/

/-- No import stands directly in braces. -/
def Braced (info : NodeInfo) (parts : List NodeInfo) : Prop :=
  info.kind = .jsxExpression → .importDeclaration ∉ parts.map NodeInfo.kind

theorem Kind.eq_of_ofGrammarType_eq_jsxExpression {type : String}
    (h : ofGrammarType type = jsxExpression) : type = "jsx_expression" := by
  unfold ofGrammarType at h
  split at h
  case h_6 => rfl
  all_goals cases h

theorem Kind.eq_of_ofGrammarType_eq_importDeclaration {type : String}
    (h : ofGrammarType type = importDeclaration) : type = "import_statement" := by
  unfold ofGrammarType at h
  split at h
  case h_2 => rfl
  all_goals cases h

/-- Only an import becomes one. -/
theorem Conversion.Converts.type_of_import {t : Text} {g : GrammarNode} {n : Node}
    (h : Converts t false g n) (hkind : n.kind = .importDeclaration) : g.type = "import_statement" := by
  cases h with
  | importStatement htype => exact htype
  | plain _ => exact Kind.eq_of_ofGrammarType_eq_importDeclaration hkind
  | _ => cases hkind

/-- Where no import stands directly in braces, none does in what is converted. -/
theorem Conversion.Converts.braced {t : Text} {inTag : Bool} {root : GrammarNode} {n : Node}
    (h : Converts t inTag root n) (hbraces : ∀ g : GrammarNode, g.Within root →
      g.type = "jsx_expression" → ∀ c ∈ g.children, c.type ≠ "import_statement") :
    n.Everywhere Braced := by
  refine h.everywhere (fun info parts start stop hkind _ hbraces => absurd hbraces hkind)
    (fun g (hg : g.Within root) c hc => hg.of_mem_children hc)
    (fun g children value hg _ hchildren hconverted => ?_) (.root root)
  intro hkind hmem
  have htype := Kind.eq_of_ofGrammarType_eq_jsxExpression hkind
  rw [List.map_map, List.map_map] at hmem
  obtain ⟨p, hp, himport⟩ := List.mem_map.mp hmem
  refine hbraces g hg htype p.1 ?_ ((hconverted p hp).type_of_import himport)
  rw [← hchildren]
  exact List.mem_map_of_mem hp

theorem SourceFile.braced {name : String} {text : Text} {tree : GrammarTree} {file : SourceFile}
    (h : ofGrammar name text tree = .ok file) (htree : tree.IsTreeOf text) :
    file.root.Everywhere Braced := by
  obtain ⟨n, hn, rfl⟩ := ofGrammar_eq_ok h
  obtain ⟨m, hm, hroot⟩ := convert_root hn
  have hbraced := hm.braced htree.braces
  rcases hroot with ⟨_, rfl⟩ | ⟨_, rfl⟩
  · exact hbraced.number none 0
  · rw [Node.everywhere_iff] at hbraced
    refine Node.Everywhere.number ?_ none 0
    rw [Node.everywhere_iff]
    exact hbraced

/-- A condition is no import. -/
theorem Node.Everywhere.kind_condition {root n e : Node} (h : root.Everywhere Braced)
    (hn : n ∈ root.preorder) (he : n.condition = .ok e) : e.kind ≠ .importDeclaration := by
  obtain ⟨openTag, hopen, v, hv, hkind, hmem⟩ := exists_of_condition he
  have hbraced := h v (mem_preorder_trans hv (mem_preorder_trans (opening_mem_preorder hopen) hn))
  intro himport
  refine hbraced hkind ?_
  rw [List.map_map]
  exact List.mem_map.mpr ⟨e, hmem, himport⟩

/-! ### Outermost constructs -/

mutual

/-- The outermost constructs in the tree of a node. -/
def Node.outermost (marker : String) : Node → List Node
  | mk i p o info children =>
    if (mk i p o info children).isConstruct marker then [mk i p o info children]
    else outermostAll marker children

def Node.outermostAll (marker : String) : List Node → List Node
  | [] => []
  | n :: rest => n.outermost marker ++ outermostAll marker rest

end

section Outermost

variable {marker : String} {text : Text}

theorem Node.outermost_of_construct {n : Node} (h : n.isConstruct marker = true) :
    n.outermost marker = [n] := by
  cases n with
  | mk i p o info children => rw [outermost, if_pos h]

theorem Node.outermost_of_plain {n : Node} (h : n.isConstruct marker = false) :
    n.outermost marker = outermostAll marker n.children := by
  cases n with
  | mk i p o info children =>
    rw [outermost, if_neg (by rw [h]; exact Bool.false_ne_true)]
    rfl

/-- A construct is replaced as a whole. -/
theorem span_patches_of_construct {n : Node} (h : n.isConstruct marker = true) (following : List Node) :
    (patches marker text following n).map Patch.span = [n.span] := by
  rw [Node.isConstruct, Bool.or_eq_true, Bool.or_eq_true, decide_eq_true_eq] at h
  rw [patches]
  split
  · rfl
  · rename_i hif
    rw [if_pos (by tauto)]
    rfl

theorem span_patchesAll_of_forall {inBody : Bool} {cs : List Node}
    (h : ∀ c ∈ cs, ∀ following,
      (patches marker text following c).map Patch.span = (c.outermost marker).map Node.span) :
    (patchesAll marker text inBody cs).map Patch.span = (Node.outermostAll marker cs).map Node.span := by
  induction cs with
  | nil => rw [patchesAll, Node.outermostAll, List.map_nil, List.map_nil]
  | cons c rest ih =>
    rw [patchesAll, Node.outermostAll, List.map_append, List.map_append, h c List.mem_cons_self,
      ih fun d hd => h d (List.mem_cons_of_mem c hd)]

/-- The stretches that are replaced are those of the outermost constructs. -/
theorem span_patches (n : Node) : ∀ following,
    (patches marker text following n).map Patch.span = (n.outermost marker).map Node.span := by
  induction n using Node.treeInduction with
  | step n ih =>
    intro following
    by_cases h : n.isConstruct marker = true
    · rw [span_patches_of_construct h, Node.outermost_of_construct h]
      rfl
    · rw [Bool.not_eq_true] at h
      obtain ⟨hif, helse, himport⟩ := isConstruct_eq_false_iff.mp h
      rw [patches_of_plain hif helse himport, Node.outermost_of_plain h]
      exact span_patchesAll_of_forall ih

theorem span_patchesAll (text : Text) (inBody : Bool) (cs : List Node) :
    (patchesAll marker text inBody cs).map Patch.span = (Node.outermostAll marker cs).map Node.span :=
  span_patchesAll_of_forall fun c _ => span_patches c

/-- The outermost constructs stand in the text, one after the other. -/
theorem SpansText.inOrder_outermost {root : Node} (spans : SpansText text root) :
    InOrder 0 text.length ((Node.outermostAll marker root.children).map Node.span) := by
  have hself := Node.self_mem_preorder root
  have hstart : root.info.start = 0 := congrArg Prod.fst spans.span_eq
  have hstop : root.info.stop = text.length := congrArg Prod.snd spans.span_eq
  rw [← span_patchesAll text false, ← hstart, ← hstop]
  exact inOrder_patchesAll (spans.inOrder hself) fun c hc =>
    spans.inOrder_patches (Node.child_mem_preorder hc hself)

end Outermost

/-! ### Expanded texts -/

/-- The file that a text is parsed to. -/
def IsParsed (parse : SourceParser) (fileName : String) (text : Text) (file : SourceFile) : Prop :=
  SourceFile.ofGrammar fileName text (parse (.ofFileName fileName) text) = .ok file

section Text

variable {parse : SourceParser} {fileName marker : String} {text t : Text} {file : SourceFile}
  (htree : (parse (.ofFileName fileName) text).IsTreeOf text)
include htree

theorem IsParsed.spansText (h : IsParsed parse fileName text file) : SpansText text file.root :=
  SourceFile.spansText h htree.plainRoot htree.wellFormed htree.within

/-- A text is expanded to the splice in which the outermost constructs are replaced. -/
theorem exists_isParsed_of_transformText
    (h : (transformText parse fileName text marker).outcome = .ok t) :
    ∃ file, IsParsed parse fileName text file ∧
      t = splice text 0 text.length (patchesAll marker text false file.root.children) := by
  rw [transformText, transformTree] at h
  obtain ⟨file, hfile, h⟩ := Journaled.outcome_bind_eq_ok_iff.mp h
  obtain ⟨out, hout, h⟩ := Journaled.outcome_bind_eq_ok_iff.mp h
  have hparsed : IsParsed parse fileName text file := SourceFile.ofGrammar_of_parsed hfile
  have hprint : out.root.print out.text = .ok t := mapError_eq_ok_iff.mp h
  obtain ⟨changes, hfst, halong, rfl⟩ :=
    SourceFile.exists_changes_of_expand hparsed (mapError_eq_ok_iff.mp hout)
  have hsource : SourceTree (file.setting marker fileName).links file.root :=
    SourceFile.sourceTree hparsed
  have hbraced := SourceFile.braced hparsed htree
  have hlaw := (hparsed.spansText htree).print_root hsource hfst halong fun n e hn _ he =>
    hbraced.kind_condition (hsource.mem_of_reached hn) he
  refine ⟨file, hparsed, Except.ok.inj (hprint.symm.trans ?_)⟩
  rw [SourceFile.withRoot, SourceFile.text_of_ofGrammar hparsed]
  exact hlaw

end Text

end CondMarkup
