import CondMarkup.Proofs.Footprint
import CondMarkup.Proofs.LineEnds
import CondMarkup.Proofs.SourceText

/-!
The bytes of written files. A file is read with its line ends unified, and what is written for it is a
splice of the text that was read, whatever parser gives its tree. So of the bytes of the file those
outside the constructs are kept exactly if no carriage return is among them; any carriage return that is
not replaced is lost.
-/

namespace CondMarkup

open FileTree

/-! ### What is written stays -/

section Runs

variable {parse : SourceParser} {config : Config} {base p : Path} {d : Destination} {s s' : RunState}
  {files : List Path}

/-- As the run goes on from the state over the files, none of them is written to the place. -/
def SparesPlace (parse : SourceParser) (config : Config) (base : Path) (d : Destination)
    (l : Location) : RunState → List Path → Prop
  | _, [] => True
  | s, q :: rest => l ∉ s.tree.writtenFor parse config.marker base d q ∧
      ∀ s', runFile parse config base d s q = .ok s' → SparesPlace parse config base d l s' rest

/-- One step of a run, whether or not there is a file at the path and whether or not it ends the run. -/
theorem changedAt_runFile (hstart : (∃ directory, d = .below directory) → s.tree.StartsAtPlace) :
    ChangedAt (s.tree.writtenFor parse config.marker base d p ∪ s.tree.madeFor d) s.tree
      (finalState (runFile parse config base d s p)).tree := by
  obtain ⟨htree, _⟩ | ⟨r, hr, hdeliver, _⟩ := runFile_cases parse config base d s p
  · rw [htree]
    exact changedAt_self
  · obtain ⟨bytes, _, hread, _⟩ := readText_eq_ok_iff.mp (transformFile_eq_ok_iff.mp hr).1
    refine (changedAt_of_deliver (isFile_of_read hread) hstart hdeliver).1.mono ?_
    rintro l (⟨target, htarget, hl⟩ | hl)
    · exact Or.inl ⟨r, hr, target, htarget, hl⟩
    · exact Or.inr hl

theorem startsAtPlace_of_run {tree : FileTree}
    (hstart : (∃ directory, d = .below directory) → tree.StartsAtPlace)
    (h : tree.run parse config base d files = .ok s) :
    (∃ directory, d = .below directory) → s.tree.StartsAtPlace := by
  intro hd
  have hfinal : (finalState (tree.run parse config base d files)).tree.StartsAtPlace :=
    finalState_induction (P := fun s => s.tree.StartsAtPlace)
      (fun s p _ hs => (changedAt_runFile fun _ => hs).startsAtPlace hs) (hstart hd)
  rwa [h] at hfinal

/-- A file stays as it is while no other is written to its place. -/
theorem SparesPlace.read {target : Path} {bytes : List UInt8}
    (hspares : SparesPlace parse config base d (s.tree.place target) s files)
    (hstart : (∃ directory, d = .below directory) → s.tree.StartsAtPlace)
    (hread : s.tree.read target = .ok bytes) (h : runFiles parse config base d s files = .ok s') :
    s'.tree.read target = .ok bytes := by
  induction files generalizing s with
  | nil => exact Except.ok.inj h ▸ hread
  | cons q rest ih =>
    rw [runFiles, List.foldlM_cons] at h
    obtain ⟨s₁, hfirst, h⟩ := bind_eq_ok_iff.mp h
    have hchanged : ChangedAt (s.tree.writtenFor parse config.marker base d q ∪ s.tree.madeFor d)
        s.tree (finalState (runFile parse config base d s q)).tree := changedAt_runFile hstart
    rw [hfirst] at hchanged
    have hfile := isFile_of_read hread
    have hnot : s.tree.place target ∉
        s.tree.writtenFor parse config.marker base d q ∪ s.tree.madeFor d := by
      rintro (hl | hl)
      · exact hspares.1 hl
      · exact place_not_mem_madeFor hfile hl
    refine ih ?_ (fun hd => hchanged.startsAtPlace (hstart hd)) ?_ h
    · rw [hchanged.place]
      exact hspares.2 s₁ hfirst
    · rw [hchanged.read hfile hnot, hread]

/-- What is written for a file is found at the end of the run, if no later file goes there. -/
theorem read_of_run {tree : FileTree} {before after : List Path} {target : Path} {s₁ : RunState}
    {r : Expanded} (hstart : (∃ directory, d = .below directory) → tree.StartsAtPlace)
    (hbefore : tree.run parse config base d before = .ok s₁)
    (hr : (s₁.tree.transformFile parse config.marker p).outcome = .ok r)
    (htarget : s₁.tree.target? base d p r = some target)
    (hspares : ∀ s₂, runFile parse config base d s₁ p = .ok s₂ →
      SparesPlace parse config base d (s₁.tree.place target) s₂ after)
    (hrun : tree.run parse config base d (before ++ p :: after) = .ok s) :
    s.tree.read target = .ok (Utf8.encode r.result) := by
  rw [run, runFiles, List.foldlM_append] at hrun
  obtain ⟨s₁', hbefore', hrun⟩ := bind_eq_ok_iff.mp hrun
  obtain rfl : s₁ = s₁' := Except.ok.inj (hbefore.symm.trans hbefore')
  rw [List.foldlM_cons] at hrun
  obtain ⟨s₂, hturn, hrun⟩ := bind_eq_ok_iff.mp hrun
  have hstart₁ := startsAtPlace_of_run hstart hbefore
  obtain ⟨bytes, _, hread, _⟩ := readText_eq_ok_iff.mp (transformFile_eq_ok_iff.mp hr).1
  have hran := ran_of_runFile (isFile_of_read hread) hstart₁ hturn
  obtain ⟨written, hwritten, q, hq, r', hr', rfl, _⟩ :=
    hran.delivered p (List.mem_singleton_self p) r hr target htarget
  rw [List.mem_singleton.mp hq, hr, Except.ok.injEq] at hr'
  subst hr'
  have hspares₂ := hspares s₂ hturn
  rw [← hran.changed.place] at hspares₂
  exact hspares₂.read (fun hd => hran.changed.startsAtPlace (hstart₁ hd)) hwritten hrun

end Runs

/-! ### Bytes outside of constructs -/

/-- The bytes that the outermost constructs were read from. -/
def SourceFile.constructRanges (file : SourceFile) (marker : String) (raw : Text) : List (Nat × Nat) :=
  ((Node.outermostAll marker file.root.children).map Node.span).map (byteRange raw)

section Expanded

variable {tree : FileTree} {parse : SourceParser} {marker : String} {p : Path} {r : Expanded}
  {raw : Text}

/-- What an expanded text keeps of a text that it was read from: everything outside of the constructs if
there is no carriage return, and not everything if there is one. -/
theorem keepsOutside_result_iff {file : SourceFile}
    (htree : (parse (.ofFileName p.text) r.source).IsTreeOf r.source)
    (hfile : IsParsed parse p.text r.source file)
    (hresult : r.result = splice r.source 0 r.source.length
      (patchesAll marker r.source false file.root.children))
    (hraw : unifyLineEnds raw = r.source) (hclear : '\r' ∉ r.result) :
    KeepsOutside (Utf8.encode raw) (file.constructRanges marker raw) (Utf8.encode r.result) ↔
      carriageReturn ∉ bytesOutside (Utf8.encode raw) (file.constructRanges marker raw) := by
  have horder : InOrder 0 r.source.length
      ((Node.outermostAll marker file.root.children).map Node.span) :=
    (hfile.spansText htree).inOrder_outermost
  rw [← span_patchesAll r.source false, ← hraw] at horder
  rw [hresult, ← hraw] at hclear
  rw [SourceFile.constructRanges, ← span_patchesAll r.source false, hresult, ← hraw]
  exact keepsOutside_splice_iff horder hclear

end Expanded

/-- Of a file that is expanded and written, the bytes outside of the outermost constructs are kept exactly
if no carriage return is among them; with its line ends unified they are kept in any case. A file without
constructs is written as it is exactly if it has no carriage return. All that is asked of the parser is
that what it gives for this file is a tree of its text. -/
theorem FileTree.run_keeps_bytes_iff {parse : SourceParser} {tree : FileTree} {config : Config}
    {base p target : Path} {d : Destination} {before after : List Path} {s₁ s : RunState}
    {r : Expanded} (htree : (parse (.ofFileName p.text) r.source).IsTreeOf r.source)
    (hstart : (∃ directory, d = .below directory) → tree.StartsAtPlace)
    (hbefore : tree.run parse config base d before = .ok s₁)
    (hr : (s₁.tree.transformFile parse config.marker p).outcome = .ok r)
    (htarget : s₁.tree.target? base d p r = some target)
    (hspares : ∀ s₂, runFile parse config base d s₁ p = .ok s₂ →
      SparesPlace parse config base d (s₁.tree.place target) s₂ after)
    (hrun : tree.run parse config base d (before ++ p :: after) = .ok s) :
    ∃ input raw file written, s₁.tree.read p = .ok input ∧ Utf8.decode input = .ok raw ∧
      IsParsed parse p.text r.source file ∧ s.tree.read target = .ok written ∧
      KeepsOutside (Utf8.encode r.source) (file.constructRanges config.marker r.source) written ∧
      (KeepsOutside input (file.constructRanges config.marker raw) written ↔
        carriageReturn ∉ bytesOutside input (file.constructRanges config.marker raw)) ∧
      (Node.outermostAll config.marker file.root.children = [] →
        (written = input ↔ carriageReturn ∉ input)) := by
  obtain ⟨hread, hresult⟩ := transformFile_eq_ok_iff.mp hr
  obtain ⟨input, raw, hinput, hraw, hsource⟩ := readText_eq_ok_iff.mp hread
  obtain ⟨file, hfile, hsplice⟩ := exists_isParsed_of_transformText htree hresult
  have hclear := not_mem_result hr
  have hwritten := read_of_run hstart hbefore hr htarget hspares hrun
  obtain rfl : Utf8.encode raw = input := Utf8.encode_of_decode hraw
  have hkeeps := keepsOutside_result_iff htree hfile hsplice hsource hclear
  refine ⟨_, raw, file, _, hinput, hraw, hfile, hwritten, ?_, hkeeps, fun hnone => ?_⟩
  · have hsourceClear : '\r' ∉ r.source := hsource ▸ not_mem_unifyLineEnds raw
    refine (keepsOutside_result_iff htree hfile hsplice (unifyLineEnds_of_not_mem hsourceClear)
      hclear).mpr fun hmem => ?_
    exact hsourceClear (carriageReturn_mem_encode_iff.mp (bytesOutside_subset _ _ hmem))
  · have hranges : file.constructRanges config.marker raw = [] := by
      rw [SourceFile.constructRanges, hnone]
      rfl
    rwa [hranges, keepsOutside_nil_iff, bytesOutside_nil] at hkeeps

theorem SmallFolder.isTreeOf_pageTree : pageTree.IsTreeOf "<If condition={x}>A</If>".toList where
  wellFormed := by
    simp [pageTree, SmallPage.leaf, GrammarNode.wellFormed_mk_iff, GrammarNode.orderedAt_iff,
      GrammarNode.IsTag, GrammarNode.child?, GrammarNode.childrenIn, GrammarNode.span, InOrder]
  plainRoot := Conversion.not_isSpecialType_of_program rfl
  within := by decide +kernel
  braces := by
    simp [pageTree, SmallPage.leaf, GrammarNode.within_mk_iff, or_imp, forall_and]

/-- The small folder, where all that is outside of the `<If>` is kept. -/
theorem FileTree.run_keeps_bytes_iff_smallFolder : ∃ s input raw file written,
    (SmallFolder.parse (.ofFileName SmallFolder.page.text) "<If condition={x}>A</If>".toList).IsTreeOf
        "<If condition={x}>A</If>".toList ∧
      SmallFolder.tree.run SmallFolder.parse SmallFolder.config SmallFolder.base
        (.below SmallFolder.directory) [SmallFolder.page] = .ok s ∧
      SmallFolder.tree.read SmallFolder.page = .ok input ∧ Utf8.decode input = .ok raw ∧
      IsParsed SmallFolder.parse SmallFolder.page.text "<If condition={x}>A</If>".toList file ∧
      s.tree.read { parts := ["out", "a"] } = .ok written ∧
      KeepsOutside input (file.constructRanges SmallFolder.config.marker raw) written := by
  obtain ⟨s, hrun⟩ := SmallFolder.exists_run_below
  have hread : SmallFolder.tree.read SmallFolder.page =
      .ok (Utf8.encode "<If condition={x}>A</If>".toList) := by cbv
  have htarget : SmallFolder.tree.target? SmallFolder.base (.below SmallFolder.directory)
      SmallFolder.page ⟨"<If condition={x}>A</If>".toList, "{x ? <>A</> : null}".toList⟩ =
        some { parts := ["out", "a"] } := congrArg some SmallFolder.destination_page
  have hbefore : SmallFolder.tree.run SmallFolder.parse SmallFolder.config SmallFolder.base
      (.below SmallFolder.directory) [] = .ok { tree := SmallFolder.tree } := rfl
  have hspares : ∀ s₂ l, SparesPlace SmallFolder.parse SmallFolder.config SmallFolder.base
      (.below SmallFolder.directory) l s₂ [] := fun _ _ => trivial
  have htree : (SmallFolder.parse (.ofFileName SmallFolder.page.text)
      "<If condition={x}>A</If>".toList).IsTreeOf "<If condition={x}>A</If>".toList :=
    SmallFolder.isTreeOf_pageTree
  obtain ⟨input, raw, file, written, hinput, hraw, hfile, hwritten, _, hkeeps, _⟩ :=
    run_keeps_bytes_iff htree (fun _ => SmallFolder.startsAtPlace) hbefore SmallFolder.expanded_page
      htarget (fun s₂ _ => hspares s₂ _) hrun
  have hclear : carriageReturn ∉ Utf8.encode "<If condition={x}>A</If>".toList := by decide
  obtain rfl : _ = input := Except.ok.inj (hread.symm.trans hinput)
  refine ⟨s, _, raw, file, written, htree, hrun, hinput, hraw, hfile, hwritten, ?_⟩
  refine hkeeps.mpr fun hmem => ?_
  exact hclear (bytesOutside_subset _ _ hmem)

namespace ReturnFolder

open SmallPage (leaf)

/-- A file without constructs whose line ends with a carriage return and a line feed. -/
def tree : FileTree where
  entries := [(["a.tsx"], .file (Utf8.encode "const a = 1;\r\n".toList))]

def file : Path := { parts := ["a.tsx"] }

def base : Path := { parts := [] }

def directory : Path := { parts := ["out"] }

/-- What the line is parsed into. -/
def lineTree : GrammarTree where
  root := .mk "program" 0 13 true none
    [.mk "lexical_declaration" 0 12 true none
      [.mk "const" 0 5 false (some "kind") [],
        .mk "variable_declarator" 6 11 true none
          [leaf "identifier" 6 7 (some "name"), .mk "=" 8 9 false none [],
            leaf "number" 10 11 (some "value")],
        .mk ";" 11 12 false none []]]

/-- A parser that knows the line. -/
def parse : SourceParser := fun _ t =>
  if t = "const a = 1;\n".toList then lineTree
  else { root := leaf "program" 0 (Utf8.encode t).length none }

theorem isTreeOf_lineTree : lineTree.IsTreeOf "const a = 1;\n".toList where
  wellFormed := by
    simp [lineTree, leaf, GrammarNode.wellFormed_mk_iff, GrammarNode.orderedAt_iff, GrammarNode.IsTag,
      GrammarNode.child?, GrammarNode.childrenIn, GrammarNode.span, InOrder]
  plainRoot := Conversion.not_isSpecialType_of_program rfl
  within := by decide +kernel
  braces := by
    simp [lineTree, leaf, GrammarNode.within_mk_iff, or_imp, forall_and]

theorem expanded_file : (tree.transformFile parse "m" file).outcome =
    .ok ⟨"const a = 1;\n".toList, "const a = 1;\n".toList⟩ := by
  rw [FileTree.transformFile_eq_ok_iff]
  refine ⟨by cbv, toOption_eq_some_iff.mp ?_⟩
  have hparse : parse (.ofFileName file.text) "const a = 1;\n".toList = lineTree := if_pos rfl
  simp only [transformText, hparse, transformTree, SourceFile.parsed, SourceFile.ofGrammar,
    Node.ofGrammar_eq]
  rw [Conversion.convert_eq, Conversion.convert_eq_repeat _ 4]
  decide +kernel

/-- The tree after the file is written below the directory. -/
def after : FileTree where
  entries := tree.entries ++ [(["out"], .directory),
    (["out", "a.tsx"], .file (Utf8.encode "const a = 1;\n".toList))]

/-- There is no construct in the line. -/
theorem exists_isParsed : ∃ parsed, IsParsed parse file.text "const a = 1;\n".toList parsed ∧
    Node.outermostAll "m" parsed.root.children = [] := by
  have hparse : parse (.ofFileName file.text) "const a = 1;\n".toList = lineTree := if_pos rfl
  have hnone : ((SourceFile.ofGrammar file.text "const a = 1;\n".toList lineTree).toOption.map
      fun parsed => (Node.outermostAll "m" parsed.root.children).length) = some 0 := by
    simp only [SourceFile.ofGrammar, Node.ofGrammar_eq]
    rw [Conversion.convert_eq, Conversion.convert_eq_repeat _ 4]
    decide +kernel
  obtain ⟨parsed, hparsed, hlength⟩ := Option.map_eq_some_iff.mp hnone
  refine ⟨parsed, ?_, List.eq_nil_of_length_eq_zero hlength⟩
  rw [IsParsed, hparse]
  exact toOption_eq_some_iff.mp hparsed

end ReturnFolder

/-- A file without constructs is written below a directory, and its bytes are not those that were
read. -/
theorem FileTree.run_below_loses_carriage_return : ∃ s parsed,
    (ReturnFolder.parse (.ofFileName ReturnFolder.file.text) "const a = 1;\n".toList).IsTreeOf
        "const a = 1;\n".toList ∧
      ReturnFolder.tree.run ReturnFolder.parse { marker := "m" } ReturnFolder.base
        (.below ReturnFolder.directory) [ReturnFolder.file] = .ok s ∧
      s.ok = true ∧ IsParsed ReturnFolder.parse ReturnFolder.file.text "const a = 1;\n".toList parsed ∧
      Node.outermostAll "m" parsed.root.children = [] ∧
      ReturnFolder.tree.read ReturnFolder.file = .ok (Utf8.encode "const a = 1;\r\n".toList) ∧
      s.tree.read (ReturnFolder.tree.destination ReturnFolder.base ReturnFolder.directory
        ReturnFolder.file) = .ok (Utf8.encode "const a = 1;\n".toList) ∧
      Utf8.encode "const a = 1;\n".toList ≠ Utf8.encode "const a = 1;\r\n".toList := by
  have hdeliver : ReturnFolder.tree.deliver ReturnFolder.base (.below ReturnFolder.directory)
      ReturnFolder.file ⟨"const a = 1;\n".toList, "const a = 1;\n".toList⟩ =
        .ok ReturnFolder.after := by cbv
  have hstep : ∃ s, runFile ReturnFolder.parse { marker := "m" } ReturnFolder.base
      (.below ReturnFolder.directory) { tree := ReturnFolder.tree } ReturnFolder.file = .ok s ∧ _ ∧ _ :=
    exists_runFile ReturnFolder.expanded_file hdeliver
  obtain ⟨s, hs, htree, houtcomes⟩ := hstep
  obtain ⟨parsed, hparsed, hnone⟩ := ReturnFolder.exists_isParsed
  refine ⟨s, parsed, ReturnFolder.isTreeOf_lineTree, ?_, ?_, hparsed, hnone, by cbv, ?_, by decide⟩
  · rw [run, runFiles, List.foldlM_cons, hs]
    rfl
  · rw [RunState.ok, RunState.failed, houtcomes]
    rfl
  · rw [htree]
    cbv

end CondMarkup
