import CondMarkup.Markup.Printing
import CondMarkup.Proofs.Spans

/-!
The text of a copy. The edits for the children of the node that it was copied from are collected from
the start of that node, and what stands for a child is found by where its origins lead. If the text of
what stands for each child is the stretch of the child with patches in it, all edits are accepted, and
the text of the copy is the stretch of the node with the patches of all children.
-/

namespace CondMarkup

/-! ### Texts of nodes -/

namespace Node

variable {text : Text} {n : Node}

theorem printAll_eq (cs : List Node) : printAll text cs = cs.map fun c => (c, c.print text) := by
  induction cs with
  | nil => rfl
  | cons c rest ih => rw [printAll, ih, List.map_cons]

theorem print_of_source (hbare : n.origin = none) (hmade : n.info.synthesized = false)
    (hstart : 0 ≤ n.info.start) : n.print text = .ok (window text n.info.start n.info.stop) := by
  cases n with
  | mk i p o info cs =>
    obtain rfl : o = none := hbare
    have hsource : ¬ (info.synthesized = true ∨ info.synthesized = true ∨ info.start < 0) := by
      have hmade' : info.synthesized = false := hmade
      have hstart' : 0 ≤ info.start := hstart
      rw [hmade']
      simpa using hstart'
    rw [print, source]
    exact if_neg hsource

theorem print_of_origin (horigin : n.origin ≠ none) (hnew : n.info.synthesized = false)
    (hmade : n.source.info.synthesized = false) (hstart : 0 ≤ n.source.info.start) :
    n.print text = editsOfCopy n.source (printAll text n.children)
        { text := window text n.source.info.start n.source.info.stop } n.source.children >>=
      fun edits => .ok edits.apply := by
  cases n with
  | mk i p o info cs =>
    cases o with
    | none => exact absurd rfl horigin
    | some origin =>
      have hsource : ¬ (info.synthesized = true ∨
          (mk i p (some origin) info cs).source.info.synthesized = true ∨
            (mk i p (some origin) info cs).source.info.start < 0) := by
        have hnew' : info.synthesized = false := hnew
        rw [hnew', hmade]
        simpa using hstart
      rw [print]
      exact if_neg hsource

/-- A made node has the text of its parts. -/
theorem print_of_made (h : n.info.synthesized = true) :
    n.print text = (n.children.mapM fun c => c.print text) >>= printParts n.kind := by
  cases n with
  | mk i p o info cs =>
    have hmade : info.synthesized = true := h
    rw [print, if_pos (Or.inl hmade), printAll_eq, List.mapM_map]
    rfl

end Node

/-! ### Collecting the edits -/

/-- The text of what stands for a node among the children of a copy. -/
def standInText (text : Text) (n : Node) (kids : List (Node × Except PrintError Text)) :
    Except PrintError Text :=
  match standIn? n kids with
  | none => .ok []
  | some (m, written) =>
    if m.same n then .ok (window text n.info.start n.info.stop) else written

/-- The edits were collected for a copy of `p`, for children before position `a` of the text. -/
structure CollectedTo (text : Text) (p : Node) (a : Int) (edits : Edits) : Prop where
  text_eq : edits.text = window text p.info.start p.info.stop
  inOrder : InOrder 0 (a - p.info.start) (Edits.spans edits.accepted)

section Collecting

variable {text : Text} {p n : Node} {kids : List (Node × Except PrintError Text)} {edits : Edits}
  {a : Int}

/-- One child adds the edit that puts in its text, or none if it was kept. -/
theorem editsOfCopy_cons {olds : List Node} {edits' : Edits} {replacement : Text}
    (hkid : standInText text n kids = .ok replacement)
    (hreplace : edits.replace (n.info.start - p.info.start) (n.info.stop - p.info.start)
      replacement = .ok edits') :
    (editsOfCopy p kids edits (n :: olds) = editsOfCopy p kids edits olds ∧
        replacement = window text n.info.start n.info.stop) ∨
      editsOfCopy p kids edits (n :: olds) = editsOfCopy p kids edits' olds := by
  unfold standInText at hkid
  rw [editsOfCopy]
  cases hstand : standIn? n kids with
  | none =>
    rw [hstand] at hkid
    obtain rfl : [] = replacement := Except.ok.inj hkid
    right
    dsimp only
    rw [Edits.delete, hreplace]
    rfl
  | some kid =>
    obtain ⟨m, written⟩ := kid
    rw [hstand] at hkid
    dsimp only at hkid ⊢
    by_cases hsame : m.same n = true
    · rw [if_pos hsame, Except.ok.injEq] at hkid
      left
      rw [if_pos hsame]
      exact ⟨rfl, hkid.symm⟩
    · rw [if_neg hsame] at hkid
      right
      rw [if_neg hsame, hkid]
      dsimp only [bind, Except.bind]
      rw [hreplace]
      rfl

/-- The stretch of a child after those before is accepted. -/
theorem CollectedTo.exists_next (h : CollectedTo text p a edits) (hfirst : 0 ≤ p.info.start)
    (hlast : p.info.stop ≤ text.length) (ha : p.info.start ≤ a) (hstart : a ≤ n.info.start)
    (hspan : n.info.start ≤ n.info.stop) (hstop : n.info.stop ≤ p.info.stop) (replacement : Text) :
    ∃ e : Edit, e.span.start = n.info.start - p.info.start ∧
      e.span.stop = n.info.stop - p.info.start ∧ e.replacement = replacement ∧
      edits.replace (n.info.start - p.info.start) (n.info.stop - p.info.start) replacement =
        .ok { edits with accepted := edits.accepted ++ [e] } ∧
      CollectedTo text p n.info.stop { edits with accepted := edits.accepted ++ [e] } := by
  have hlength := length_window hfirst (by omega : p.info.start ≤ p.info.stop) hlast
  rw [← h.text_eq] at hlength
  have hbefore : a - p.info.start ≤ n.info.start - p.info.start := by omega
  have hinside : n.info.start - p.info.start ≤ n.info.stop - p.info.start := by omega
  have hwithin : n.info.stop - p.info.start ≤ edits.text.length := by omega
  obtain ⟨e, hstartE, hstopE, hreplacement, hreplace⟩ :=
    Edits.exists_replace h.inOrder hbefore hinside hwithin replacement
  refine ⟨e, hstartE, hstopE, hreplacement, hreplace, h.text_eq, ?_⟩
  rw [Edits.spans, List.map_append, List.map_singleton, hstartE, hstopE]
  exact h.inOrder.append ⟨hbefore, hinside, Int.le_refl _⟩

end Collecting

/-! ### Children with patches -/

/-- Each node with the patches in its stretch: they lie in it in order. -/
def Patched (laid : List (Node × List Patch)) : Prop :=
  ∀ x ∈ laid, InOrder x.1.info.start x.1.info.stop (x.2.map Patch.span)

section Laid

variable {text : Text} {n : Node} {ps : List Patch} {laid : List (Node × List Patch)} {a b : Int}

theorem Patched.of_cons (h : Patched ((n, ps) :: laid)) :
    InOrder n.info.start n.info.stop (ps.map Patch.span) ∧ Patched laid :=
  ⟨h (n, ps) List.mem_cons_self, fun x hx => h x (List.mem_cons_of_mem _ hx)⟩

theorem Patched.inOrder_flatMap (h : Patched laid)
    (horder : InOrder a b ((laid.map Prod.fst).map Node.span)) :
    InOrder a b ((laid.flatMap Prod.snd).map Patch.span) := by
  induction laid generalizing a with
  | nil => exact horder
  | cons x rest ih =>
    obtain ⟨hx, hrest⟩ := h.of_cons
    obtain ⟨hstart, _, horder⟩ := horder
    rw [List.flatMap_cons, List.map_append]
    exact (hx.widen hstart (Int.le_refl _)).append (ih hrest horder)

/-- The first node and what follows it, one after the other. -/
theorem Patched.splice_cons (h : Patched ((n, ps) :: laid)) (ha : 0 ≤ a) (hb : b ≤ text.length)
    (horder : InOrder a b ((((n, ps) :: laid).map Prod.fst).map Node.span)) :
    splice text a b (((n, ps) :: laid).flatMap Prod.snd) =
      window text a n.info.start ++ splice text n.info.start n.info.stop ps ++
        splice text n.info.stop b (laid.flatMap Prod.snd) := by
  obtain ⟨hfirst, hrest⟩ := h.of_cons
  obtain ⟨hstart, _, horder⟩ := horder
  have hothers := hrest.inOrder_flatMap horder
  have hstop : n.info.stop ≤ text.length := Int.le_trans hothers.le hb
  rw [List.flatMap_cons, splice_append ha (hfirst.widen hstart (Int.le_refl _)) hothers hb,
    splice_eq_window_append ha hstart hfirst hstop]

/-- In the place of a node that keeps its text nothing is replaced. -/
theorem Patched.splice_cons_of_window (h : Patched ((n, ps) :: laid)) (ha : 0 ≤ a)
    (hb : b ≤ text.length) (horder : InOrder a b ((((n, ps) :: laid).map Prod.fst).map Node.span))
    (hkeep : splice text n.info.start n.info.stop ps = window text n.info.start n.info.stop) :
    splice text a b (((n, ps) :: laid).flatMap Prod.snd) =
      splice text a b (laid.flatMap Prod.snd) := by
  have hsplit := h.splice_cons ha hb horder
  obtain ⟨hstart, hspan, hrest⟩ := horder
  have hothers := h.of_cons.2.inOrder_flatMap hrest
  rw [hsplit, hkeep, window_append ha hstart hspan (Int.le_trans hothers.le hb),
    ← splice_eq_window_append ha (Int.le_trans hstart hspan) hothers hb]

/-- If all nodes keep their texts, nothing is replaced. -/
theorem Patched.splice_eq_window (h : Patched laid) (ha : 0 ≤ a) (hb : b ≤ text.length)
    (horder : InOrder a b ((laid.map Prod.fst).map Node.span))
    (hkeep : ∀ x ∈ laid, splice text x.1.info.start x.1.info.stop x.2 =
      window text x.1.info.start x.1.info.stop) :
    splice text a b (laid.flatMap Prod.snd) = window text a b := by
  induction laid generalizing a with
  | nil => rfl
  | cons x rest ih =>
    rw [h.splice_cons_of_window ha hb horder (hkeep x List.mem_cons_self)]
    obtain ⟨hstart, hspan, horder⟩ := horder
    exact ih h.of_cons.2 ha (horder.widen (Int.le_trans hstart hspan) (Int.le_refl b))
      fun y hy => hkeep y (List.mem_cons_of_mem x hy)

variable {p : Node} {kids : List (Node × Except PrintError Text)}

/-- The edits for the children of a node from position `a` on, where those before are collected:
all are accepted, and applied they make the splice. -/
theorem Patched.exists_editsOfCopy {edits : Edits} (h : Patched laid) (hfirst : 0 ≤ p.info.start)
    (hlast : p.info.stop ≤ text.length)
    (hkids : ∀ x ∈ laid, standInText text x.1 kids =
      .ok (splice text x.1.info.start x.1.info.stop x.2))
    (horder : InOrder a p.info.stop ((laid.map Prod.fst).map Node.span)) (ha : p.info.start ≤ a)
    (hedits : CollectedTo text p a edits) :
    ∃ new, editsOfCopy p kids edits (laid.map Prod.fst) =
        .ok { edits with accepted := edits.accepted ++ new } ∧
      InOrder (a - p.info.start) (p.info.stop - p.info.start) (Edits.spans new) ∧
      Edits.applyFrom edits.text (a - p.info.start) new =
        splice text a p.info.stop (laid.flatMap Prod.snd) := by
  -- on the children, while the collected edits and the place they reach to grow
  induction laid generalizing edits a with
  | nil =>
    have hstop : a ≤ p.info.stop := horder
    have hlength := length_window hfirst (Int.le_trans ha hstop) hlast
    refine ⟨[], ?_, ?_, ?_⟩
    · rw [List.map_nil, editsOfCopy, List.append_nil]
    · exact Int.sub_le_sub_right hstop _
    · rw [Edits.applyFrom, hedits.text_eq, hlength,
        window_window hfirst ha hstop (Int.le_refl _) hlast]
      rfl
  | cons x rest ih =>
    obtain ⟨n, ps⟩ := x
    obtain ⟨hstart, hspan, hrest⟩ := id horder
    have ha' : 0 ≤ a := Int.le_trans hfirst ha
    have hkidsRest := fun y hy => hkids y (List.mem_cons_of_mem (n, ps) hy)
    obtain ⟨e, hstartE, hstopE, hreplacement, hreplace, hnext⟩ := hedits.exists_next hfirst hlast ha
      hstart hspan hrest.le (splice text n.info.start n.info.stop ps)
    rcases editsOfCopy_cons (hkids (n, ps) List.mem_cons_self) hreplace with ⟨hcons, hkeep⟩ | hcons
    · -- a child that is kept adds no edit, but its stretch counts as the splice of its patches
      obtain ⟨new, hcollect, hnewOrder, happly⟩ := ih h.of_cons.2 hkidsRest
        (hrest.widen (Int.le_trans hstart hspan) (Int.le_refl _)) ha hedits
      refine ⟨new, hcons.trans hcollect, hnewOrder, ?_⟩
      rw [happly, h.splice_cons_of_window ha' hlast horder hkeep]
    · obtain ⟨new, hcollect, hnewOrder, happly⟩ := ih h.of_cons.2 hkidsRest hrest
        (Int.le_trans ha (Int.le_trans hstart hspan)) hnext
      refine ⟨e :: new, ?_, ?_, ?_⟩
      · rw [List.map_cons, hcons, hcollect, List.append_assoc, List.singleton_append]
      · rw [Edits.spans, List.map_cons, hstartE, hstopE]
        exact ⟨Int.sub_le_sub_right hstart _, Int.sub_le_sub_right hspan _, hnewOrder⟩
      · rw [Edits.applyFrom, hstartE, hstopE, hreplacement, happly, h.splice_cons ha' hlast horder,
          hedits.text_eq, window_window hfirst ha hstart (Int.le_trans hspan hrest.le) hlast]

/-- A copy has the text of the stretch of its source with the patches of the source's children. -/
theorem Patched.print_of_origin {n : Node} (h : Patched laid) (horigin : n.origin ≠ none)
    (hnew : n.info.synthesized = false) (hmade : n.source.info.synthesized = false)
    (hfirst : 0 ≤ n.source.info.start) (hlast : n.source.info.stop ≤ text.length)
    (horder : InOrder n.source.info.start n.source.info.stop (n.source.children.map Node.span))
    (hlaid : laid.map Prod.fst = n.source.children)
    (hkids : ∀ x ∈ laid, standInText text x.1 (Node.printAll text n.children) =
      .ok (splice text x.1.info.start x.1.info.stop x.2)) :
    n.print text =
      .ok (splice text n.source.info.start n.source.info.stop (laid.flatMap Prod.snd)) := by
  have hnone : CollectedTo text n.source n.source.info.start
      { text := window text n.source.info.start n.source.info.stop } :=
    ⟨rfl, Int.le_of_eq (Int.sub_self n.source.info.start).symm⟩
  rw [← hlaid] at horder
  obtain ⟨new, hcollect, hnewOrder, happly⟩ :=
    h.exists_editsOfCopy hfirst hlast hkids horder (Int.le_refl _) hnone
  rw [Int.sub_self] at hnewOrder happly
  rw [Node.print_of_origin horigin hnew hmade hfirst, ← hlaid, hcollect]
  dsimp only [bind, Except.bind]
  rw [List.nil_append, Edits.apply_of_inOrder hnewOrder, happly]

end Laid

end CondMarkup
