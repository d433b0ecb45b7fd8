import CondMarkup.Proofs.Splice

/-!
What becomes of a text for which edits are collected, whatever was asked for and in whatever order. A
stretch without characters may start where another one does, and of the edits that start together
the one accepted last decides from where the text is copied on. So the characters of a stretch are cut
unless something was put in at its start afterwards, and no other character is lost or repeated.
The edits are applied in the order of their starts while a cursor moves over the text; the invariant
`Resumes` says which characters after the last start are cut.
-/

namespace CondMarkup

/-- What may be asked for while edits are collected. -/
inductive EditRequest where
  | replace (start stop : Int) (replacement : Text)
  | delete (start stop : Int)

/-- Whether the character at a position lies in the stretch. -/
def Span.holds (s : Span) (position : Nat) : Bool := s.start ≤ position && position < s.stop

namespace Edits

/-! ### Collecting -/

def request (edits : Edits) : EditRequest → Except EditError Edits
  | .replace start stop replacement => edits.replace start stop replacement
  | .delete start stop => edits.delete start stop

/-- The edits after a request. One that is refused leaves no trace. -/
def afterRequest (edits : Edits) (r : EditRequest) : Edits :=
  match edits.request r with
  | .ok edits => edits
  | .error _ => edits

/-- The edits of a text after requests, made one after the other. -/
def collect (text : Text) (requests : List EditRequest) : Edits :=
  requests.foldl afterRequest { text }

/-- The accepted edits lie within the text, and no two of them overlap. -/
structure Separate (edits : Edits) : Prop where
  within : ∀ e ∈ edits.accepted, 0 ≤ e.span.start ∧ e.span.stop ≤ edits.text.length
  disjoint : edits.accepted.Pairwise fun e f => e.span.overlaps f.span = false

theorem replace_eq_ok_iff {edits edits' : Edits} {start stop : Int} {replacement : Text} :
    edits.replace start stop replacement = .ok edits' ↔
      ∃ e : Edit, e.span.start = start ∧ e.span.stop = stop ∧ e.replacement = replacement ∧
        0 ≤ start ∧ stop ≤ edits.text.length ∧
        (∀ f ∈ edits.accepted, e.span.overlaps f.span = false) ∧
        edits' = { edits with accepted := edits.accepted ++ [e] } := by
  unfold replace Span.ofPositions
  by_cases hle : start ≤ stop
  · rw [dif_pos hle]
    change (if start < 0 ∨ edits.text.length < stop then _ else _) = _ ↔ _
    by_cases houtside : start < 0 ∨ edits.text.length < stop
    · rw [if_pos houtside]
      constructor
      · intro h
        cases h
      · rintro ⟨e, _, _, _, hstart, hstop, _⟩
        omega
    · rw [if_neg houtside]
      dsimp only [bind, Except.bind, pure, Except.pure]
      split
      · rename_i f hfind
        constructor
        · intro h
          cases h
        · rintro ⟨⟨⟨_, _, _⟩, _⟩, rfl, rfl, _, _, _, hfree, _⟩
          have hoverlap := List.find?_some hfind
          rw [hfree f (List.mem_of_find?_eq_some hfind)] at hoverlap
          cases hoverlap
      · rename_i hfind
        rw [List.find?_eq_none] at hfind
        constructor
        · intro h
          refine ⟨⟨⟨start, stop, hle⟩, replacement⟩, rfl, rfl, rfl, by omega, by omega, ?_, ?_⟩
          · intro f hf
            exact Bool.eq_false_iff.mpr (hfind f hf)
          · exact (Except.ok.inj h).symm
        · rintro ⟨⟨⟨_, _, _⟩, _⟩, rfl, rfl, rfl, _, _, _, rfl⟩
          rfl
  · rw [dif_neg hle]
    constructor
    · intro h
      cases h
    · rintro ⟨e, rfl, rfl, _⟩
      exact absurd e.span.start_le_stop hle

/-- A request that is accepted adds one edit behind the others. -/
theorem exists_of_request {edits edits' : Edits} {r : EditRequest} (h : edits.request r = .ok edits') :
    ∃ e : Edit, 0 ≤ e.span.start ∧ e.span.stop ≤ edits.text.length ∧
      (∀ f ∈ edits.accepted, e.span.overlaps f.span = false) ∧
      edits' = { edits with accepted := edits.accepted ++ [e] } := by
  have hreplace : ∃ start stop replacement, edits.replace start stop replacement = .ok edits' := by
    cases r with
    | replace start stop replacement => exact ⟨start, stop, replacement, h⟩
    | delete start stop => exact ⟨start, stop, [], h⟩
  obtain ⟨start, stop, replacement, hreplace⟩ := hreplace
  obtain ⟨e, rfl, rfl, _, hstart, hstop, hfree, hedits⟩ := replace_eq_ok_iff.mp hreplace
  exact ⟨e, hstart, hstop, hfree, hedits⟩

@[simp] theorem text_afterRequest (edits : Edits) (r : EditRequest) :
    (edits.afterRequest r).text = edits.text := by
  unfold afterRequest
  cases h : edits.request r with
  | error e => rfl
  | ok edits' =>
    obtain ⟨_, _, _, _, rfl⟩ := exists_of_request h
    rfl

theorem Separate.afterRequest {edits : Edits} (h : edits.Separate) (r : EditRequest) :
    (edits.afterRequest r).Separate := by
  unfold Edits.afterRequest
  cases hr : edits.request r with
  | error e => exact h
  | ok edits' =>
    obtain ⟨e, hstart, hstop, hfree, rfl⟩ := exists_of_request hr
    constructor
    · intro f hf
      rcases List.mem_append.mp hf with hf | hf
      · exact h.within f hf
      · rw [List.mem_singleton.mp hf]
        exact ⟨hstart, hstop⟩
    · refine List.pairwise_append.mpr ⟨h.disjoint, List.pairwise_singleton _ _, ?_⟩
      intro f hf g hg
      rw [List.mem_singleton.mp hg, Span.overlaps_comm]
      exact hfree f hf

theorem separate_collect (text : Text) (requests : List EditRequest) :
    (collect text requests).text = text ∧ (collect text requests).Separate := by
  have hrun : ∀ edits : Edits, edits.Separate →
      (requests.foldl Edits.afterRequest edits).text = edits.text ∧
        (requests.foldl Edits.afterRequest edits).Separate := by
    induction requests with
    | nil => exact fun edits h => ⟨rfl, h⟩
    | cons r rest ih =>
      intro edits h
      obtain ⟨htext, hseparate⟩ := ih (edits.afterRequest r) (h.afterRequest r)
      exact ⟨htext.trans (text_afterRequest edits r), hseparate⟩
  apply hrun
  exact ⟨fun e he => absurd he List.not_mem_nil, List.Pairwise.nil⟩

/-! ### What is left of the text -/

/-- The characters of a stretch of the text that lie in none of the edits' stretches. -/
def untouched (text : Text) (es : List Edit) (start stop : Int) : Text :=
  ((window text.zipIdx start stop).filter fun c => !es.any fun e => e.span.holds c.2).map Prod.fst

section Untouched

variable {text : Text} {es : List Edit} {a b c : Int}

/-- The characters of a stretch are numbered by their positions in the text. -/
theorem mem_window_zipIdx (ha : 0 ≤ a) (hab : a ≤ b) (hb : b ≤ text.length) {x : Char × Nat} :
    x ∈ window text.zipIdx a b ↔ x ∈ text.zipIdx ∧ a ≤ x.2 ∧ (x.2 : Int) < b := by
  obtain ⟨char, i⟩ := x
  have hlength : b ≤ text.zipIdx.length := by simpa using hb
  rw [window_eq_take ha hab hlength, List.mk_mem_zipIdx_iff_getElem?]
  constructor
  · intro h
    obtain ⟨j, hj, heq⟩ := List.mem_take_iff_getElem.mp h
    rw [List.getElem_drop, List.getElem_zipIdx, Prod.mk.injEq] at heq
    obtain ⟨rfl, rfl⟩ := heq
    refine ⟨?_, by omega, by omega⟩
    simp
  · rintro ⟨hchar, hfirst, hlast⟩
    have hi : i < text.length := by omega
    have hget : text[i] = char := by
      rw [List.getElem?_eq_getElem hi, Option.some.injEq] at hchar
      exact hchar
    refine List.mem_take_iff_getElem.mpr ⟨i - a.toNat, ?_, ?_⟩
    · rw [List.length_drop, List.length_zipIdx]
      omega
    · have hplace : a.toNat + (i - a.toNat) = i := by omega
      rw [List.getElem_drop, List.getElem_zipIdx]
      simp only [hplace, hget, Nat.zero_add]

@[simp] theorem untouched_self : untouched text es a a = [] := by
  rw [untouched, window_self, List.filter_nil, List.map_nil]

theorem untouched_append (ha : 0 ≤ a) (hab : a ≤ b) (hbc : b ≤ c) (hc : c ≤ text.length) :
    untouched text es a b ++ untouched text es b c = untouched text es a c := by
  have hlength : c ≤ text.zipIdx.length := by simpa using hc
  unfold untouched
  rw [← List.map_append, ← List.filter_append, window_append ha hab hbc hlength]

/-- A stretch is left as it is if none of its positions is cut. -/
theorem untouched_eq_window (ha : 0 ≤ a) (hab : a ≤ b) (hb : b ≤ text.length)
    (hnone : ∀ i : Nat, a ≤ i → i < b → (es.any fun e => e.span.holds i) = false) :
    untouched text es a b = window text a b := by
  have hlength : b ≤ text.zipIdx.length := by simpa using hb
  have hall : (window text.zipIdx a b).filter (fun c => !es.any fun e => e.span.holds c.2) =
      window text.zipIdx a b := by
    apply List.filter_eq_self.mpr
    intro x hx
    obtain ⟨_, hfirst, hlast⟩ := (mem_window_zipIdx ha hab hb).mp hx
    simp only [hnone x.2 hfirst hlast, Bool.not_false]
  unfold untouched
  rw [hall, window_eq_take ha hab hlength, List.map_take, List.map_drop, List.zipIdx_map_fst,
    ← window_eq_take ha hab hb]

/-- Nothing is left of a stretch whose positions are all cut. -/
theorem untouched_eq_nil (ha : 0 ≤ a) (hab : a ≤ b) (hb : b ≤ text.length)
    (hall : ∀ i : Nat, a ≤ i → i < b → (es.any fun e => e.span.holds i) = true) :
    untouched text es a b = [] := by
  unfold untouched
  rw [List.map_eq_nil_iff, List.filter_eq_nil_iff]
  intro x hx
  obtain ⟨_, hfirst, hlast⟩ := (mem_window_zipIdx ha hab hb).mp hx
  simp [hall x.2 hfirst hlast]

end Untouched

/-! ### The last of the edits that start together -/

/-- The edits, oldest first, less those that a later one starts together with. -/
def lasting : List Edit → List Edit
  | [] => []
  | e :: rest =>
    if rest.any fun f => f.span.start = e.span.start then lasting rest else e :: lasting rest

theorem lasting_cons_of_start {e f : Edit} {rest : List Edit} (hf : f ∈ rest)
    (hstart : f.span.start = e.span.start) : lasting (e :: rest) = lasting rest := by
  rw [lasting, if_pos]
  exact List.any_eq_true.mpr ⟨f, hf, decide_eq_true hstart⟩

theorem lasting_cons_of_ne {e : Edit} {rest : List Edit}
    (h : ∀ f ∈ rest, f.span.start ≠ e.span.start) : lasting (e :: rest) = e :: lasting rest := by
  rw [lasting, if_neg]
  intro hany
  obtain ⟨f, hf, hstart⟩ := List.any_eq_true.mp hany
  exact h f hf (of_decide_eq_true hstart)

theorem lasting_sublist (es : List Edit) : (lasting es).Sublist es := by
  induction es with
  | nil => exact List.Sublist.slnil
  | cons e rest ih =>
    unfold lasting
    split
    · exact ih.cons e
    · exact ih.cons_cons e

/-- The edits that start at a position. -/
def startingAt (start : Int) (es : List Edit) : List Edit := es.filter fun e => e.span.start = start

@[simp] theorem mem_startingAt {start : Int} {es : List Edit} {e : Edit} :
    e ∈ startingAt start es ↔ e ∈ es ∧ e.span.start = start := by
  rw [startingAt, List.mem_filter, decide_eq_true_iff]

theorem startingAt_cons_of_eq {start : Int} {e : Edit} (h : e.span.start = start) (rest : List Edit) :
    startingAt start (e :: rest) = e :: startingAt start rest :=
  List.filter_cons_of_pos (decide_eq_true h)

theorem startingAt_cons_of_ne {start : Int} {e : Edit} (h : e.span.start ≠ start)
    (rest : List Edit) : startingAt start (e :: rest) = startingAt start rest :=
  List.filter_cons_of_neg fun heq => h (of_decide_eq_true heq)

/-- Which edits are kept depends only on those that start together. -/
theorem startingAt_lasting (start : Int) (es : List Edit) :
    startingAt start (lasting es) = lasting (startingAt start es) := by
  induction es with
  | nil => rfl
  | cons e rest ih =>
    by_cases hstart : e.span.start = start
    · rw [startingAt_cons_of_eq hstart]
      by_cases hlater : ∃ f ∈ rest, f.span.start = e.span.start
      · obtain ⟨f, hf, hsame⟩ := hlater
        have hmem : f ∈ startingAt start rest := mem_startingAt.mpr ⟨hf, hsame.trans hstart⟩
        rw [lasting_cons_of_start hf hsame, lasting_cons_of_start hmem hsame, ih]
      · have hne : ∀ f ∈ rest, f.span.start ≠ e.span.start :=
          fun f hf hsame => hlater ⟨f, hf, hsame⟩
        rw [lasting_cons_of_ne hne, startingAt_cons_of_eq hstart, ih,
          lasting_cons_of_ne fun f hf => hne f (mem_startingAt.mp hf).1]
    · rw [startingAt_cons_of_ne hstart, ← ih, lasting]
      split
      · rfl
      · exact startingAt_cons_of_ne hstart (lasting rest)

theorem mem_lasting_iff {es : List Edit} {e : Edit} :
    e ∈ lasting es ↔ e ∈ lasting (startingAt e.span.start es) := by
  rw [← startingAt_lasting, mem_startingAt]
  exact (and_iff_left rfl).symm

theorem inOrder_perm (edits : Edits) : edits.inOrder.Perm edits.accepted :=
  List.mergeSort_perm edits.accepted _

/-- The order of the starts is a total one, as sorting asks for. -/
theorem starts_trans (e f g : Edit) (hef : decide (e.span.start ≤ f.span.start) = true)
    (hfg : decide (f.span.start ≤ g.span.start) = true) :
    decide (e.span.start ≤ g.span.start) = true :=
  decide_eq_true (Int.le_trans (of_decide_eq_true hef) (of_decide_eq_true hfg))

theorem starts_total (e f : Edit) :
    (decide (e.span.start ≤ f.span.start) || decide (f.span.start ≤ e.span.start)) = true := by
  rw [Bool.or_eq_true, decide_eq_true_iff, decide_eq_true_iff]
  exact Int.le_total e.span.start f.span.start

theorem inOrder_pairwise (edits : Edits) :
    edits.inOrder.Pairwise fun e f => e.span.start ≤ f.span.start :=
  (List.pairwise_mergeSort starts_trans starts_total edits.accepted).imp of_decide_eq_true

/-- Edits that start together are applied in the order in which they were accepted. -/
theorem startingAt_inOrder (start : Int) (edits : Edits) :
    startingAt start edits.inOrder = startingAt start edits.accepted := by
  have hsame : (startingAt start edits.accepted).Pairwise fun e f =>
      decide (e.span.start ≤ f.span.start) = true := by
    apply List.pairwise_of_forall_mem_list
    intro e he f hf
    have hstart := (mem_startingAt.mp he).2.trans (mem_startingAt.mp hf).2.symm
    exact decide_eq_true (Int.le_of_eq hstart)
  have hsub : (startingAt start edits.accepted).Sublist edits.inOrder :=
    List.sublist_mergeSort starts_trans starts_total hsame List.filter_sublist
  have hagain := hsub.filter fun e => decide (e.span.start = start)
  unfold startingAt at hagain ⊢
  rw [List.filter_filter] at hagain
  simp only [Bool.and_self] at hagain
  exact (hagain.eq_of_length (edits.inOrder_perm.filter _).length_eq.symm).symm

theorem mem_lasting_inOrder {edits : Edits} {e : Edit} :
    e ∈ lasting edits.inOrder ↔ e ∈ lasting edits.accepted := by
  rw [mem_lasting_iff, startingAt_inOrder, ← mem_lasting_iff]

/-! ### Applying in the order of the starts -/

/-- The gaps of a text with what was put in between them. -/
def interleave : List Text → List Text → Text
  | gap :: gaps, replacement :: rest => gap ++ replacement ++ interleave gaps rest
  | gaps, _ => gaps.flatten

/-- What is left of the text from a position on, before each of the edits and after the last. -/
def gaps (text : Text) (cut : List Edit) (start : Int) : List Edit → List Text
  | [] => [untouched text cut start text.length]
  | e :: rest => untouched text cut start e.span.start :: gaps text cut e.span.start rest

/-- The text is copied from the cursor on once the edits before the rest are put in, the last of them
at `start`: of what follows that start, the characters before the cursor are cut unless the rest
sets the cursor back, and so is what the last edits of the rest hold. -/
structure Resumes (text : Text) (cut : List Edit) (start cursor : Int) (rest : List Edit) : Prop where
  start_nonneg : 0 ≤ start
  start_le : start ≤ cursor
  cursor_le : cursor ≤ text.length
  within : ∀ e ∈ rest, e.span.stop ≤ text.length
  sorted : rest.Pairwise fun e f => e.span.start ≤ f.span.start
  disjoint : rest.Pairwise fun e f => e.span.overlaps f.span = false
  ahead : ∀ e ∈ rest, e.span.start = start ∨ cursor ≤ e.span.start
  cut_iff : ∀ i : Nat, start ≤ i →
    ((cut.any fun e => e.span.holds i) = true ↔
      ((i : Int) < cursor ∧ ∀ e ∈ rest, e.span.start ≠ start) ∨
        ((lasting rest).any fun e => e.span.holds i) = true)

theorem holds_iff {s : Span} {i : Nat} : s.holds i = true ↔ s.start ≤ i ∧ (i : Int) < s.stop := by
  rw [Span.holds, Bool.and_eq_true, decide_eq_true_iff, decide_eq_true_iff]

theorem overlaps_eq_false_iff {s t : Span} :
    s.overlaps t = false ↔ s.stop ≤ t.start ∨ t.stop ≤ s.start := by
  rw [Span.overlaps, Bool.not_eq_false', Bool.or_eq_true, decide_eq_true_iff, decide_eq_true_iff]

section Resumes

variable {text : Text} {cut rest : List Edit} {start cursor : Int} {e : Edit}

theorem Resumes.window_eq_untouched (h : Resumes text cut start cursor rest) {stop : Int}
    (hstop : stop ≤ text.length) (hcursor : cursor ≤ stop) (hnext : ∀ e ∈ rest, stop ≤ e.span.start)
    (hne : ∀ e ∈ rest, e.span.start ≠ start) :
    window text cursor stop = untouched text cut start stop := by
  have hcut : ∀ i : Nat, start ≤ i → (i : Int) < stop →
      ((cut.any fun e => e.span.holds i) = true ↔ (i : Int) < cursor) := by
    intro i hi hlt
    have hnone : ¬ ((lasting rest).any fun e => e.span.holds i) = true := by
      intro hany
      obtain ⟨f, hf, hholds⟩ := List.any_eq_true.mp hany
      have hfirst := hnext f ((lasting_sublist rest).subset hf)
      have hstart := (holds_iff.mp hholds).1
      omega
    rw [h.cut_iff i hi, or_iff_left hnone]
    exact and_iff_left hne
  have hstart := h.start_nonneg
  have hle := h.start_le
  have hleft : untouched text cut start cursor = [] := by
    apply untouched_eq_nil hstart hle h.cursor_le
    intro i hi hlt
    exact (hcut i hi (by omega)).mpr hlt
  have hright : untouched text cut cursor stop = window text cursor stop := by
    apply untouched_eq_window (by omega) hcursor hstop
    intro i hi hlt
    apply Bool.eq_false_iff.mpr
    intro hheld
    have hbefore := (hcut i (by omega) hlt).mp hheld
    omega
  rw [← untouched_append hstart hle hcursor hstop, hleft, hright, List.nil_append]

/-- Before the next edit, what is copied is what is left of the text. -/
theorem Resumes.window_head (h : Resumes text cut start cursor (e :: rest)) :
    window text cursor e.span.start = untouched text cut start e.span.start := by
  have hstart := h.start_nonneg
  have hle := h.start_le
  have hcursor := h.cursor_le
  have hwithin := h.within e List.mem_cons_self
  have hspan := e.span.start_le_stop
  by_cases hsame : e.span.start = start
  · -- the cursor stands behind the start of the edit, so nothing is copied
    rw [hsame, untouched_self, window]
    have hlast : clampPosition text.length start ≤ clampPosition text.length cursor := by
      unfold clampPosition
      split <;> split <;> omega
    have hnone : clampPosition text.length start - clampPosition text.length cursor = 0 := by omega
    rw [hnone, List.take_zero]
  · have hafter : ∀ f ∈ e :: rest, e.span.start ≤ f.span.start := by
      intro f hf
      rcases List.mem_cons.mp hf with rfl | hf
      · exact Int.le_refl _
      · exact (List.pairwise_cons.mp h.sorted).1 f hf
    have hnext : cursor ≤ e.span.start := (h.ahead e List.mem_cons_self).resolve_left hsame
    apply h.window_eq_untouched (by omega) hnext hafter
    intro f hf heq
    have hfirst := hafter f hf
    omega

theorem Resumes.step (h : Resumes text cut start cursor (e :: rest)) :
    Resumes text cut e.span.start e.span.stop rest := by
  obtain ⟨hsorted, hsorted'⟩ := List.pairwise_cons.mp h.sorted
  obtain ⟨hdisjoint, hdisjoint'⟩ := List.pairwise_cons.mp h.disjoint
  have hstart := h.start_nonneg
  have hle := h.start_le
  have hahead := h.ahead e List.mem_cons_self
  refine ⟨by omega, e.span.start_le_stop, h.within e List.mem_cons_self,
    fun f hf => h.within f (List.mem_cons_of_mem e hf), hsorted', hdisjoint', ?_, ?_⟩
  · intro f hf
    have hfirst := hsorted f hf
    have hspan := f.span.start_le_stop
    rcases overlaps_eq_false_iff.mp (hdisjoint f hf) with hbehind | hbefore
    · exact Or.inr hbehind
    · exact Or.inl (by omega)
  · intro i hi
    have hpast : ¬ ((i : Int) < cursor ∧ ∀ f ∈ e :: rest, f.span.start ≠ start) := by
      rintro ⟨hlt, hne⟩
      have hother := hne e List.mem_cons_self
      omega
    rw [h.cut_iff i (by omega), or_iff_right hpast]
    by_cases hlater : ∃ f ∈ rest, f.span.start = e.span.start
    · obtain ⟨f, hf, hsame⟩ := hlater
      rw [lasting_cons_of_start hf hsame]
      exact (or_iff_right fun hnone => hnone.2 f hf hsame).symm
    · have hne : ∀ f ∈ rest, f.span.start ≠ e.span.start := fun f hf hsame => hlater ⟨f, hf, hsame⟩
      rw [lasting_cons_of_ne hne, List.any_cons, Bool.or_eq_true, holds_iff, and_iff_right hi,
        and_iff_left hne]

theorem Resumes.applyFrom_eq (h : Resumes text cut start cursor rest) :
    applyFrom text cursor rest = interleave (gaps text cut start rest) (rest.map Edit.replacement) := by
  induction rest generalizing start cursor with
  | nil =>
    have hlast := h.window_eq_untouched (Int.le_refl _) h.cursor_le
      (fun e he => absurd he List.not_mem_nil) fun e he => absurd he List.not_mem_nil
    change window text cursor text.length = [untouched text cut start text.length].flatten
    rw [hlast, List.flatten_singleton]
  | cons e rest ih =>
    rw [applyFrom, ih h.step, h.window_head]
    rfl

theorem Resumes.flatten_gaps (h : Resumes text cut start cursor rest) :
    (gaps text cut start rest).flatten = untouched text cut start text.length := by
  induction rest generalizing start cursor with
  | nil => exact List.flatten_singleton
  | cons e rest ih =>
    have hstart := h.start_nonneg
    have hle := h.start_le
    have hahead := h.ahead e List.mem_cons_self
    have hspan := e.span.start_le_stop
    have hwithin := h.within e List.mem_cons_self
    rw [gaps, List.flatten_cons, ih h.step]
    exact untouched_append hstart (by omega) (by omega) (Int.le_refl _)

end Resumes

theorem length_gaps (text : Text) (cut : List Edit) (start : Int) (es : List Edit) :
    (gaps text cut start es).length = es.length + 1 := by
  induction es generalizing start with
  | nil => rfl
  | cons e rest ih => rw [gaps, List.length_cons, ih, List.length_cons]

/-! ### The result -/

/-- The result of the edits is made of gaps with the replacements in between, each once and in the order
of the starts, where the gaps together are the characters outside of what is cut. -/
def Weaves (edits : Edits) (cut : List Edit) : Prop :=
  ∃ (ordered : List Edit) (parts : List Text), ordered.Perm edits.accepted ∧
    ordered.Pairwise (fun e f => e.span.start ≤ f.span.start) ∧
    parts.length = ordered.length + 1 ∧
    parts.flatten = untouched edits.text cut 0 edits.text.length ∧
    edits.apply = interleave parts (ordered.map Edit.replacement)

theorem Separate.resumes_inOrder {edits : Edits} (h : edits.Separate) :
    Resumes edits.text (lasting edits.accepted) 0 0 edits.inOrder := by
  have hmem : ∀ e ∈ edits.inOrder, e ∈ edits.accepted := fun e he => edits.inOrder_perm.mem_iff.mp he
  refine ⟨Int.le_refl 0, Int.le_refl 0, by omega, fun e he => (h.within e (hmem e he)).2,
    edits.inOrder_pairwise, ?_, fun e he => Or.inr (h.within e (hmem e he)).1, ?_⟩
  · refine (edits.inOrder_perm.pairwise_iff ?_).mpr h.disjoint
    intro e f hef
    rw [Span.overlaps_comm]
    exact hef
  · intro i _
    have hnone : ¬ ((i : Int) < 0 ∧ ∀ e ∈ edits.inOrder, e.span.start ≠ 0) := by omega
    rw [or_iff_right hnone, List.any_eq_true, List.any_eq_true]
    exact exists_congr fun e => and_congr_left' mem_lasting_inOrder.symm

theorem Separate.weaves_lasting {edits : Edits} (h : edits.Separate) :
    edits.Weaves (lasting edits.accepted) := by
  have hresumes := h.resumes_inOrder
  exact ⟨edits.inOrder, gaps edits.text (lasting edits.accepted) 0 edits.inOrder, edits.inOrder_perm,
    edits.inOrder_pairwise, length_gaps _ _ _ _, hresumes.flatten_gaps, hresumes.applyFrom_eq⟩

theorem length_interleave {parts replacements : List Text}
    (h : parts.length = replacements.length + 1) :
    (interleave parts replacements).length = parts.flatten.length + replacements.flatten.length := by
  induction replacements generalizing parts with
  | nil =>
    cases parts <;> simp [interleave]
  | cons r rest ih =>
    cases parts with
    | nil => simp at h
    | cons part parts =>
      have hrest := ih (Nat.succ.inj h)
      simp only [interleave, List.length_append, List.flatten_cons, hrest]
      omega

/-- As many characters are left as the result has beside the replacements. -/
theorem Weaves.length_untouched {edits : Edits} {cut : List Edit} (h : edits.Weaves cut) :
    edits.apply.length = (untouched edits.text cut 0 edits.text.length).length +
      (edits.accepted.map Edit.replacement).flatten.length := by
  obtain ⟨ordered, parts, hperm, _, hlength, hflatten, happly⟩ := h
  have hreplacements := (hperm.map Edit.replacement).flatten.length_eq
  rw [happly, length_interleave (by rw [List.length_map, hlength]), hflatten, hreplacements]

/-- What the edits hold is held by the last of them that start together, unless one of the others has
characters. -/
theorem holds_lasting_iff {es : List Edit} (hnonneg : ∀ e ∈ es, 0 ≤ e.span.start)
    (hdisjoint : es.Pairwise fun e f => e.span.overlaps f.span = false) :
    (∀ i : Nat, (es.any fun e => e.span.holds i) = true →
        ((lasting es).any fun e => e.span.holds i) = true) ↔
      es.Pairwise fun e f => e.span.start = f.span.start → e.span.start = e.span.stop := by
  induction es with
  | nil => exact ⟨fun _ => List.Pairwise.nil, fun _ i h => h⟩
  | cons e rest ih =>
    obtain ⟨hapart, hdisjoint'⟩ := List.pairwise_cons.mp hdisjoint
    have hrest := ih (fun f hf => hnonneg f (List.mem_cons_of_mem e hf)) hdisjoint'
    have hfirst := hnonneg e List.mem_cons_self
    have hspan := e.span.start_le_stop
    have hone : ∀ f ∈ rest, ∀ i : Nat, e.span.holds i = true → ¬ f.span.holds i = true := by
      intro f hf i he hfi
      have hein := holds_iff.mp he
      have hfin := holds_iff.mp hfi
      have hends := overlaps_eq_false_iff.mp (hapart f hf)
      omega
    constructor
    · intro hall
      refine List.Pairwise.cons ?_ (hrest.mp ?_)
      · intro f hf hsame
        apply Classical.byContradiction
        intro hne
        have hheld : e.span.holds e.span.start.toNat = true := holds_iff.mpr (by omega)
        obtain ⟨g, hg, hgheld⟩ := List.any_eq_true.mp
          (hall e.span.start.toNat (List.any_eq_true.mpr ⟨e, List.mem_cons_self, hheld⟩))
        rw [lasting_cons_of_start hf hsame.symm] at hg
        exact hone g ((lasting_sublist rest).subset hg) _ hheld hgheld
      · intro i hi
        obtain ⟨f, hf, hheld⟩ := List.any_eq_true.mp hi
        obtain ⟨g, hg, hgheld⟩ := List.any_eq_true.mp
          (hall i (List.any_eq_true.mpr ⟨f, List.mem_cons_of_mem e hf, hheld⟩))
        refine List.any_eq_true.mpr ⟨g, ?_, hgheld⟩
        unfold lasting at hg
        split at hg
        · exact hg
        · rcases List.mem_cons.mp hg with rfl | hg
          · exact absurd hheld (hone f hf i hgheld)
          · exact hg
    · intro hpair i hi
      obtain ⟨hempty, hpair'⟩ := List.pairwise_cons.mp hpair
      rw [List.any_cons, Bool.or_eq_true] at hi
      rcases hi with hheld | hheld
      · have hne : ∀ f ∈ rest, f.span.start ≠ e.span.start := by
          intro f hf hsame
          have hnone := hempty f hf hsame.symm
          have hin := holds_iff.mp hheld
          omega
        rw [lasting_cons_of_ne hne]
        exact List.any_eq_true.mpr ⟨e, List.mem_cons_self, hheld⟩
      · obtain ⟨f, hf, hfheld⟩ := List.any_eq_true.mp (hrest.mpr hpair' i hheld)
        refine List.any_eq_true.mpr ⟨f, ?_, hfheld⟩
        unfold lasting
        split
        · exact hf
        · exact List.mem_cons_of_mem e hf

/-- If some of the edits leave no more characters than all of them, they hold what all hold. -/
theorem holds_of_length_untouched {text : Text} {cut es : List Edit} (hsub : cut ⊆ es)
    (hwithin : ∀ e ∈ es, e.span.stop ≤ text.length)
    (hlength : (untouched text es 0 text.length).length = (untouched text cut 0 text.length).length)
    {i : Nat} (hi : (es.any fun e => e.span.holds i) = true) :
    (cut.any fun e => e.span.holds i) = true := by
  have hplace : i < text.length := by
    obtain ⟨e, he, hheld⟩ := List.any_eq_true.mp hi
    have hin := holds_iff.mp hheld
    have hlast := hwithin e he
    omega
  have hmore : ∀ c : Char × Nat,
      ((!es.any fun e => e.span.holds c.2) && !cut.any fun e => e.span.holds c.2) =
        !es.any fun e => e.span.holds c.2 := by
    intro c
    cases hcut : cut.any fun e => e.span.holds c.2 with
    | false => exact Bool.and_true _
    | true =>
      obtain ⟨f, hf, hheld⟩ := List.any_eq_true.mp hcut
      rw [List.any_eq_true.mpr ⟨f, hsub hf, hheld⟩]
      rfl
  have hall : window text.zipIdx 0 text.length = text.zipIdx := by
    have hwhole := window_all text.zipIdx
    rwa [List.length_zipIdx] at hwhole
  unfold untouched at hlength
  rw [List.length_map, List.length_map, hall, ← List.filter_congr fun c _ => hmore c,
    ← List.filter_filter, List.length_filter_eq_length_iff] at hlength
  apply Classical.byContradiction
  intro hnone
  have hleft : (text[i], i) ∈ text.zipIdx.filter fun c => !cut.any fun e => e.span.holds c.2 := by
    refine List.mem_filter.mpr ⟨?_, by simpa using hnone⟩
    simp [List.mk_mem_zipIdx_iff_getElem?, hplace]
  have hspared := hlength _ hleft
  rw [hi] at hspared
  cases hspared

/-- With no edit that starts together with an earlier one that has characters, what is cut is what the
edits hold, and only then. -/
theorem Separate.weaves_accepted_iff {edits : Edits} (h : edits.Separate) :
    edits.Weaves edits.accepted ↔
      edits.accepted.Pairwise fun e f => e.span.start = f.span.start → e.span.start = e.span.stop := by
  have hsub : lasting edits.accepted ⊆ edits.accepted := (lasting_sublist edits.accepted).subset
  rw [← holds_lasting_iff (fun e he => (h.within e he).1) h.disjoint]
  constructor
  · intro hweaves i hi
    have hall := hweaves.length_untouched
    have hlasting := h.weaves_lasting.length_untouched
    exact holds_of_length_untouched hsub (fun e he => (h.within e he).2) (by omega) hi
  · intro hheld
    have hsame : untouched edits.text edits.accepted 0 edits.text.length =
        untouched edits.text (lasting edits.accepted) 0 edits.text.length := by
      unfold untouched
      congr 1
      apply List.filter_congr
      intro c _
      congr 1
      apply Bool.eq_iff_iff.mpr
      refine ⟨hheld c.2, ?_⟩
      intro hcut
      obtain ⟨e, he, hin⟩ := List.any_eq_true.mp hcut
      exact List.any_eq_true.mpr ⟨e, hsub he, hin⟩
    unfold Weaves
    rw [hsame]
    exact h.weaves_lasting

/-- Whatever is asked for, the result is the replacements in the order of their starts with the characters
in between that lie outside of the edits, of which the last counts where several start together. So
all that was replaced is gone if and only if nothing is put in at the start of an accepted edit that
has characters. -/
theorem apply_collect (text : Text) (requests : List EditRequest) :
    (collect text requests).text = text ∧
      (collect text requests).Weaves (lasting (collect text requests).accepted) ∧
      ((collect text requests).Weaves (collect text requests).accepted ↔
        (collect text requests).accepted.Pairwise fun e f =>
          e.span.start = f.span.start → e.span.start = e.span.stop) := by
  obtain ⟨htext, hseparate⟩ := separate_collect text requests
  exact ⟨htext, hseparate.weaves_lasting, hseparate.weaves_accepted_iff⟩

/-- A replaced character is back once something is put in where it stood. -/
theorem apply_restores_replaced :
    let edits := collect "abc".toList [.replace 1 2 "B".toList, .replace 1 1 "<".toList]
    edits.apply = "aB<bc".toList ∧ ¬ edits.Weaves edits.accepted := by
  intro edits
  constructor
  · have hsorted : edits.accepted.Pairwise fun e f => decide (e.span.start ≤ f.span.start) = true := by
      decide +kernel
    unfold apply inOrder
    rw [List.mergeSort_of_pairwise hsorted]
    decide +kernel
  · rw [(separate_collect _ _).2.weaves_accepted_iff]
    decide +kernel

end Edits

end CondMarkup
