import CondMarkup.Text.Edits

/-!
Texts in which stretches are replaced. A splice says by positions of the whole text what is replaced by
what, so splices of neighbouring stretches are joined by joining the lists. Edits count from the start
of the stretch that they are collected for; stretches that lie in order never overlap, and collecting
them one after the other puts each in its place.
-/

namespace CondMarkup

/-! ### Stretches in order -/

/-- The stretches lie between two positions, one after the other. -/
def InOrder (start stop : Int) : List (Int × Int) → Prop
  | [] => start ≤ stop
  | (a, b) :: rest => start ≤ a ∧ a ≤ b ∧ InOrder b stop rest

/-- The stretches fill the space between two positions. -/
def Tiled (start stop : Int) : List (Int × Int) → Prop
  | [] => start = stop
  | (a, b) :: rest => start = a ∧ a ≤ b ∧ Tiled b stop rest

section Order

variable {start stop : Int} {spans : List (Int × Int)}

theorem InOrder.le (h : InOrder start stop spans) : start ≤ stop := by
  induction spans generalizing start with
  | nil => exact h
  | cons p rest ih =>
    obtain ⟨ha, hab, hrest⟩ := h
    have hb := ih hrest
    omega

theorem InOrder.widen {first last : Int} (h : InOrder start stop spans) (hfirst : first ≤ start)
    (hlast : stop ≤ last) : InOrder first last spans := by
  induction spans generalizing first start with
  | nil => exact Int.le_trans hfirst (Int.le_trans h hlast)
  | cons p rest ih =>
    obtain ⟨ha, hab, hrest⟩ := h
    exact ⟨Int.le_trans hfirst ha, hab, ih hrest (Int.le_refl p.2)⟩

theorem InOrder.append {last : Int} {others : List (Int × Int)} (h : InOrder start stop spans)
    (hothers : InOrder stop last others) : InOrder start last (spans ++ others) := by
  induction spans generalizing start with
  | nil => exact hothers.widen h (Int.le_refl last)
  | cons p rest ih =>
    obtain ⟨ha, hab, hrest⟩ := h
    exact ⟨ha, hab, ih hrest⟩

theorem InOrder.of_append {others : List (Int × Int)} (h : InOrder start stop (spans ++ others)) :
    ∃ middle, InOrder start middle spans ∧ InOrder middle stop others := by
  induction spans generalizing start with
  | nil => exact ⟨start, Int.le_refl start, h⟩
  | cons p rest ih =>
    obtain ⟨ha, hab, hrest⟩ := h
    obtain ⟨middle, hleft, hright⟩ := ih hrest
    exact ⟨middle, ⟨ha, hab, hleft⟩, hright⟩

theorem InOrder.sublist {others : List (Int × Int)} (h : InOrder start stop spans)
    (hsub : others.Sublist spans) : InOrder start stop others := by
  induction hsub generalizing start with
  | slnil => exact h
  | cons p _ ih =>
    obtain ⟨ha, hab, hrest⟩ := h
    exact ih (hrest.widen (Int.le_trans ha hab) (Int.le_refl stop))
  | cons_cons p _ ih =>
    obtain ⟨ha, hab, hrest⟩ := h
    exact ⟨ha, hab, ih hrest⟩

/-- Positions may be counted in another way, as long as their order stays. -/
theorem InOrder.map {f : Int → Int} (h : InOrder start stop spans)
    (hf : ∀ a b, a ≤ b → f a ≤ f b) : InOrder (f start) (f stop) (spans.map (Prod.map f f)) := by
  induction spans generalizing start with
  | nil => exact hf start stop h
  | cons p rest ih =>
    obtain ⟨ha, hab, hrest⟩ := h
    exact ⟨hf start p.1 ha, hf p.1 p.2 hab, ih hrest⟩

theorem InOrder.of_mem {p : Int × Int} (h : InOrder start stop spans) (hp : p ∈ spans) :
    start ≤ p.1 ∧ p.1 ≤ p.2 ∧ p.2 ≤ stop := by
  have hone := h.sublist (List.singleton_sublist.mpr hp)
  exact hone

/-- The bounds may be those of the first and the last stretch. -/
theorem InOrder.tighten {p q : Int × Int} (h : InOrder start stop spans)
    (hp : spans.head? = some p) (hq : spans.getLast? = some q) : InOrder p.1 q.2 spans := by
  induction spans generalizing start p with
  | nil => simp at hp
  | cons r rest ih =>
    rw [List.head?_cons, Option.some.injEq] at hp
    subst hp
    obtain ⟨_, hspan, hrest⟩ := h
    refine ⟨Int.le_refl r.1, hspan, ?_⟩
    cases rest with
    | nil =>
      rw [List.getLast?_singleton, Option.some.injEq] at hq
      rw [← hq]
      exact Int.le_refl r.2
    | cons next others =>
      rw [List.getLast?_cons_cons] at hq
      have htight := ih hrest rfl hq
      exact htight.widen hrest.1 (Int.le_refl q.2)

/-- The bounds may be any that hold of every stretch. -/
theorem InOrder.within {first last : Int} (h : InOrder start stop spans) (hle : first ≤ last)
    (hall : ∀ p ∈ spans, first ≤ p.1 ∧ p.2 ≤ last) : InOrder first last spans := by
  induction spans generalizing first start with
  | nil => exact hle
  | cons p rest ih =>
    obtain ⟨_, hab, hrest⟩ := h
    obtain ⟨hfirst, hlast⟩ := hall p List.mem_cons_self
    refine ⟨hfirst, hab, ih hrest hlast fun q hq => ?_⟩
    exact ⟨(hrest.of_mem hq).1, (hall q (List.mem_cons_of_mem p hq)).2⟩

theorem InOrder.pairwise (h : InOrder start stop spans) :
    spans.Pairwise fun p q => p.2 ≤ q.1 := by
  induction spans generalizing start with
  | nil => exact List.Pairwise.nil
  | cons p rest ih =>
    obtain ⟨_, _, hrest⟩ := h
    exact List.Pairwise.cons (fun q hq => (hrest.of_mem hq).1) (ih hrest)

theorem Tiled.inOrder (h : Tiled start stop spans) : InOrder start stop spans := by
  induction spans generalizing start with
  | nil => exact Int.le_of_eq h
  | cons p rest ih =>
    obtain ⟨ha, hab, hrest⟩ := h
    exact ⟨Int.le_of_eq ha, hab, ih hrest⟩

theorem Tiled.append {last : Int} {others : List (Int × Int)} (h : Tiled start stop spans)
    (hothers : Tiled stop last others) : Tiled start last (spans ++ others) := by
  induction spans generalizing start with
  | nil =>
    have heq : start = stop := h
    rw [heq]
    exact hothers
  | cons p rest ih =>
    obtain ⟨ha, hab, hrest⟩ := h
    exact ⟨ha, hab, ih hrest⟩

end Order

/-! ### Stretches of a text -/

section Windows

variable {α : Type} {text : List α} {a b c : Int}

/-- Within the text and in order, the stretch is the plain one. -/
theorem window_eq_take (ha : 0 ≤ a) (hab : a ≤ b) (hb : b ≤ text.length) :
    window text a b = (text.drop a.toNat).take (b.toNat - a.toNat) := by
  have h := window_of_le text (a := a.toNat) (b := b.toNat) (by omega) (by omega)
  rwa [Int.toNat_of_nonneg ha, Int.toNat_of_nonneg (Int.le_trans ha hab)] at h

@[simp] theorem window_self : window text a a = [] := by
  simp [window]

theorem window_append (ha : 0 ≤ a) (hab : a ≤ b) (hbc : b ≤ c) (hc : c ≤ text.length) :
    window text a b ++ window text b c = window text a c := by
  have hsplit : c.toNat - a.toNat = (b.toNat - a.toNat) + (c.toNat - b.toNat) := by omega
  have hdrop : a.toNat + (b.toNat - a.toNat) = b.toNat := by omega
  rw [window_eq_take ha hab (Int.le_trans hbc hc), window_eq_take (Int.le_trans ha hab) hbc hc,
    window_eq_take ha (Int.le_trans hab hbc) hc, hsplit, List.take_add, List.drop_drop, hdrop]

/-- Stretches that fill a longer one come to the longer one when they are put together. -/
theorem Tiled.flatMap_window {spans : List (Int × Int)} (h : Tiled a b spans) (ha : 0 ≤ a)
    (hb : b ≤ text.length) : (spans.flatMap fun p => window text p.1 p.2) = window text a b := by
  induction spans generalizing a with
  | nil =>
    have heq : a = b := h
    rw [heq, window_self]
    rfl
  | cons p rest ih =>
    obtain ⟨rfl, hspan, hrest⟩ := h
    have hforward := hrest.inOrder.le
    rw [List.flatMap_cons, ih hrest (Int.le_trans ha hspan), window_append ha hspan hforward hb]

theorem length_window (ha : 0 ≤ a) (hab : a ≤ b) (hb : b ≤ text.length) :
    ((window text a b).length : Int) = b - a := by
  rw [window_eq_take ha hab hb, List.length_take, List.length_drop]
  omega

/-- A stretch of a stretch. -/
theorem window_window {first last : Int} (hfirst : 0 ≤ first) (ha : first ≤ a) (hab : a ≤ b)
    (hb : b ≤ last) (hlast : last ≤ text.length) :
    window (window text first last) (a - first) (b - first) = window text a b := by
  have hall : first ≤ last := Int.le_trans ha (Int.le_trans hab hb)
  have hlength := length_window hfirst hall hlast
  have hstart : (a - first).toNat = a.toNat - first.toNat := by omega
  have hsize : (b - first).toNat - (a - first).toNat = b.toNat - a.toNat := by omega
  have hmin : min (b.toNat - a.toNat) (last.toNat - first.toNat - (a - first).toNat) =
      b.toNat - a.toNat := by omega
  have hdrop : first.toNat + (a - first).toNat = a.toNat := by omega
  rw [window_eq_take (by omega) (by omega) (by omega), hsize, window_eq_take hfirst hall hlast,
    List.drop_take, List.take_take, hmin, List.drop_drop, hdrop,
    window_eq_take (Int.le_trans hfirst ha) hab (Int.le_trans hb hlast)]

end Windows

/-! ### Splices -/

/-- A stretch of a text and what takes its place. -/
structure Patch where
  start : Int
  stop : Int
  replacement : Text

def Patch.span (p : Patch) : Int × Int := (p.start, p.stop)

/-- The stretch of a text from `start` to `stop` in which the stretches of the patches are replaced;
the rest is copied. -/
def splice (text : Text) (start stop : Int) : List Patch → Text
  | [] => window text start stop
  | p :: rest => window text start p.start ++ p.replacement ++ splice text p.stop stop rest

section Splice

variable {text : Text} {a b c : Int} {ps qs : List Patch}

/-- Splices of neighbouring stretches are joined. -/
theorem splice_append (ha : 0 ≤ a) (hps : InOrder a b (ps.map Patch.span))
    (hqs : InOrder b c (qs.map Patch.span)) (hc : c ≤ text.length) :
    splice text a c (ps ++ qs) = splice text a b ps ++ splice text b c qs := by
  induction ps generalizing a with
  | nil =>
    have hab : a ≤ b := hps
    cases qs with
    | nil => exact (window_append ha hab hqs hc).symm
    | cons q rest =>
      obtain ⟨hb, hq, hrest⟩ := hqs
      have hlast := hrest.le
      have hq' : q.start ≤ q.stop := hq
      have hjoin : window text a b ++ window text b q.start = window text a q.start :=
        window_append ha hab hb (Int.le_trans hq' (Int.le_trans hlast hc))
      rw [List.nil_append, splice, splice, splice, ← List.append_assoc, ← List.append_assoc, hjoin]
  | cons p rest ih =>
    obtain ⟨hp, hspan, hrest⟩ := hps
    have h := ih (Int.le_trans ha (Int.le_trans hp hspan)) hrest
    rw [List.cons_append, splice, splice, h, List.append_assoc, List.append_assoc,
      List.append_assoc]

/-- A splice begins with what stands before the first stretch that is replaced. -/
theorem splice_eq_window_append (ha : 0 ≤ a) (hab : a ≤ b)
    (hps : InOrder b c (ps.map Patch.span)) (hc : c ≤ text.length) :
    splice text a c ps = window text a b ++ splice text b c ps := by
  have hnone : InOrder a b (([] : List Patch).map Patch.span) := hab
  exact splice_append ha hnone hps hc

theorem splice_whole (replacement : Text) : splice text a b [⟨a, b, replacement⟩] = replacement := by
  rw [splice, splice, window_self, window_self, List.nil_append, List.append_nil]

end Splice

/-! ### Edits in order -/

namespace Edits

/-- The stretches that are replaced. -/
def spans (es : List Edit) : List (Int × Int) := es.map fun e => (e.span.start, e.span.stop)

variable {edits : Edits} {last : Int}

/-- A stretch after all that were collected is never refused. -/
theorem exists_replace {start stop : Int} (h : InOrder 0 last (spans edits.accepted))
    (hstart : last ≤ start) (hle : start ≤ stop) (hstop : stop ≤ edits.text.length)
    (replacement : Text) :
    ∃ e : Edit, e.span.start = start ∧ e.span.stop = stop ∧ e.replacement = replacement ∧
      edits.replace start stop replacement =
        .ok { edits with accepted := edits.accepted ++ [e] } := by
  refine ⟨⟨⟨start, stop, hle⟩, replacement⟩, rfl, rfl, rfl, ?_⟩
  have hlast := h.le
  have hinside : ¬ (start < 0 ∨ edits.text.length < stop) := by omega
  have hfree : edits.accepted.find? (fun e => (⟨start, stop, hle⟩ : Span).overlaps e.span) =
      none := by
    rw [List.find?_eq_none]
    intro e he
    have hmem : (e.span.start, e.span.stop) ∈ spans edits.accepted :=
      List.mem_map.mpr ⟨e, he, rfl⟩
    have hbefore : e.span.stop ≤ start := Int.le_trans (h.of_mem hmem).2.2 hstart
    simp [Span.overlaps, hbefore]
  rw [replace, Span.ofPositions, dif_pos hle]
  show (if start < 0 ∨ edits.text.length < stop then _ else _) = _
  rw [if_neg hinside]
  dsimp only [bind, Except.bind, pure, Except.pure]
  rw [hfree]

/-- Edits that were collected in order are applied in that order. -/
theorem apply_of_inOrder (h : InOrder 0 last (spans edits.accepted)) :
    edits.apply = applyFrom edits.text 0 edits.accepted := by
  have hsorted : edits.accepted.Pairwise fun a b => decide (a.span.start ≤ b.span.start) = true := by
    have hpairs := h.pairwise
    rw [spans, List.pairwise_map] at hpairs
    refine hpairs.imp fun {a b} hab => ?_
    have hle := a.span.start_le_stop
    exact decide_eq_true (Int.le_trans hle hab)
  rw [apply, inOrder, List.mergeSort_of_pairwise hsorted]

end Edits

end CondMarkup
