import CondMarkup.Proofs.Parts
import Mathlib.Data.Set.Function

/-!
The two searches among the entries of one body, compared. The check walks backwards from every
`<Else>`, the search for the second branch walks forwards from an `<If>`; both find neighbours in the
list that is left when blank text is taken out, so that each `<Else>` of a body that passes the check
is reached from exactly one `<If>`. Nothing is asked of where the node comes from: it must have the
parts of an element or fragment, and its entries must be nodes with identities of their own.
-/

namespace CondMarkup

open Expansion

/-- The entry `e` immediately follows the entry `n` once blank text is taken out. -/
def Follows (entries : List Node) (n e : Node) : Prop :=
  [n, e] <:+: entries.filter fun c => !c.isBlankText

namespace Node

/-- The shape of an element or fragment: an opening tag, the list of the entries, a closing tag. -/
def HasParts (n : Node) : Prop :=
  n.hasBody = true ∧ ∃ openTag list closeTag, n.children = [openTag, list, closeTag] ∧
    openTag.kind ≠ .syntaxList ∧ list.kind = .syntaxList

/-- The entries of the body have identities, each its own. -/
def DistinctEntries (n : Node) : Prop :=
  (∀ c ∈ n.body, c.id ≠ none) ∧ (n.body.map Node.id).Nodup

/-- The `<Else>` that the forward search from an entry of the body comes to. -/
def reachedElse? (parent ifNode : Node) : Option Node :=
  (Pairing.after ifNode parent.body).bind nextElse?

variable {n : Node}

theorem HasParts.entries_eq_ok (h : n.HasParts) (hall : n.AllowedBody) :
    n.entries = .ok n.body := by
  obtain ⟨hbody, openTag, list, closeTag, hcs, hopen, hlist⟩ := h
  have hb : n.body = list.children := by
    simp [Node.body, Node.bodyList, hbody, hcs, hopen, hlist]
  rw [Node.AllowedBody, hb] at hall
  rw [hb]
  exact (entries_eq_ok_iff_of_parts hcs hlist).mpr ⟨rfl, hall⟩

theorem DistinctEntries.nodup (h : n.DistinctEntries) : n.body.Nodup := List.Nodup.of_map _ h.2

theorem DistinctEntries.same_iff (h : n.DistinctEntries) {c d : Node} (hc : c ∈ n.body)
    (hd : d ∈ n.body) : c.same d = true ↔ c = d := by
  obtain ⟨i, hi⟩ := Option.ne_none_iff_exists'.mp (h.1 c hc)
  obtain ⟨j, hj⟩ := Option.ne_none_iff_exists'.mp (h.1 d hd)
  have hsame : c.same d = true ↔ c.id = d.id := by
    simp [Node.same, hi, hj]
  rw [hsame]
  exact ⟨List.inj_on_of_nodup_map h.2 hc hd, fun heq => by rw [heq]⟩

end Node

/-! ### Neighbours -/

/-- One entry follows another exactly if there is nothing but blank text between them. -/
theorem follows_iff {entries : List Node} {n e : Node} :
    Follows entries n e ↔ n.isBlankText = false ∧ e.isBlankText = false ∧
      ∃ before blanks after, entries = before ++ n :: (blanks ++ e :: after) ∧
        ∀ b ∈ blanks, b.isBlankText = true := by
  constructor
  · rintro ⟨front, back, h⟩
    rw [List.append_assoc, eq_comm, List.filter_eq_append_iff] at h
    obtain ⟨before, rest, hsplit, _, h⟩ := h
    obtain ⟨blanksN, rest', rfl, _, hn, h⟩ := List.filter_eq_cons_iff.mp h
    obtain ⟨blanks, after, rfl, hblanks, he, _⟩ := List.filter_eq_cons_iff.mp h
    rw [Bool.not_eq_true'] at hn he
    refine ⟨hn, he, before ++ blanksN, blanks, after, ?_, fun b hb => ?_⟩
    · rw [hsplit, List.append_assoc]
    · have hblank := hblanks b hb
      rw [Bool.not_eq_true', Bool.not_eq_false] at hblank
      exact hblank
  · rintro ⟨hn, he, before, blanks, after, rfl, hblanks⟩
    have hnone : blanks.filter (fun c => !c.isBlankText) = [] := by
      rw [List.filter_eq_nil_iff]
      intro b hb
      rw [hblanks b hb]
      decide
    refine ⟨before.filter fun c => !c.isBlankText, after.filter fun c => !c.isBlankText, ?_⟩
    rw [List.filter_append, List.filter_cons_of_pos (by rw [hn]; rfl), List.filter_append, hnone,
      List.nil_append, List.filter_cons_of_pos (by rw [he]; rfl), List.append_assoc]
    rfl

theorem Follows.mem {entries : List Node} {n e : Node} (h : Follows entries n e) :
    n ∈ entries ∧ e ∈ entries := by
  obtain ⟨_, _, before, blanks, after, rfl, _⟩ := follows_iff.mp h
  exact ⟨by simp, by simp⟩

/-- Seen forwards: what comes after the first begins with the second. -/
theorem follows_iff_startsWithElse {before following : List Node} {n e : Node}
    (hnodup : (before ++ n :: following).Nodup) (hn : n.isBlankText = false)
    (he : e.isElse = true) :
    Follows (before ++ n :: following) n e ↔ StartsWithElse following e := by
  rw [follows_iff]
  constructor
  · rintro ⟨_, _, before', blanks, after, h, hblanks⟩
    exact ⟨blanks, after, (split_unique hnodup h).2, hblanks, he⟩
  · rintro ⟨blanks, after, rfl, hblanks, _⟩
    exact ⟨hn, isBlankText_eq_false_of_isElementOf he, before, blanks, after, rfl, hblanks⟩

/-- Seen backwards: what comes before the second ends with the first. -/
theorem exists_follows_iff_endsWithIf {before after : List Node} {e : Node}
    (hnodup : (before ++ e :: after).Nodup) (he : e.isElse = true) :
    (∃ i, i.isIf = true ∧ Follows (before ++ e :: after) i e) ↔ EndsWithIf before := by
  constructor
  · rintro ⟨i, hi, h⟩
    obtain ⟨_, _, before', blanks, after', h, hblanks⟩ := follows_iff.mp h
    rw [← List.cons_append, ← List.append_assoc] at h
    exact ⟨before', i, blanks, (split_unique hnodup h).1, hi, hblanks⟩
  · rintro ⟨front, i, blanks, rfl, hi, hblanks⟩
    refine ⟨i, hi, follows_iff.mpr ⟨isBlankText_eq_false_of_isElementOf hi,
      isBlankText_eq_false_of_isElementOf he, front, blanks, after, ?_, hblanks⟩⟩
    rw [List.append_assoc, List.cons_append]

/-- At most one entry is followed by a given one. -/
theorem Follows.left_unique {entries : List Node} {m n e : Node} (hnodup : entries.Nodup)
    (hm : Follows entries m e) (hn : Follows entries n e) : m = n := by
  obtain ⟨front, back, h⟩ := hm
  obtain ⟨front', back', h'⟩ := hn
  have hfiltered := hnodup.filter fun c => !c.isBlankText
  rw [← h] at hfiltered h'
  -- both stand in front of the one place where `e` is
  have hsplit : front ++ [m] ++ e :: back = front' ++ [n] ++ e :: back' := by
    simpa using h'.symm
  have hnodup' : (front ++ [m] ++ e :: back).Nodup := by simpa using hfiltered
  have hfront := (split_unique hnodup' hsplit).1
  exact List.singleton_inj.mp (List.append_inj_right' hfront rfl)

/-! ### The two searches -/

section

variable {n : Node} (hdistinct : n.DistinctEntries)
include hdistinct

theorem check_eq_ok_iff_follows :
    Pairing.check n = .ok () ↔
      ∀ e ∈ n.body, e.isElse = true → ∃ i, i.isIf = true ∧ Follows n.body i e := by
  rw [check_eq_ok_iff, elsesFollowIfs_iff]
  constructor
  · intro h e hmem he
    obtain ⟨before, after, hsplit⟩ := List.append_of_mem hmem
    have hnodup := hdistinct.nodup
    rw [hsplit] at hnodup ⊢
    exact (exists_follows_iff_endsWithIf hnodup he).mpr (h before e after hsplit he)
  · intro h before e after hsplit he
    have hnodup := hdistinct.nodup
    have hexists := h e (by rw [hsplit]; simp) he
    rw [hsplit] at hnodup hexists
    exact (exists_follows_iff_endsWithIf hnodup he).mp hexists

/-- The forward search goes on with what comes after the entry it starts from. -/
theorem after_eq_of_split {i : Node} {before following : List Node}
    (hsplit : n.body = before ++ i :: following) : Pairing.after i n.body = some following := by
  have hmem : ∀ m ∈ before ++ i :: following, m ∈ n.body := fun m hm => hsplit ▸ hm
  have hnodup := hdistinct.nodup
  have hi := hmem i (by simp)
  rw [hsplit] at hnodup ⊢
  apply Pairing.after_append ((hdistinct.same_iff hi hi).mpr rfl)
  intro m hm hsame
  have heq := (hdistinct.same_iff (hmem m (List.mem_append_left _ hm)) hi).mp hsame
  exact (List.nodup_append.mp hnodup).2.2 m hm i List.mem_cons_self heq

theorem reachedElse?_eq_some_iff {i e : Node} (hmem : i ∈ n.body) (hi : i.isIf = true) :
    n.reachedElse? i = some e ↔ e.isElse = true ∧ Follows n.body i e := by
  obtain ⟨before, following, hsplit⟩ := List.append_of_mem hmem
  have hblank := isBlankText_eq_false_of_isElementOf hi
  have hnodup := hdistinct.nodup
  rw [Node.reachedElse?, after_eq_of_split hdistinct hsplit, Option.bind_some,
    nextElse?_eq_some_iff, hsplit]
  rw [hsplit] at hnodup
  constructor
  · intro h
    exact ⟨h.isElse, (follows_iff_startsWithElse hnodup hblank h.isElse).mpr h⟩
  · rintro ⟨he, h⟩
    exact (follows_iff_startsWithElse hnodup hblank he).mp h

/-- The entries of the second branch are those of the `<Else>` that is reached. -/
theorem elseBody_eq_ok (hparts : n.HasParts) (hallowed : n.AllowedBody)
    (helses : ∀ e ∈ n.body, e.isElse = true → e.HasParts ∧ e.AllowedBody) {i : Node}
    (hmem : i ∈ n.body) :
    Pairing.elseBody n i = .ok (((n.reachedElse? i).map Node.body).getD []) := by
  obtain ⟨before, following, hsplit⟩ := List.append_of_mem hmem
  have hafter := after_eq_of_split hdistinct hsplit
  have hsearch : Pairing.elseBody n i = Pairing.leadingElse following := by
    rw [Pairing.elseBody, hparts.entries_eq_ok hallowed]
    simp only [bind, Except.bind, hafter]
  rw [hsearch, leadingElse_eq_nextElse?, Node.reachedElse?, hafter, Option.bind_some]
  cases h : nextElse? following with
  | none => rfl
  | some e =>
    have he := nextElse?_eq_some_iff.mp h
    have hmemE : e ∈ n.body := by
      rw [hsplit]
      exact List.mem_append_right _ (List.mem_cons_of_mem i he.mem)
    obtain ⟨hpartsE, hallowedE⟩ := helses e hmemE he.isElse
    exact hpartsE.entries_eq_ok hallowedE

/-- In a body that passes the check, each `<Else>` is reached from one `<If>`, and each `<If>` that
reaches any reaches another. -/
theorem bijOn_reachedElse? (hcheck : Pairing.check n = .ok ()) :
    Set.BijOn n.reachedElse? {i | i ∈ n.body ∧ i.isIf = true ∧ n.reachedElse? i ≠ none}
      (some '' {e | e ∈ n.body ∧ e.isElse = true}) := by
  refine ⟨?_, ?_, ?_⟩
  · rintro i ⟨hmem, hi, hsome⟩
    obtain ⟨e, he⟩ := Option.ne_none_iff_exists'.mp hsome
    obtain ⟨helse, hfollows⟩ := (reachedElse?_eq_some_iff hdistinct hmem hi).mp he
    exact ⟨e, ⟨hfollows.mem.2, helse⟩, he.symm⟩
  · rintro i ⟨hmem, hi, hsome⟩ j ⟨hmemJ, hj, _⟩ heq
    obtain ⟨e, he⟩ := Option.ne_none_iff_exists'.mp hsome
    have hfollows := ((reachedElse?_eq_some_iff hdistinct hmem hi).mp he).2
    have hfollowsJ := ((reachedElse?_eq_some_iff hdistinct hmemJ hj).mp (heq ▸ he)).2
    exact hfollows.left_unique hdistinct.nodup hfollowsJ
  · rintro _ ⟨e, ⟨hmem, helse⟩, rfl⟩
    obtain ⟨i, hi, hfollows⟩ := (check_eq_ok_iff_follows hdistinct).mp hcheck e hmem helse
    have hreached := (reachedElse?_eq_some_iff hdistinct hfollows.mem.1 hi).mpr ⟨helse, hfollows⟩
    exact ⟨i, ⟨hfollows.mem.1, hi, by rw [hreached]; simp⟩, hreached⟩

/-- The backward check and the forward search agree. The check passes exactly if every `<Else>`
immediately follows an `<If>`, blank text taken out; the search from an `<If>` comes to an `<Else>`
exactly if this one immediately follows it, and gives its entries, or none if it comes to no `<Else>`;
and in a body that passes the check the search pairs the `<If>`s that have an `<Else>` with all of the
`<Else>`s. -/
theorem searches_agree (hparts : n.HasParts) (hallowed : n.AllowedBody)
    (helses : ∀ e ∈ n.body, e.isElse = true → e.HasParts ∧ e.AllowedBody) :
    (Pairing.check n = .ok () ↔
      ∀ e ∈ n.body, e.isElse = true → ∃ i, i.isIf = true ∧ Follows n.body i e) ∧
    (∀ i ∈ n.body, i.isIf = true →
      (∀ e, n.reachedElse? i = some e ↔ e.isElse = true ∧ Follows n.body i e) ∧
      Pairing.elseBody n i = .ok (((n.reachedElse? i).map Node.body).getD [])) ∧
    (Pairing.check n = .ok () →
      Set.BijOn n.reachedElse? {i | i ∈ n.body ∧ i.isIf = true ∧ n.reachedElse? i ≠ none}
        (some '' {e | e ∈ n.body ∧ e.isElse = true})) := by
  refine ⟨check_eq_ok_iff_follows hdistinct, fun i hmem hi => ⟨fun e => ?_, ?_⟩, ?_⟩
  · exact reachedElse?_eq_some_iff hdistinct hmem hi
  · exact elseBody_eq_ok hdistinct hparts hallowed helses hmem
  · exact bijOn_reachedElse? hdistinct

end

/-- Of the elements and fragments of a parsed file all that is asked holds but the kinds of the
entries. -/
theorem SourceTree.hasParts_and_distinctEntries {links : Links} {root p : Node}
    (tree : SourceTree links root) (hp : p ∈ root.preorder) (hbody : p.hasBody = true) :
    p.HasParts ∧ p.DistinctEntries := by
  obtain ⟨openTag, list, closeTag, hcs, hlist, _, hopen, _⟩ := tree.exists_list hp hbody
  refine ⟨⟨hbody, openTag, list, closeTag, hcs, hopen, hlist⟩, fun c hc => ?_, ?_⟩
  · obtain ⟨i, hi, _⟩ := tree.found c (tree.mem_of_mem_body hp hc)
    rw [hi]
    simp
  · refine (tree.nodup_body hp).map_on fun c hc d hd heq => ?_
    exact tree.eq_of_id_eq (tree.mem_of_mem_body hp hc) (tree.mem_of_mem_body hp hd) heq

/-! ### A small body -/

namespace SmallBody

def element (id : NodeId) (tag : String) (entries : List Node) : Node :=
  .mk (some id) none none { kind := .jsxElement }
    [.fresh { kind := .jsxOpeningElement } [.fresh { kind := .identifier, value := some tag } []],
      .fresh { kind := .syntaxList } entries, .fresh { kind := .jsxClosingElement } []]

def jsxText (id : NodeId) (value : String) : Node :=
  .mk (some id) none none { kind := .jsxText, value := some value } []

/-- A fragment that holds an `<If>`, blank text, its `<Else>`, and an `<If>` without one. -/
def fragment : Node :=
  .mk (some 0) none none { kind := .jsxFragment }
    [.fresh { kind := .jsxOpeningFragment } [],
      .fresh { kind := .syntaxList }
        [element 1 "If" [], jsxText 2 " ", element 3 "Else" [jsxText 4 "b"], element 5 "If" []],
      .fresh { kind := .jsxClosingFragment } []]

theorem body_fragment : fragment.body =
    [element 1 "If" [], jsxText 2 " ", element 3 "Else" [jsxText 4 "b"], element 5 "If" []] := rfl

theorem hasParts : fragment.HasParts := ⟨rfl, _, _, _, rfl, by decide, by decide⟩

theorem distinctEntries : fragment.DistinctEntries := by
  unfold Node.DistinctEntries
  decide +kernel

theorem allowedBody : fragment.AllowedBody := by
  unfold Node.AllowedBody
  decide

theorem elses : ∀ e ∈ fragment.body, e.isElse = true → e.HasParts ∧ e.AllowedBody := by
  intro e hmem helse
  rw [body_fragment] at hmem
  simp only [List.mem_cons, List.not_mem_nil, or_false] at hmem
  rcases hmem with rfl | rfl | rfl | rfl
  · exact absurd helse (by decide)
  · exact absurd helse (by decide)
  · refine ⟨⟨rfl, _, _, _, rfl, by decide, by decide⟩, ?_⟩
    unfold Node.AllowedBody
    decide
  · exact absurd helse (by decide)

end SmallBody

/-- The body passes the check, and its one `<Else>` is paired with the first `<If>`. -/
theorem searches_agree_smallBody :
    SmallBody.fragment.DistinctEntries ∧ SmallBody.fragment.HasParts ∧
      SmallBody.fragment.AllowedBody ∧
      (∀ e ∈ SmallBody.fragment.body, e.isElse = true → e.HasParts ∧ e.AllowedBody) ∧
      Pairing.check SmallBody.fragment = .ok () ∧
      Set.BijOn SmallBody.fragment.reachedElse?
        {i | i ∈ SmallBody.fragment.body ∧ i.isIf = true ∧
          SmallBody.fragment.reachedElse? i ≠ none}
        (some '' {e | e ∈ SmallBody.fragment.body ∧ e.isElse = true}) := by
  have hagree := searches_agree SmallBody.distinctEntries SmallBody.hasParts
    SmallBody.allowedBody SmallBody.elses
  have hcheck : Pairing.check SmallBody.fragment = .ok () := by decide +kernel
  exact ⟨SmallBody.distinctEntries, SmallBody.hasParts, SmallBody.allowedBody, SmallBody.elses,
    hcheck, hagree.2.2 hcheck⟩

end CondMarkup
