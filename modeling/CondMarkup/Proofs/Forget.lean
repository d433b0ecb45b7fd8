import CondMarkup.Expansion.Pairing
import CondMarkup.Proofs.Tree

/-!
Nodes without the identities that were given late. On a store a made node has an identity, which it
has not off the store. `forget known` leaves out all identities from `known` on, and nothing that is
asked of a node alone depends on them: not its tag, not its body, nor whether its `<Else>`s follow
`<If>`s.
-/

namespace CondMarkup

namespace Node

mutual

/-- The node without the identities from `known` on. -/
def forget (known : NodeId) : Node → Node
  | mk id parent none info children =>
    mk (id.filter fun i => i < known) parent none info (forgetAll known children)
  | mk id parent (some origin) info children =>
    mk (id.filter fun i => i < known) parent (some (origin.forget known)) info
      (forgetAll known children)

def forgetAll (known : NodeId) : List Node → List Node
  | [] => []
  | c :: rest => c.forget known :: forgetAll known rest

end

variable {known : NodeId}

theorem forgetAll_eq (cs : List Node) : forgetAll known cs = cs.map (forget known) := by
  induction cs with
  | nil => rfl
  | cons c rest ih => rw [forgetAll, ih, List.map_cons]

theorem forget_mk (id parent : Option NodeId) (origin : Option Node) (info : NodeInfo)
    (children : List Node) : (mk id parent origin info children).forget known =
      mk (id.filter fun i => i < known) parent (origin.map (forget known)) info
        (children.map (forget known)) := by
  cases origin <;> rw [forget, forgetAll_eq] <;> rfl

theorem forget_eq (n : Node) : n.forget known =
    mk (n.id.filter fun i => i < known) n.parent (n.origin.map (forget known)) n.info
      (n.children.map (forget known)) := by
  cases n
  exact forget_mk _ _ _ _ _

@[simp] theorem info_forget (n : Node) : (n.forget known).info = n.info := by
  rw [forget_eq]
  rfl

@[simp] theorem children_forget (n : Node) :
    (n.forget known).children = n.children.map (forget known) := by
  rw [forget_eq]
  rfl

/-- Nothing is left out of a tree of known nodes. -/
theorem forget_of_known {n : Node}
    (h : ∀ m ∈ n.preorder, (∃ i < known, m.id = some i) ∧ m.origin = none) : n.forget known = n := by
  induction n using treeInduction with
  | step n ih =>
    obtain ⟨⟨i, hi, hid⟩, horigin⟩ := h n (self_mem_preorder n)
    have hchildren : n.children.map (forget known) = n.children := by
      refine (List.map_congr_left fun c hc => ih c hc fun m hm => h m ?_).trans (List.map_id' _)
      exact mem_preorder_trans hm (mem_preorder_of_mem_children hc)
    rw [forget_eq, hchildren, hid, horigin, Option.filter_some, if_pos (decide_eq_true hi),
      Option.map_none]
    cases n with
    | mk id parent origin info children =>
      obtain rfl : id = some i := hid
      obtain rfl : origin = none := horigin
      rfl

/-! ### What does not depend on identities -/

variable (n : Node)

@[simp] theorem kind_forget : (n.forget known).kind = n.kind := by rw [kind, info_forget, kind]

@[simp] theorem value_forget : (n.forget known).value = n.value := by rw [value, info_forget, value]

@[simp] theorem hasBody_forget : (n.forget known).hasBody = n.hasBody := by
  rw [hasBody, kind_forget, hasBody]

@[simp] theorem moduleSpecifier_forget : (n.forget known).moduleSpecifier = n.moduleSpecifier := by
  rw [moduleSpecifier, kind_forget, value_forget, moduleSpecifier]

theorem find?_kind_forget (cs : List Node) (k : Kind) :
    (cs.map (forget known)).find? (fun c => c.kind = k) =
      (cs.find? fun c => c.kind = k).map (forget known) := by
  rw [List.find?_map]
  congr 2
  funext c
  simp

@[simp] theorem body_forget : (n.forget known).body = n.body.map (forget known) := by
  rw [body, bodyList, hasBody_forget, children_forget, find?_kind_forget, body, bodyList]
  split
  · cases n.children.find? fun c => c.kind = .syntaxList with
    | none => rfl
    | some list => simp
  · rfl

@[simp] theorem opening_forget : (n.forget known).opening = n.opening.map (forget known) := by
  rw [opening, opening, hasBody_forget, kind_forget, children_forget]
  by_cases h : n.hasBody = true ∧ n.children ≠ []
  · rw [if_pos h, if_pos ⟨h.1, by simpa using h.2⟩, List.head?_map]
  · rw [if_neg h, if_neg (by simpa using h)]
    split <;> rfl

@[simp] theorem tagName_forget : (n.forget known).tagName = n.tagName := by
  rw [tagName, tagName, opening_forget]
  cases n.opening with
  | none => rfl
  | some tag =>
    simp only [Option.map_some, Option.bind_eq_bind, Option.bind_some, kind_forget, children_forget,
      List.head?_map]
    cases tag.children.head? <;> simp

@[simp] theorem isIf_forget : (n.forget known).isIf = n.isIf := by
  rw [isIf, isElementOf, kind_forget, tagName_forget, isIf, isElementOf]

@[simp] theorem isElse_forget : (n.forget known).isElse = n.isElse := by
  rw [isElse, isElementOf, kind_forget, tagName_forget, isElse, isElementOf]

@[simp] theorem isBlankText_forget : (n.forget known).isBlankText = n.isBlankText := by
  rw [isBlankText, kind_forget, value_forget, isBlankText]

end Node

theorem elsesFollowIfs_map_forget {known : Nat} (entries : List Node) :
    ∀ before : Option Node, Pairing.elsesFollowIfs (before.map (Node.forget known))
      (entries.map (Node.forget known)) = Pairing.elsesFollowIfs before entries := by
  induction entries with
  | nil =>
    intro before
    rfl
  | cons n rest ih =>
    intro before
    have hbefore : (before.map (Node.forget known)).any Node.isIf = before.any Node.isIf := by
      cases before <;> simp
    have hnext :
        (if (n.forget known).isBlankText = true then before.map (Node.forget known)
          else some (n.forget known)) =
        (if n.isBlankText = true then before else some n).map (Node.forget known) := by
      rw [Node.isBlankText_forget]
      split <;> rfl
    rw [List.map_cons, Pairing.elsesFollowIfs, Pairing.elsesFollowIfs, hnext, ih, hbefore,
      Node.isElse_forget]

@[simp] theorem check_forget {known : Nat} (n : Node) :
    Pairing.check (n.forget known) = Pairing.check n := by
  rw [Pairing.check_eq, Node.body_forget, Pairing.check_eq]
  rw [show (none : Option Node) = (none : Option Node).map (Node.forget known) from rfl,
    elsesFollowIfs_map_forget]
  rfl

end CondMarkup
