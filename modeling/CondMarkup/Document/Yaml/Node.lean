import CondMarkup.Document.Yaml.Token

/-!
The nodes of a document: texts, sequences and mappings, each with the tag that it was given, if
any. A reference to an anchor is replaced by the node that the anchor names. A document holds one
node or none; what comes after it, a mark for its end aside, makes the document malformed.
-/

namespace CondMarkup.Yaml

inductive Node where
  | scalar (tag : Option Text) (text : Text) (plain : Bool)
  | sequence (tag : Option Text) (entries : List Node)
  | mapping (tag : Option Text) (entries : List (Node × Node))
  deriving Repr

namespace Node

/-- A node that is left out. -/
def missing (tag : Option Text := none) : Node := .scalar tag [] true

/-- The nodes named so far, the last first. -/
abbrev Anchors := List (Text × Node)

/-- What was read, the nodes named so far, and the tokens that are left. -/
abbrev ReadSoFar (α : Type) := α × Anchors × List Token

/-- The anchor and the tag before a node, in any order. -/
def properties (ts : List Token) : Option Text × Option Text × List Token :=
  match ts with
  | .anchor a :: .tag t :: rest => (some a, some t, rest)
  | .tag t :: .anchor a :: rest => (some a, some t, rest)
  | .anchor a :: rest => (some a, none, rest)
  | .tag t :: rest => (none, some t, rest)
  | _ => (none, none, ts)

/-- Remembers a node under the name of its anchor. -/
def named (anchor : Option Text) (n : Node) (anchors : Anchors) : Anchors :=
  match anchor with
  | some a => (a, n) :: anchors
  | none => anchors

mutual

/-- One node. In a block, collections may be in block form; after a key, a sequence may go without
an indentation of its own. -/
def read (inBlock afterKey : Bool) (anchors : Anchors) (ts : List Token) :
    Nat → Option (ReadSoFar Node)
  | 0 => none
  | fuel + 1 =>
    match ts with
    | .alias name :: rest => do
      let (_, n) ← anchors.find? fun a => a.1 = name
      return (n, anchors, rest)
    | _ =>
      let (anchor, tag, ts) := properties ts
      let done (n : Node) (anchors : Anchors) (rest : List Token) : Option (ReadSoFar Node) :=
        some (n, named anchor n anchors, rest)
      -- While a collection is read, its anchor names an empty one.
      let within := named anchor (.sequence tag []) anchors
      match ts with
      | .scalar text plain :: rest => done (.scalar tag text plain) anchors rest
      | .flow '[' :: rest => do
        let (ns, anchors, rest) ← flowEntries true within rest fuel
        done (.sequence tag ns) anchors rest
      | .flow '\x7b' :: rest => do
        let (es, anchors, rest) ← flowPairs true within rest fuel
        done (.mapping tag es) anchors rest
      | .sequenceStart :: rest =>
        if inBlock then do
          let (ns, anchors, rest) ← blockEntries false within rest fuel
          done (.sequence tag ns) anchors rest
        else none
      | .mappingStart :: rest =>
        if inBlock then do
          let (es, anchors, rest) ← blockPairs within rest fuel
          done (.mapping tag es) anchors rest
        else none
      | .entry :: rest =>
        if afterKey then do
          let (ns, anchors, rest) ← blockEntries true within (.entry :: rest) fuel
          done (.sequence tag ns) anchors rest
        else if anchor.isSome || tag.isSome then done (missing tag) anchors ts
        else none
      | _ => if anchor.isSome || tag.isSome then done (missing tag) anchors ts else none

/-- A node, or nothing if one of the given tokens comes first. -/
def readUnless (marks : List Token) (inBlock afterKey : Bool) (anchors : Anchors)
    (ts : List Token) : Nat → Option (ReadSoFar Node)
  | 0 => none
  | fuel + 1 =>
    if ts.head?.any fun t => marks.contains t then some (missing, anchors, ts)
    else read inBlock afterKey anchors ts fuel

/-- The entries of a sequence in block form. One without an indentation of its own has no mark for
its end. -/
def blockEntries (bare : Bool) (anchors : Anchors) (ts : List Token) :
    Nat → Option (ReadSoFar (List Node))
  | 0 => none
  | fuel + 1 =>
    match ts with
    | .entry :: rest => do
      let marks := if bare then [.entry, .key, .value, .blockEnd] else [.entry, .blockEnd]
      let (n, anchors, rest) ← readUnless marks true false anchors rest fuel
      let (ns, anchors, rest) ← blockEntries bare anchors rest fuel
      return (n :: ns, anchors, rest)
    | .blockEnd :: rest => some ([], anchors, if bare then ts else rest)
    | _ => if bare then some ([], anchors, ts) else none

/-- The value after a key, if there is one. -/
def valueOf (marks : List Token) (inBlock : Bool) (anchors : Anchors) (ts : List Token) :
    Nat → Option (ReadSoFar Node)
  | 0 => none
  | fuel + 1 =>
    match ts with
    | .value :: rest => readUnless marks inBlock inBlock anchors rest fuel
    | _ => some (missing, anchors, ts)

/-- The entries of a mapping in block form. -/
def blockPairs (anchors : Anchors) (ts : List Token) : Nat → Option (ReadSoFar (List (Node × Node)))
  | 0 => none
  | fuel + 1 =>
    let marks : List Token := [.key, .value, .blockEnd]
    let pairAfter (k : Node) (anchors : Anchors) (rest : List Token) :
        Option (ReadSoFar (List (Node × Node))) := do
      let (v, anchors, rest) ← valueOf marks true anchors rest fuel
      let (es, anchors, rest) ← blockPairs anchors rest fuel
      return ((k, v) :: es, anchors, rest)
    match ts with
    | .key :: rest => do
      let (k, anchors, rest) ← readUnless marks true true anchors rest fuel
      pairAfter k anchors rest
    | .value :: _ => pairAfter missing anchors ts
    | .blockEnd :: rest => some ([], anchors, rest)
    | _ => none

/-- The entries of a sequence in brackets, of which one may be a pair. -/
def flowEntries (first : Bool) (anchors : Anchors) (ts : List Token) :
    Nat → Option (ReadSoFar (List Node))
  | 0 => none
  | fuel + 1 =>
    let close : Token := .flow ']'
    let comma : Token := .flow ','
    match ts with
    | .flow ']' :: rest => some ([], anchors, rest)
    | _ => do
      let ts ← if first then some ts else if ts.head? = some comma then some (ts.drop 1) else none
      match ts with
      | .flow ']' :: rest => some ([], anchors, rest)
      | .key :: rest => do
        let (k, anchors, rest) ← readUnless [.value, comma, close] false false anchors rest fuel
        let (v, anchors, rest) ← valueOf [comma, close] false anchors rest fuel
        let (ns, anchors, rest) ← flowEntries false anchors rest fuel
        return (.mapping none [(k, v)] :: ns, anchors, rest)
      | _ => do
        let (n, anchors, rest) ← read false false anchors ts fuel
        let (ns, anchors, rest) ← flowEntries false anchors rest fuel
        return (n :: ns, anchors, rest)

/-- The entries of a mapping in braces. -/
def flowPairs (first : Bool) (anchors : Anchors) (ts : List Token) :
    Nat → Option (ReadSoFar (List (Node × Node)))
  | 0 => none
  | fuel + 1 =>
    let close : Token := .flow '\x7d'
    let comma : Token := .flow ','
    let pairAfter (k : Node) (anchors : Anchors) (rest : List Token) :
        Option (ReadSoFar (List (Node × Node))) := do
      let (v, anchors, rest) ← valueOf [comma, close] false anchors rest fuel
      let (es, anchors, rest) ← flowPairs false anchors rest fuel
      return ((k, v) :: es, anchors, rest)
    match ts with
    | .flow '\x7d' :: rest => some ([], anchors, rest)
    | _ => do
      let ts ← if first then some ts else if ts.head? = some comma then some (ts.drop 1) else none
      match ts with
      | .flow '\x7d' :: rest => some ([], anchors, rest)
      | .key :: rest => do
        let (k, anchors, rest) ← readUnless [.value, comma, close] false false anchors rest fuel
        pairAfter k anchors rest
      | .value :: _ => pairAfter missing anchors ts
      | _ => do
        let (k, anchors, rest) ← read false false anchors ts fuel
        let (es, anchors, rest) ← flowPairs false anchors rest fuel
        return ((k, missing) :: es, anchors, rest)

end

/-- The tokens of lines that say something about a document. -/
def isDirective : Token → Bool
  | .directive _ => true
  | _ => false

/-- The version that the lines before a document name, if there is one. Only one line may name a
version, and the first number of it must be one. -/
def versionOf (preamble : List Token) : Option (Option (Nat × Nat)) :=
  let versions := preamble.filterMap fun t =>
    match t with
    | .directive v => v
    | _ => none
  match versions with
  | [] => some none
  | [v] => if v.1 = 1 then some (some v) else none
  | _ => none

/-- Whether a document may end with the given tokens. In the first version of the format the mark of
its end may be repeated. -/
def mayEnd (version : Option (Nat × Nat)) (rest : List Token) : Bool :=
  rest.all (fun t => t = .documentEnd) && (rest.length ≤ 1 || version = some (1, 1))

/-- The node of a document with the given tokens, with the version that the document names. A
document without tokens has no node. -/
def ofTokens? (ts : List Token) : Option (Option (Nat × Nat) × Option Node) := do
  let fuel := 4 * ts.length + 4
  let preamble := ts.takeWhile isDirective
  let version ← versionOf preamble
  let finish (n : Node) (rest : List Token) : Option (Option (Nat × Nat) × Option Node) :=
    if mayEnd version rest then some (version, some n) else none
  match ts.drop preamble.length with
  | [] => if preamble.isEmpty then some (version, none) else none
  | .documentStart :: rest =>
    if rest.head?.all fun t => isDirective t || t = .documentStart || t = .documentEnd then
      finish missing rest
    else do
      let (n, _, rest) ← read true false [] rest fuel
      finish n rest
  | ts => do
    if !preamble.isEmpty then none
    let (n, _, rest) ← read true false [] ts fuel
    finish n rest

end Node

end CondMarkup.Yaml
