import CondMarkup.Code.Token

/-!
Import statements in a list of tokens, and with them the grammar nodes that a list of tokens comes
to. An import of a module reaches from its keyword to its semicolon. Where the semicolon is left
out, or something stands before it that makes the statement end early, the import ends with its
last token.
-/

namespace CondMarkup.Imports

/-- The string that names the module, in the tokens that follow the keyword, and the tokens after
the string. Between the two stands nothing, or names that end in the word `from`. -/
def moduleName? (from? : Bool) : List Token → Option (Token × List Token)
  | [] => none
  | t :: rest =>
    match t.kind with
    | .comment _ => moduleName? from? rest
    | .string => if from? then some (t, rest) else none
    | .word w => moduleName? (w = "from") rest
    | .group '\x7b' => moduleName? false rest
    | .mark m => if m = "," ∨ m = "*" then moduleName? false rest else none
    | _ => none

/-- The last token of the attributes of an import, or the given token if there are none, with the
tokens that follow. -/
def attributesEnd (last : Token) (rest : List Token) : Token × List Token :=
  match rest.dropWhile Token.isComment with
  | w :: after =>
    match after.dropWhile Token.isComment with
    | g :: after =>
      if (w.isWord "with" || w.isWord "assert") && g.isGroup '\x7b' then (g, after)
      else (last, rest)
    | [] => (last, rest)
  | [] => (last, rest)

/-- Whether a statement ends after its last token, without the semicolon that may follow. It does
if what follows on the line is a comment that reaches to another line, or if the next token is no
semicolon; a semicolon on a later line belongs to the statement. `afterLine` says that a comment up
to the end of the line comes before. -/
def endsWithoutMark (afterLine : Bool) : List Token → Bool
  | [] => true
  | t :: rest =>
    if t.freshLine && !afterLine then
      !((t :: rest).dropWhile Token.isComment).head?.any fun t => t.isMark ";"
    else match t.kind with
      | .comment .toLineEnd => endsWithoutMark true rest
      | .comment .withinLine => endsWithoutMark false rest
      | .comment .overLines => true
      | .mark ";" => afterLine
      | _ => true

/-- The byte where a statement ends whose last token before the semicolon is given. -/
def stop (last : Token) (rest : List Token) : Nat :=
  if endsWithoutMark false rest then last.stop
  else ((rest.dropWhile Token.isComment).head?.map Token.stop).getD last.stop

/-- The node of the import that starts with the given keyword. -/
def node? (keyword : Token) (rest : List Token) : Option GrammarNode := do
  let (name, rest) ← moduleName? true rest
  let (last, rest) := attributesEnd name rest
  return .mk "import_statement" keyword.start (stop last rest) true none
    [.mk "string" name.start name.stop true (some "source") []]

end CondMarkup.Imports

namespace CondMarkup.Token

mutual

/-- The pieces of markup and the imports in a token. -/
def nodes : Token → List GrammarNode
  | mk kind _ _ _ inner =>
    match kind with
    | .markup node => [node]
    | _ => nodesAll false 0 inner

/-- The pieces of markup and the imports in a list of tokens, of which the first may be the name
of a property. Tokens before the byte `covered` belong to an import and are passed over. -/
def nodesAll (isProperty : Bool) (covered : Nat) : List Token → List GrammarNode
  | [] => []
  | t :: rest =>
    let joins := t.isMark "." || t.isMark "?."
    if t.start < covered then nodesAll joins covered rest
    else
      match if t.isWord "import" && !isProperty then Imports.node? t rest else none with
      | some node => node :: nodesAll joins node.stop rest
      | none => t.nodes ++ nodesAll joins covered rest

end

end CondMarkup.Token
