import CondMarkup.Markup.Grammar

/-!
Source code as a tree of tokens. What stands in brackets is one token that holds the tokens within,
and so are a template with the code in its placeholders, the type parameters in angle brackets and
a piece of markup, which is read into its grammar node at once. Comments are tokens too.
-/

namespace CondMarkup

/-- What a comment means for the lines of the code. -/
inductive CommentForm where
  /-- It reaches to the end of its line. -/
  | toLineEnd
  /-- It starts and ends in one line. -/
  | withinLine
  /-- It ends in a later line than it starts in. -/
  | overLines
  deriving DecidableEq, Repr

/-- What a token is. -/
inductive TokenKind where
  /-- A name or keyword. -/
  | word (text : String)
  /-- A number or regular expression. -/
  | literal
  | string
  /-- A template; the tokens within are those of its placeholders. -/
  | template
  | mark (text : String)
  /-- Tokens in brackets, told apart by the opening one. -/
  | group (opening : Char)
  | markup (node : GrammarNode)
  | comment (form : CommentForm)
  deriving Repr

inductive Token where
  | mk (kind : TokenKind) (start stop : Nat) (freshLine : Bool) (inner : List Token)
  deriving Repr

namespace Token

def kind : Token → TokenKind
  | mk kind _ _ _ _ => kind

/-- The first byte of the token. -/
def start : Token → Nat
  | mk _ start _ _ _ => start

/-- The byte after the token. -/
def stop : Token → Nat
  | mk _ _ stop _ _ => stop

/-- Whether a line feed stands between the token and the one before it. -/
def freshLine : Token → Bool
  | mk _ _ _ freshLine _ => freshLine

/-- The tokens within. -/
def inner : Token → List Token
  | mk _ _ _ _ inner => inner

def isComment (t : Token) : Bool :=
  match t.kind with
  | .comment _ => true
  | _ => false

def isMark (t : Token) (text : String) : Bool :=
  match t.kind with
  | .mark s => s = text
  | _ => false

def isWord (t : Token) (text : String) : Bool :=
  match t.kind with
  | .word s => s = text
  | _ => false

def isGroup (t : Token) (opening : Char) : Bool :=
  match t.kind with
  | .group o => o = opening
  | _ => false

end Token

end CondMarkup
