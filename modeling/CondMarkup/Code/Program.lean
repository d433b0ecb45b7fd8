import CondMarkup.Code.Reading

/-!
The grammar tree of a source text. It holds the markup, the expressions in braces and the imports
of modules; all other code is left out, so that every node stands directly in the program or in a
piece of markup.
-/

namespace CondMarkup

/-- The first line of a text if it names an interpreter. -/
def interpreterLine (c : Cursor) : Cursor :=
  if c.startsWith "#!" then Lexis.endOfLine c else c

/-- The tokens of a text; nothing if its brackets do not match. -/
def tokensOf? (language : Language) (t : Text) : Option (List Token) :=
  let fuel := 4 * t.length + 16
  (Reading.tokens language none .blockStart false (interpreterLine (.ofText t)) fuel).map Prod.fst

/-- The grammar tree of a text in a language. A text whose brackets do not match breaks the grammar,
and nothing is kept of it. -/
def GrammarTree.ofText (language : Language) (t : Text) : GrammarTree :=
  let tokens := tokensOf? language t
  { root := .mk "program" 0 (Cursor.ofText t |>.skip t.length).offset true none
      (Token.nodesAll false 0 (tokens.getD []))
    hasError := tokens.isNone }

end CondMarkup
