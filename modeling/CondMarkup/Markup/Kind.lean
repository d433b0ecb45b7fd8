/-!
The kinds of nodes in a tree of source code with markup. Each kind has a name, used in messages,
and some node types of the grammar stand for a kind by themselves. Elements, fragments and their
tags are not among those: what they are depends on their parts.
-/

namespace CondMarkup

inductive Kind where
  | sourceFile
  | importDeclaration
  | jsxElement
  | jsxSelfClosingElement
  | jsxFragment
  | jsxOpeningElement
  | jsxClosingElement
  | jsxOpeningFragment
  | jsxClosingFragment
  | jsxAttributes
  | jsxAttribute
  | jsxSpreadAttribute
  | jsxText
  | jsxExpression
  | syntaxList
  | conditionalExpression
  | parenthesizedExpression
  | stringLiteral
  | identifier
  | nullKeyword
  /-- Any part of the source that has no meaning for markup. -/
  | unknown
  deriving DecidableEq, Repr

namespace Kind

def name : Kind → String
  | sourceFile => "SourceFile"
  | importDeclaration => "ImportDeclaration"
  | jsxElement => "JsxElement"
  | jsxSelfClosingElement => "JsxSelfClosingElement"
  | jsxFragment => "JsxFragment"
  | jsxOpeningElement => "JsxOpeningElement"
  | jsxClosingElement => "JsxClosingElement"
  | jsxOpeningFragment => "JsxOpeningFragment"
  | jsxClosingFragment => "JsxClosingFragment"
  | jsxAttributes => "JsxAttributes"
  | jsxAttribute => "JsxAttribute"
  | jsxSpreadAttribute => "JsxSpreadAttribute"
  | jsxText => "JsxText"
  | jsxExpression => "JsxExpression"
  | syntaxList => "SyntaxList"
  | conditionalExpression => "ConditionalExpression"
  | parenthesizedExpression => "ParenthesizedExpression"
  | stringLiteral => "StringLiteral"
  | identifier => "Identifier"
  | nullKeyword => "NullKeyword"
  | unknown => "Unknown"

def all : List Kind :=
  [sourceFile, importDeclaration, jsxElement, jsxSelfClosingElement, jsxFragment,
   jsxOpeningElement, jsxClosingElement, jsxOpeningFragment, jsxClosingFragment, jsxAttributes,
   jsxAttribute, jsxSpreadAttribute, jsxText, jsxExpression, syntaxList, conditionalExpression,
   parenthesizedExpression, stringLiteral, identifier, nullKeyword, unknown]

/-- The kind of that name. -/
def ofName? (s : String) : Option Kind := all.find? fun k => k.name == s

/-- The kind that a node type of the grammar stands for. -/
def ofGrammarType (type : String) : Kind :=
  match type with
  | "program" => sourceFile
  | "import_statement" => importDeclaration
  | "jsx_self_closing_element" => jsxSelfClosingElement
  | "jsx_attribute" => jsxAttribute
  | "jsx_text" => jsxText
  | "jsx_expression" => jsxExpression
  | "ternary_expression" => conditionalExpression
  | "parenthesized_expression" => parenthesizedExpression
  | "string" => stringLiteral
  | "identifier" => identifier
  | "property_identifier" => identifier
  | "null" => nullKeyword
  | _ => unknown

/-- Elements and fragments: the nodes that have a body. -/
def hasBody (k : Kind) : Bool := k = jsxElement || k = jsxFragment

/-- The kinds that a body may hold. -/
def allowedInBody (k : Kind) : Bool :=
  k = jsxText || k = jsxExpression || k = jsxElement || k = jsxSelfClosingElement ||
    k = jsxFragment

end Kind

end CondMarkup
