import CondMarkup.Document.Value
import CondMarkup.Document.Yaml.Node

/-!
What the nodes of a document mean. A plain text without a tag may be a number, a truth value,
nothing or a date, by its form; other texts are texts. A tag says what its node is. A node that
cannot be what its tag or its form says is a fault of the document, and so is a key that occurs
twice.
-/

namespace CondMarkup.Yaml

/-- What is said of any document that does not keep to the format. -/
def malformed : DocumentFault := .malformed "the document is malformed"

/-- The versions of the format that there are rules for. In the first one more texts are numbers and
truth values. -/
inductive Version where
  | first
  | second
  deriving DecidableEq, Repr

/-- What a plain text is by its form. -/
inductive Form where
  | text
  | null
  | bool
  | int
  | float
  | timestamp
  /-- A sign that stands for an entry to be merged or for a default; it has no value. -/
  | sign
  deriving DecidableEq, Repr

namespace Form

def isOctal (c : Char) : Bool := '0' ≤ c && c ≤ '7'

/-- The text without a sign before it. -/
def unsigned (t : Text) : Text :=
  match t with
  | '-' :: rest => rest
  | '+' :: rest => rest
  | _ => t

/-- Whether the text consists of characters that fulfil `p` and of underscores, and is not
empty. -/
def allDigits (p : Char → Bool) (t : Text) : Bool :=
  !t.isEmpty && t.all fun c => p c || c = '_'

/-- Whether the text is a row of numbers below sixty that colons join, after a first part of any
size. -/
def isSixties (t : Text) : Bool :=
  match (String.ofList t).splitOn ":" with
  | front :: parts@(_ :: _) =>
    (front.toList.head?.any Char.isDigit && allDigits Char.isDigit front.toList) &&
      parts.all fun p =>
        match p.toList with
        | [d] => d.isDigit
        | [c, d] => '0' ≤ c && c ≤ '5' && d.isDigit
        | _ => false
  | _ => false

/-- Whether the text is a whole number in one of the forms with and without a base. -/
def isInt (version : Version) (t : Text) : Bool :=
  t.head?.any (fun c => c.isDigit || c = '-' || c = '+') &&
    match unsigned t with
    | '0' :: 'b' :: rest => allDigits (fun c => c = '0' || c = '1') rest
    | '0' :: 'x' :: rest => allDigits (fun c => (hexDigit? c).isSome) rest
    | '0' :: 'o' :: rest => version = .second && allDigits isOctal rest
    | rest =>
      match version with
      | .second => allDigits Char.isDigit rest
      | .first =>
        allDigits isOctal rest ||
          (rest.head? ≠ some '0' && ((rest.head?.any Char.isDigit && allDigits Char.isDigit rest) ||
            isSixties rest))

/-- The text after an exponent at its start, whose sign may be required. -/
def afterExponent (signed : Bool) (t : Text) : Text :=
  match t with
  | e :: rest =>
    if e = 'e' ∨ e = 'E' then
      let digits := unsigned rest
      let after := digits.dropWhile Char.isDigit
      if digits.length = after.length ∨ (signed ∧ digits.length = rest.length) then t else after
    else t
  | [] => []

/-- Whether the text is a number with a point or an exponent. -/
def isFloat (version : Version) (t : Text) : Bool :=
  let u := unsigned t
  match u with
  | '.' :: rest =>
    let digits := rest.takeWhile fun c => c.isDigit || c = '_'
    (!digits.isEmpty && (afterExponent true (rest.drop digits.length)).isEmpty &&
        (version = .second || u.length = t.length)) ||
      ["inf", "Inf", "INF"].contains (String.ofList rest) ||
      (u.length = t.length && ["nan", "NaN", "NAN"].contains (String.ofList rest))
  | c :: rest =>
    c.isDigit &&
      match rest.dropWhile fun c => c.isDigit || c = '_' with
      | '.' :: rest =>
        (afterExponent false (rest.dropWhile fun c => c.isDigit || c = '_')).isEmpty
      | [] => false
      | ':' :: _ =>
        let front := u.takeWhile fun c => c != '.'
        version = .first && front.length < u.length && isSixties front &&
          ((u.drop (front.length + 1)).all fun c => c.isDigit || c = '_')
      | rest => (afterExponent false rest).isEmpty
  | [] => false

/-- The text after a part of at least `least` and at most `most` digits at its start. -/
def afterDigits (least most : Nat) (t : Text) : Option Text :=
  let n := ((t.takeWhile Char.isDigit).take most).length
  if n < least then none else some (t.drop n)

def afterChar (c : Char) (t : Text) : Option Text :=
  match t with
  | x :: rest => if x = c then some rest else none
  | [] => none

/-- Whether the text is a time of day as it follows a date, with or without a zone. -/
def isTime (t : Text) : Bool :=
  let zone (t : Text) : Option Unit := do
    match t.dropWhile fun c => c = ' ' || c = '\t' with
    | [] => if t.isEmpty then return else none
    | 'Z' :: rest => if rest.isEmpty then return else none
    | c :: rest =>
      if c = '+' ∨ c = '-' then
        let rest ← afterDigits 1 2 rest
        if rest.isEmpty then return
        let rest ← afterDigits 2 2 (← afterChar ':' rest)
        if rest.isEmpty then return else none
      else none
  let time : Option Unit := do
    let rest ← match t with
      | c :: rest =>
        if c = 'T' ∨ c = 't' then some rest
        else if c = ' ' ∨ c = '\t' then some (rest.dropWhile fun c => c = ' ' || c = '\t')
        else none
      | [] => none
    let rest ← afterChar ':' (← afterDigits 1 2 rest)
    let rest ← afterChar ':' (← afterDigits 2 2 rest)
    let rest ← afterDigits 2 2 rest
    match rest with
    | '.' :: rest => zone (rest.dropWhile Char.isDigit)
    | _ => zone rest
  time.isSome

/-- Whether the text is a date, or a date and a time. -/
def isTimestamp (t : Text) : Bool :=
  let date : Option Bool := do
    let month ← afterChar '-' (← afterDigits 4 4 t)
    let dash ← afterDigits 1 2 month
    let day ← afterChar '-' dash
    let rest ← afterDigits 1 2 day
    let isFull := month.length - dash.length = 2 ∧ day.length - rest.length = 2
    return (rest.isEmpty && isFull) || isTime rest
  date.getD false

/-- The texts that are truth values in each version. -/
def truthTexts : Version → List String
  | .second => ["true", "True", "TRUE", "false", "False", "FALSE"]
  | .first =>
    ["true", "True", "TRUE", "false", "False", "FALSE", "yes", "Yes", "YES", "no", "No", "NO", "y",
     "Y", "n", "N", "on", "On", "ON", "off", "Off", "OFF"]

/-- The form of a plain text. -/
def ofText (version : Version) (t : Text) : Form :=
  let s := String.ofList t
  if (truthTexts version).contains s then .bool
  else if isFloat version t then .float
  else if isInt version t then .int
  else if s = "<<" ∨ s = "=" then .sign
  else if ["", "~", "null", "Null", "NULL"].contains s then .null
  else if isTimestamp t then .timestamp
  else .text

/-- The form that a tag asks for. -/
def ofTag? (tag : String) : Option Form :=
  match tag with
  | "str" => some .text
  | "null" => some .null
  | "bool" => some .bool
  | "int" => some .int
  | "float" => some .float
  | "timestamp" => some .timestamp
  | _ => none

end Form

/-! ### Values -/

/-- The number that digits of a base stand for. There must be at least one. -/
def digitsValue (base : Nat) (t : Text) : Except DocumentFault Int :=
  if t.any (fun c => (hexDigit? c).any fun d => d < base) &&
      t.all (fun c => c = '_' || (hexDigit? c).any fun d => d < base) then
    .ok (intOfDigits base t)
  else .error .notNumber

/-- The number that parts of sixty stand for. -/
def sixtiesValue (t : Text) : Except DocumentFault Int := do
  let parts ← ((String.ofList t).splitOn ":").mapM fun p => digitsValue 10 p.toList
  return parts.foldl (fun n d => n * 60 + d) 0

/-- The whole number that a text stands for. -/
def intOf (version : Version) (t : Text) : Except DocumentFault Value := do
  let magnitude ←
    match Form.unsigned t with
    | '0' :: 'b' :: rest => digitsValue 2 rest
    | '0' :: 'o' :: rest => digitsValue 8 rest
    | '0' :: 'x' :: rest => digitsValue 16 rest
    | rest =>
      if version = .first ∧ rest.contains ':' then sixtiesValue rest
      else digitsValue (if version = .first ∧ rest.head? = some '0' then 8 else 10) rest
  return .int (if t.head? = some '-' then -magnitude else magnitude)

/-- The number that a text with a point or exponent stands for. Infinity, what is no number, what is
too large to be told from infinity and numbers in parts of sixty are of no use to settings; what is
too small to be told from zero is zero. -/
def floatOf (t : Text) : Except DocumentFault Value :=
  let u := Form.unsigned t
  let front := u.takeWhile fun c => c != 'e' && c != 'E'
  let power := (u.drop front.length).drop 1
  let digits := front.filter Char.isDigit
  let isNumber := front.all (fun c => c.isDigit || c = '.' || c = '_') && !digits.isEmpty
  if !isNumber then
    let s := String.ofList (u.map Char.toLower)
    if [".inf", ".nan", "inf", "nan"].contains s then .ok (.foreign true)
    else if u.contains ':' then .ok (.foreign (digits.any fun c => c != '0'))
    else .error .notNumber
  else
    let places := ((front.dropWhile fun c => c != '.').filter Char.isDigit).length
    let size : Int := intOfDigits 10 (Form.unsigned power)
    let exponent := if power.head? = some '-' then -size else size
    let m : Int := intOfDigits 10 digits
    let m := if t.head? = some '-' then -m else m
    let magnitude := (Nat.toDigits 10 m.natAbs).length + exponent - places
    if m = 0 ∨ magnitude < -323 then .ok (.decimal 0 0)
    else if 309 < magnitude then .ok (.foreign true)
    else if exponent ≤ places then .ok (.decimal m (places - exponent).toNat)
    else .ok (.decimal (Value.scaled m (exponent - places).toNat) 0)

/-- The truth value that a text stands for. -/
def truthOf (t : Text) : Except DocumentFault Value :=
  let s := String.ofList (t.map Char.toLower)
  if ["true", "yes", "y", "on"].contains s then .ok (.bool true)
  else if ["false", "no", "n", "off"].contains s then .ok (.bool false)
  else .error .notTruth

/-- The numbers that a text holds. -/
def numbersIn (t : Text) : List Nat :=
  let digits := t.map fun c => if c.isDigit then c else ' '
  (((String.ofList digits).splitOn " ").filter fun s => s ≠ "").map fun s =>
    intOfDigits 10 s.toList

/-- The number of days of a month. -/
def daysIn (year month : Nat) : Nat :=
  if month = 2 then
    if year % 4 = 0 ∧ (year % 100 ≠ 0 ∨ year % 400 = 0) then 29 else 28
  else if [4, 6, 9, 11].contains month then 30
  else 31

/-- A date, with or without a time of day, that must be one that there is. -/
def timestampOf (t : Text) : Except DocumentFault Value :=
  if !Form.isTimestamp t then .error malformed
  else match numbersIn t with
    | year :: month :: day :: time =>
      let isDay := 1 ≤ year && 1 ≤ month && month ≤ 12 && 1 ≤ day && day ≤ daysIn year month
      let isTime := match time with
        | hour :: minute :: second :: _ => hour < 24 && minute < 60 && second < 60
        | _ => true
      if isDay && isTime then .ok (.foreign true) else .error .noSuchTime
    | _ => .error malformed

/-- The value of a text in a form. -/
def valueOfForm (version : Version) (t : Text) : Form → Except DocumentFault Value
  | .text => .ok (.text (String.ofList t))
  | .null => .ok .null
  | .bool => truthOf t
  | .int => intOf version t
  | .float => floatOf t
  | .timestamp => timestampOf t
  | .sign => .error malformed

/-- The name of a tag of the language itself. -/
def coreName? (tag : Text) : Option String :=
  if Layout.coreTag.isPrefixOf tag then some (String.ofList (tag.drop Layout.coreTag.length))
  else none

/-- What must be there for the document not to be malformed. -/
def orMalformed {α : Type} : Option α → Except DocumentFault α
  | some a => .ok a
  | none => .error malformed

/-- The value of a text with a tag. -/
def scalarValue (version : Version) (tag : Option Text) (t : Text) (plain : Bool) :
    Except DocumentFault Value :=
  match tag with
  | none => valueOfForm version t (if plain then Form.ofText version t else .text)
  | some ['!'] => valueOfForm version t (Form.ofText version t)
  | some tag => do
    let name ← orMalformed (coreName? tag)
    -- bytes count as something unless there are none
    if name = "binary" then return .foreign (t.any fun c => !isGap [c])
    valueOfForm version t (← orMalformed (Form.ofTag? name))

/-- Whether a node is the sign for an entry to be merged. -/
def isMergeKey : Node → Bool
  | .scalar none t true => t = "<<".toList
  | _ => false

/-- Whether a value may be a key: mappings may not. -/
def mayBeKey : Value → Bool
  | .map _ => false
  | _ => true

/-- Adds entries to a mapping; a key that is there already is refused. -/
def addEntries (entries : List (Value × Value)) :
    List (Value × Value) → Option (List (Value × Value))
  | [] => some entries
  | (k, v) :: rest =>
    if !mayBeKey k || entries.any fun e => e.1.sameKey k then none
    else addEntries (entries ++ [(k, v)]) rest

/-- The entries that merged values bring: of a mapping its own, of a sequence those of its
mappings. -/
def mergedEntries : Value → Option (List (Value × Value))
  | .map es => some es
  | .list vs => do
    let parts ← vs.mapM fun v => match v with
      | .map es => some es
      | _ => none
    return parts.flatten
  | _ => none

/-- The entries of a mapping together with those that are merged into it: an entry of its own comes
before a merged one of the same key. -/
def withMerged (own merged : List (Value × Value)) : List (Value × Value) :=
  merged.foldl (fun es e => if es.any fun x => x.1.sameKey e.1 then es else es ++ [e]) own

/-- Adds the entries of an ordered mapping, each of which stands in a mapping of its own. -/
def orderedEntries (entries : List (Value × Value)) :
    List Value → Except DocumentFault (List (Value × Value))
  | [] => .ok entries
  | .map [(k, v)] :: rest =>
    if entries.any fun e => e.1.sameKey k then .error .repeatedKey
    else orderedEntries (entries ++ [(k, v)]) rest
  | _ :: _ => .error malformed

/-- A pair, which is written as a mapping of one entry. -/
def pairOf : Value → Except DocumentFault Value
  | .map [_] => .ok (.foreign true)
  | _ => .error malformed

mutual

/-- The value of a node. -/
def valueOf (version : Version) : Node → Except DocumentFault Value
  | .scalar tag t plain => scalarValue version tag t plain
  | .sequence tag ns => do
    let vs ← valuesOf version ns
    match tag with
    | none | some ['!'] => return .list vs
    | some tag =>
      match coreName? tag with
      | some "seq" => return .list vs
      | some "omap" => return .map (← orderedEntries [] vs)
      | some "pairs" => return .list (← vs.mapM pairOf)
      | _ => throw malformed
  | .mapping tag es => do
    let (own, merged) ← pairsOf version es
    let own ← orMalformed (addEntries [] own)
    match tag with
    | none | some ['!'] => return .map (withMerged own merged)
    | some tag =>
      match coreName? tag with
      | some "map" => return .map (withMerged own merged)
      | some "set" => return .foreign !(withMerged own merged).isEmpty
      | _ => throw malformed

def valuesOf (version : Version) : List Node → Except DocumentFault (List Value)
  | [] => .ok []
  | n :: ns => do return (← valueOf version n) :: (← valuesOf version ns)

/-- The entries of a mapping, those to be merged apart. -/
def pairsOf (version : Version) :
    List (Node × Node) → Except DocumentFault (List (Value × Value) × List (Value × Value))
  | [] => .ok ([], [])
  | (k, v) :: rest => do
    if isMergeKey k then
      let merged ← orMalformed (mergedEntries (← valueOf version v))
      let (own, others) ← pairsOf version rest
      return (own, merged ++ others)
    else
      let key ← valueOf version k
      let value ← valueOf version v
      let (own, merged) ← pairsOf version rest
      return ((key, value) :: own, merged)

end

/-- The rules for a document that names a version. -/
def Version.ofNumbers : Option (Nat × Nat) → Except DocumentFault Version
  | none | some (1, 2) => .ok .second
  | some (1, 1) => .ok .first
  | some _ => .error .unknownVersion

/-- The value that a document holds, which is nothing for an empty document. -/
def read (t : Text) : Except DocumentFault Value := do
  let ts ← orMalformed (tokens? t)
  match ← orMalformed (Node.ofTokens? ts) with
  | (_, none) => return .null
  | (version, some n) => valueOf (← Version.ofNumbers version) n

end CondMarkup.Yaml
