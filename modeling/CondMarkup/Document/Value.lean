import CondMarkup.Text.Quoted
import CondMarkup.Text.Window

/-!
Values that are read from settings: texts, numbers, lists and mappings from keys to values. A
mapping keeps its entries in the order in which they were written. How a document is read is left to
a reader that is given: it yields the value of the document or says why there is none.
-/

namespace CondMarkup

inductive Value where
  | null
  | bool (b : Bool)
  | int (n : Int)
  /-- The number `mantissa / 10 ^ places`. -/
  | decimal (mantissa : Int) (places : Nat)
  | text (s : String)
  | list (entries : List Value)
  | map (entries : List (Value × Value))
  /-- A value of a kind that settings have no use for, such as a date; all that is known of it is
  whether it counts as something. -/
  | foreign (counts : Bool)
  deriving Repr, Inhabited

namespace Value

/-- Whether the value counts as nothing: zero and whatever is empty. -/
def isNothing : Value → Bool
  | null => true
  | bool b => !b
  | int n => n = 0
  | decimal m _ => m = 0
  | text s => s = ""
  | list entries => entries.isEmpty
  | map entries => entries.isEmpty
  | foreign counts => !counts

def text? : Value → Option String
  | text s => some s
  | _ => none

/-- The number that a value is, over a power of ten; truth values count as one and zero. -/
def number? : Value → Option (Int × Nat)
  | bool b => some (if b then 1 else 0, 0)
  | int n => some (n, 0)
  | decimal m p => some (m, p)
  | _ => none

/-- The number `m * 10 ^ places`. -/
def scaled (m : Int) (places : Nat) : Int := m * Int.ofNat (Nat.pow 10 places)

mutual

/-- Whether two values are the same as keys. Numbers are compared by what they amount to. -/
def sameKey : Value → Value → Bool
  | null, null => true
  | text s, text t => s = t
  | list xs, list ys => sameKeys xs ys
  | a, b =>
    match a.number?, b.number? with
    | some (m, p), some (n, q) => scaled m q = scaled n p
    | _, _ => false

def sameKeys : List Value → List Value → Bool
  | [], [] => true
  | x :: xs, y :: ys => sameKey x y && sameKeys xs ys
  | _, _ => false

end

/-- The value of a key in a mapping; other values have no keys. -/
def get? (v : Value) (key : String) : Option Value :=
  match v with
  | map entries => (entries.find? fun e => e.1.sameKey (text key)).map Prod.snd
  | _ => none

/-- The keys of a mapping. -/
def keys : Value → List Value
  | map entries => entries.map Prod.fst
  | _ => []

/-! ### Written form -/

/-- A number over a power of ten, written with a point, or with an exponent if it is very large or
very small. -/
def decimalText (mantissa : Int) (places : Nat) : String :=
  let sign := if mantissa < 0 then "-" else ""
  let digits := Nat.toDigits 10 mantissa.natAbs
  let trimmed := (digits.reverse.dropWhile fun c => c = '0').reverse
  if trimmed.isEmpty then sign ++ "0.0"
  else
    let exponent : Int := (digits.length : Int) - 1 - places
    let whole := String.ofList
    if exponent < -4 ∨ 16 ≤ exponent then
      let fraction := if trimmed.length = 1 then "" else "." ++ whole (trimmed.drop 1)
      let size := whole (Nat.toDigits 10 exponent.natAbs)
      sign ++ whole (trimmed.take 1) ++ fraction ++ "e" ++ (if exponent < 0 then "-" else "+")
        ++ (if size.length < 2 then "0" ++ size else size)
    else if exponent < 0 then
      sign ++ "0." ++ whole (List.replicate (exponent.natAbs - 1) '0') ++ whole trimmed
    else
      let n := exponent.toNat + 1
      let front := trimmed.take n ++ List.replicate (n - trimmed.length) '0'
      sign ++ whole front ++ "." ++ (if trimmed.length ≤ n then "0" else whole (trimmed.drop n))

mutual

/-- The written form of a value within another. -/
def literal : Value → String
  | null => "None"
  | bool b => if b then "True" else "False"
  | int n => toString n
  | decimal m p => decimalText m p
  | text s => quoted s
  | list entries => "[" ++ ", ".intercalate (literals entries) ++ "]"
  | map entries => "\x7b" ++ ", ".intercalate (entryLiterals entries) ++ "\x7d"
  | foreign _ => ""

def literals : List Value → List String
  | [] => []
  | v :: rest => literal v :: literals rest

def entryLiterals : List (Value × Value) → List String
  | [] => []
  | (k, v) :: rest => (literal k ++ ": " ++ literal v) :: entryLiterals rest

end

/-- The value as a text: a text is itself, any other value is written out. -/
def asText : Value → String
  | text s => s
  | v => v.literal

end Value

/-- Why a document has no value. -/
inductive DocumentFault where
  /-- It is malformed; the report says where and how. -/
  | malformed (report : String)
  /-- A text that should be a number is none. -/
  | notNumber
  /-- A text that should be a truth value is none. -/
  | notTruth
  /-- There is no such day, or no such time of day. -/
  | noSuchTime
  /-- A key of an ordered mapping occurs twice. -/
  | repeatedKey
  /-- The document names a version of its format that there are no rules for. -/
  | unknownVersion
  deriving DecidableEq, Repr

/-- What reads the value of a document from its text. -/
abbrev DocumentReader := Text → Except DocumentFault Value

end CondMarkup
