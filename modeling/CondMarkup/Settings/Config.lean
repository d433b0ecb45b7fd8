import CondMarkup.Document.Value
import CondMarkup.Text.Order
import CondMarkup.Text.Utf8

/-!
The configuration of the tool: the module whose imports mark the use of the conditional tags, and
the patterns that select files. A configuration is read from a mapping in which all three entries
may be left out; nothing else may be in it. `Config.ofValue` accepts exactly the values that are a
configuration and says of any other what is wrong with it.
-/

namespace CondMarkup

/-- The module whose imports are removed where no other is named. -/
def defaultMarker : String := "jsx-conditionals"

/-- What is wrong with a configuration or with what the tool is told to do. -/
inductive ConfigError where
  | unknownKeys (keys : List String)
  /-- The marker is no text, or an empty one. -/
  | badMarker
  /-- The patterns under a key are neither a text nor a list of texts. -/
  | badPatterns (key : String)
  /-- A configuration file does not hold a mapping. -/
  | notMapping (path : String)
  /-- A configuration file is malformed, as the report of its reader says. -/
  | malformed (path report : String)
  /-- There is no configuration file where one was named. -/
  | fileNotFound (path : String)
  /-- There is nothing at a path that was named. -/
  | pathNotFound (path : String)
  /-- Several files are to be expanded and nothing says where to. -/
  | noDestination
  deriving DecidableEq, Repr

def ConfigError.message : ConfigError → String
  | unknownKeys keys => "Unknown configuration key(s): " ++ ", ".intercalate keys
  | badMarker => "'marker_module' must be a non-empty string"
  | badPatterns key => s!"'{key}' must be a string or a list of strings"
  | notMapping path => s!"YAML must be a mapping: {path}"
  | malformed path report => s!"Invalid YAML in {path}: {report}"
  | fileNotFound path => s!"Config file not found: {path}"
  | pathNotFound path => s!"Path not found: {path}"
  | noDestination => "Directories and multiple inputs need --out-dir or --in-place"

/-- Why no configuration is read. -/
inductive LoadError where
  | config (error : ConfigError)
  /-- An unknown key is not a text, so it cannot be named. -/
  | keyNotText
  /-- The document in the file has no value, though it is not malformed. -/
  | value (fault : DocumentFault)
  /-- The file is not a text. -/
  | decode (error : Utf8.DecodeError)
  deriving DecidableEq, Repr

structure Config where
  marker : String := defaultMarker
  included : List String := ["*.tsx", "*.jsx"]
  excluded : List String := ["node_modules/"]
  deriving DecidableEq, Repr

namespace Config

/-- The keys that a configuration may have. -/
def knownKeys : List String := ["marker_module", "include", "exclude"]

/-- The keys that a configuration may not have, in the order of their characters. -/
def unknownKeys (v : Value) : Except LoadError (List String) :=
  let unknown := v.keys.filter fun k => !knownKeys.any fun known => k.sameKey (.text known)
  match unknown.mapM Value.text? with
  | some keys => .ok (keys.mergeSort textLe)
  | none => .error .keyNotText

/-- The marker that a mapping names. -/
def markerOf (v : Value) : Except LoadError String :=
  match v.get? "marker_module" with
  | none => .ok defaultMarker
  | some (.text s) => if s = "" then .error (.config .badMarker) else .ok s
  | some _ => .error (.config .badMarker)

/-- The patterns that a mapping has under a key: a text or a list of texts. -/
def patternsOf (v : Value) (key : String) (fallback : List String) :
    Except LoadError (List String) :=
  match v.get? key with
  | none | some .null => .ok fallback
  | some (.text s) => .ok [s]
  | some (.list vs) =>
    match vs.mapM Value.text? with
    | some texts => .ok texts
    | none => .error (.config (.badPatterns key))
  | some _ => .error (.config (.badPatterns key))

/-- The configuration that a mapping stands for. -/
def ofMapping (v : Value) : Except LoadError Config := do
  match ← unknownKeys v with
  | [] =>
    let marker ← markerOf v
    let included ← patternsOf v "include" ({} : Config).included
    let excluded ← patternsOf v "exclude" ({} : Config).excluded
    return { marker, included, excluded }
  | keys => throw (.config (.unknownKeys keys))

/-- The configuration that a value stands for. A value that counts as nothing stands for the
default. -/
def ofValue (v : Value) : Except LoadError Config :=
  if v.isNothing then .ok {} else ofMapping v

/-- The configuration in the text of a file. -/
def ofText (read : DocumentReader) (path : String) (t : Text) : Except LoadError Config :=
  match read t with
  | .error (.malformed report) => .error (.config (.malformed path report))
  | .error fault => .error (.value fault)
  | .ok v =>
    if v.isNothing then .ok {}
    else match v with
      | .map _ => ofMapping v
      | _ => .error (.config (.notMapping path))

end Config

/-- The marker that options name, which may be any value; it is the default where they name
none. -/
def markerOfOptions (options : Value) : String :=
  match options.get? "marker_module" with
  | some v => v.asText
  | none => defaultMarker

/-- The version of the tool: that of the first of its two distributions that is installed. -/
def toolVersion (installed : List (String × String)) : String :=
  let versionOf (name : String) := (installed.find? fun d => d.1 = name).map Prod.snd
  ((versionOf "jsx-conditionals").or (versionOf "jsxcond")).getD "0.0.0"

end CondMarkup
