import CypherTraversal.Flavor
import CypherTraversal.Json.Record
import CypherTraversal.Json.Writer

/-! # Settings

What a client is set up with. Settings are kept as a document: an object of named fields, or an
array of the same fields in their order. A field that is left out keeps its default, and a field
of another name is passed over. -/

namespace CypherTraversal

structure Settings where
  flavor : String := Flavor.default.name
  logLevel : String := "info"
  strictParameters : Bool := false
  graphName : String := "default"
deriving DecidableEq, Repr, Inhabited

inductive SettingsField where
  | flavor
  | logLevel
  | strictParameters
  | graphName
deriving DecidableEq, Repr

namespace SettingsField

def name : SettingsField → String
  | flavor => "flavor"
  | logLevel => "log_level"
  | strictParameters => "strict_parameters"
  | graphName => "graph_name"

def all : List SettingsField :=
  [flavor, logLevel, strictParameters, graphName]

def ofName? (s : String) : Option SettingsField :=
  all.find? fun f => f.name == s

def isName (s : String) : Bool :=
  (ofName? s).isSome

end SettingsField

namespace Settings

def development : Settings :=
  { flavor := Flavor.native.name, logLevel := "debug", strictParameters := true }

def ofFlavor (name : String) : Settings :=
  { flavor := name }

def selected (s : Settings) : Except Error Flavor :=
  Flavor.ofName s.flavor

/-! ### Documents -/

def get (s : Settings) : SettingsField → Json
  | .flavor => .str s.flavor
  | .logLevel => .str s.logLevel
  | .strictParameters => .bool s.strictParameters
  | .graphName => .str s.graphName

def set? (s : Settings) : SettingsField → Json → Option Settings
  | .flavor, .str x => some { s with flavor := x }
  | .logLevel, .str x => some { s with logLevel := x }
  | .strictParameters, .bool b => some { s with strictParameters := b }
  | .graphName, .str x => some { s with graphName := x }
  | _, _ => none

def ofFields? (fields : List (SettingsField × Json)) : Option Settings :=
  fields.foldlM (fun s f => s.set? f.1 f.2) {}

def ofDocument? : Json → Option Settings
  | .object fields =>
    let known := fields.filterMap fun f => (SettingsField.ofName? f.1).map (·, f.2)
    if (known.map Prod.fst).Nodup then ofFields? known else none
  | .array items =>
    if items.length ≤ SettingsField.all.length then ofFields? (SettingsField.all.zip items)
    else none
  | _ => none

def read (text : String) : Except Error Settings := do
  match (Json.readRecord? SettingsField.isName text).bind ofDocument? with
  | none => throw .document
  | some s =>
    let _ ← s.selected
    return s

def toDocument (s : Settings) : Json :=
  .object (SettingsField.all.map fun f => (f.name, s.get f))

def text (s : Settings) : String :=
  s.toDocument.pretty

end Settings
end CypherTraversal
