import CypherTraversal.Client.Session

/-! # The command line

The command prints the program of a query; with `--demo` it also runs the query on the sample
graph and prints the rows. -/

namespace CypherTraversal

structure Command where
  flavor : Option String := none
  parameters : Option String := none
  settings : Option String := none
  demo : Bool := false
  query : Option String := none
deriving DecidableEq, Repr, Inhabited

inductive CommandOption where
  | flavor
  | parameters
  | settings
deriving DecidableEq, Repr

namespace CommandOption

def name : CommandOption → String
  | flavor => "--flavor"
  | parameters => "--params"
  | settings => "--config"

def all : List CommandOption :=
  [flavor, parameters, settings]

def ofWord? (word : String) : Option (CommandOption × Option String) := do
  let (before, after) := word.toList.span (· != '=')
  let o ← all.find? fun o => o.name == String.ofList before
  pure (o, after.tail?.map String.ofList)

end CommandOption

namespace Command

def fill? (old : Option String) (s : String) : Option (Option String) :=
  if old.isSome then none else some (some s)

def set? (c : Command) (o : CommandOption) (value : String) : Option Command :=
  match o with
  | .flavor => return { c with flavor := ← fill? c.flavor value }
  | .parameters => return { c with parameters := ← fill? c.parameters value }
  | .settings => return { c with settings := ← fill? c.settings value }

def setDemo? (c : Command) : Option Command :=
  if c.demo then none else some { c with demo := true }

def setQuery? (c : Command) (text : String) : Option Command :=
  return { c with query := ← fill? c.query text }

def isOption (word : String) : Bool :=
  word.startsWith "-" && word != "-"

def ofWords? : (waiting : Option CommandOption) → Command → List String → Option Command
  | none, c, [] => some c
  | some _, _, [] => none
  | some o, c, word :: rest =>
    if isOption word then none else do ofWords? none (← c.set? o word) rest
  | none, c, word :: rest =>
    if word = "--" then rest.foldlM setQuery? c
    else if word = "--demo" then do ofWords? none (← c.setDemo?) rest
    else if isOption word then
      match CommandOption.ofWord? word with
      | some (o, none) => ofWords? (some o) c rest
      | some (o, some value) => do ofWords? none (← c.set? o value) rest
      | none => none
    else do ofWords? none (← c.setQuery? word) rest

def read? (words : List String) : Option Command :=
  ofWords? none {} words

def readParameters (text : String) : Except Error Parameters :=
  match (Json.read? text).map Json.toValue with
  | none => .error .document
  | some (.map entries) => .ok entries
  | some v => .error (.settings (.parametersNotObject v.typeName))

def readSettings (c : Command) (file : Option String) : Except Error Settings := do
  let s ← match c.settings, file with
    | none, _ => pure {}
    | some path, none => throw (.settings (.unreadableFile path))
    | some _, some text => Settings.read text
  return { s with flavor := c.flavor.getD s.flavor }

def start (c : Command) (s : Settings) : Except Error (Session × Parameters) := do
  let ps ← match c.parameters with
    | none => pure []
    | some text => readParameters text
  let s := if c.demo then { s with flavor := Flavor.native.name, graphName := "modern" } else s
  return (← Session.ofSettings s, ps)

def print (c : Command) (query : String) (session : Session) (ps : Parameters) :
    List String × Except Error Unit :=
  match compile session.flavor query ps with
  | .error e => ([], .error e)
  | .ok p =>
    if c.demo then
      match (session.submit query ps).1 with
      | .error e => ([p.display], .error e)
      | .ok table => ([p.display, table.toDocument.pretty], .ok ())
    else ([p.display], .ok ())

end Command

structure Outcome where
  code : Nat
  lines : List String := []
  complaint : Option String := none
deriving DecidableEq, Repr, Inhabited

namespace Outcome

def usage : Outcome where
  code := 2
  complaint := some "usage: [--flavor NAME] [--params JSON] [--config FILE] [--demo] QUERY"

def failure (what : String) (e : Error) : Outcome where
  code := 1
  complaint := some (what ++ ": " ++ e.message)

def output (o : Outcome) : String :=
  String.join (o.lines.map (· ++ "\n"))

end Outcome

namespace Command

def run (c : Command) (query : String) (file : Option String) : Outcome :=
  match c.readSettings file with
  | .error e => .failure "Failed to load configuration" e
  | .ok s =>
    match c.start s with
    | .error e => .failure "Query failed" e
    | .ok (session, ps) =>
      match c.print query session ps with
      | (lines, .ok ()) => { code := 0, lines }
      | (lines, .error e) => { Outcome.failure "Query failed" e with lines }

end Command

def runCommand (file? : String → Option String) (words : List String) : Outcome :=
  match Command.read? words with
  | none => .usage
  | some c =>
    match c.query with
    | none => .usage
    | some query => c.run query (c.settings.bind file?)

end CypherTraversal
