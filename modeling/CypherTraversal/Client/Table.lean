import CypherTraversal.Json.Basic

/-! # Result tables

The rows to which a query leads, each of them keyed by column. -/

namespace CypherTraversal

/-- The result of a query. -/
structure Table where
  columns : List String
  rows : List (Entries Value)
deriving Repr, Inhabited

namespace Table

def row (columns : List String) (v : Value) : Entries Value :=
  let alone : Entries Value := [(columns.head?.getD "", v)]
  match v with
  | .map entries =>
    if columns.all fun c => Entries.has c entries then
      entries.filter fun e => columns.contains e.1
    else alone
  | _ => alone

def ofValues (columns : List String) (values : List Value) : Table where
  columns := columns
  rows := values.map (row columns)

def column (t : Table) (name : String) : List Value :=
  t.rows.map fun r => (r.find? name).getD .null

def toDocument (t : Table) : Json :=
  .array (t.rows.map fun r => .object (Json.ofEntries r))

end Table
end CypherTraversal
