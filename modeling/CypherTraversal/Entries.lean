/-! # Entries

A map from text to values is a list of entries in strictly increasing order of their keys. All
ways of building one below keep that order, so whatever is written from a map comes out in key
order. -/

namespace CypherTraversal

abbrev Entries (α : Type) := List (String × α)

namespace Entries

variable {α : Type}

def find? (key : String) : Entries α → Option α
  | [] => none
  | (k, v) :: rest => if k = key then some v else find? key rest

def has (key : String) (entries : Entries α) : Bool :=
  (find? key entries).isSome

def insert (key : String) (value : α) : Entries α → Entries α
  | [] => [(key, value)]
  | (k, v) :: rest =>
    if key = k then (key, value) :: rest
    else if key < k then (key, value) :: (k, v) :: rest
    else (k, v) :: insert key value rest

def erase (key : String) : Entries α → Entries α
  | [] => []
  | (k, v) :: rest => if k = key then rest else (k, v) :: erase key rest

def ofList (pairs : List (String × α)) : Entries α :=
  pairs.foldl (fun entries p => insert p.1 p.2 entries) []

def keys (entries : Entries α) : List String :=
  entries.map Prod.fst

end Entries
end CypherTraversal
