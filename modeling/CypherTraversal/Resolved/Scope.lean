/-! # Scopes

The variables that can be seen at one point of a query, in the order of their declaration, with
what is known of the objects they stand for. -/

namespace CypherTraversal

inductive Kind where
  | node
  | relationship
  | scalar
  | map
  | list
  | aggregate
  | value
deriving DecidableEq, Repr, Inhabited

namespace Kind

def text : Kind → String
  | node => "Node"
  | relationship => "Relationship"
  | scalar => "Scalar"
  | map => "Map"
  | list => "List"
  | aggregate => "Aggregate"
  | value => "Value"

def isElement : Kind → Bool
  | node | relationship => true
  | _ => false

end Kind

structure Binding where
  name : String
  kind : Kind
deriving DecidableEq, Repr, Inhabited

abbrev ScopeId := Nat

/-- The variables that can be used at a place. -/
structure Scope where
  bindings : List Binding := []
  parent : Option ScopeId := none
deriving DecidableEq, Repr, Inhabited

namespace Scope

def childOf (parent : ScopeId) : Scope :=
  { parent := some parent }

def find? (s : Scope) (name : String) : Option Binding :=
  s.bindings.find? fun b => b.name = name

def kind? (s : Scope) (name : String) : Option Kind :=
  (s.find? name).map Binding.kind

def has (s : Scope) (name : String) : Bool :=
  (s.find? name).isSome

def names (s : Scope) : List String :=
  s.bindings.map Binding.name

def isElement (s : Scope) (name : String) : Bool :=
  (s.kind? name).any Kind.isElement

def rebind (name : String) (kind : Kind) : List Binding → List Binding
  | [] => [⟨name, kind⟩]
  | b :: bs => if b.name = name then ⟨name, kind⟩ :: bs else b :: rebind name kind bs

def bind (s : Scope) (name : String) (kind : Kind) : Scope :=
  { s with bindings := rebind name kind s.bindings }

def extendedBy (s t : Scope) : Scope :=
  t.bindings.foldl (fun s b => if s.has b.name then s else s.bind b.name b.kind) s

end Scope

abbrev ScopeTable := List Scope

namespace ScopeTable

def scope (t : ScopeTable) (id : ScopeId) : Scope :=
  t.getD id {}

def push (t : ScopeTable) (s : Scope) : ScopeId × ScopeTable :=
  (t.length, t ++ [s])

end ScopeTable
end CypherTraversal
