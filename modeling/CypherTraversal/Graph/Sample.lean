import CypherTraversal.Graph.Basic

/-! # The sample graph

The small graph that Gremlin tutorials use: four people, two pieces of software, who knows whom
and who created what. -/

namespace CypherTraversal.Graph

private def person (name : String) (age : Int) (g : Graph) : Graph :=
  (g.addVertex "person" (propertiesOf [("name", .str name), ("age", .int age)])).2

private def software (name : String) (g : Graph) : Graph :=
  (g.addVertex "software" (propertiesOf [("name", .str name), ("lang", .str "java")])).2

private def weighted (label : String) (source target tenths : Nat) (g : Graph) : Graph :=
  (g.connect label ⟨source⟩ ⟨target⟩
    (propertiesOf [("weight", .float (.ofDecimal false tenths (-1)))])).2

def modern : Graph :=
  empty "modern"
    |> person "marko" 29 |> person "vadas" 27 |> software "lop" |> person "josh" 32
    |> software "ripple" |> person "peter" 35
    |> weighted "knows" 1 2 5 |> weighted "knows" 1 4 10 |> weighted "created" 1 3 4
    |> weighted "created" 4 5 10 |> weighted "created" 4 3 4 |> weighted "created" 6 3 2

def named (name : String) : Graph :=
  if name = "modern" then modern else empty name

end CypherTraversal.Graph
