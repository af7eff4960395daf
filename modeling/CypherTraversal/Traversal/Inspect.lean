import CypherTraversal.Traversal.Step

/-! # Traversals in messages

How an error message shows values, steps and traversals: each constructor by name with its
arguments in parentheses. -/

namespace CypherTraversal

def inspectCall (name : String) (args : List String) : String :=
  name ++ "(" ++ ", ".intercalate args ++ ")"

def inspectList (items : List String) : String :=
  "[" ++ ", ".intercalate items ++ "]"

def inspectEntries (entries : List (String × String)) : String :=
  "\x7b" ++ ", ".intercalate (entries.map fun e => Text.inspect e.1 ++ ": " ++ e.2) ++ "\x7d"

def inspectTexts (xs : List String) : String :=
  inspectList (xs.map Text.inspect)

def Scalar.inspect : Scalar → String
  | null => "Null"
  | bool b => inspectCall "Boolean" [toString b]
  | int n => inspectCall "Integer" [toString n]
  | float x => inspectCall "Float" [x.toText .plain]
  | str s => inspectCall "String" [Text.inspect s]

namespace Value

mutual

def inspect : Value → String
  | scalar s => s.inspect
  | list items => inspectCall "List" [inspectList (inspectItems items)]
  | map entries => inspectCall "Map" [CypherTraversal.inspectEntries (inspectPairs entries)]

def inspectItems : List Value → List String
  | [] => []
  | v :: vs => inspect v :: inspectItems vs

def inspectPairs : List (String × Value) → List (String × String)
  | [] => []
  | (k, v) :: vs => (k, inspect v) :: inspectPairs vs

end

end Value

def Operand.inspect : Operand → String
  | value v => inspectCall "Value" [v.inspect]
  | parameter name => inspectCall "Parameter" [Text.inspect name]
  | label name => inspectCall "Label" [Text.inspect name]

def Comparison.predicateName : Comparison → String
  | eq => "Eq" | ne => "Neq" | lt => "Lt" | le => "Lte" | gt => "Gt" | ge => "Gte"

def TextMatch.predicateName : TextMatch → String
  | startsWith => "StartsWith" | endsWith => "EndsWith" | contains => "Contains"

def Predicate.inspect : Predicate → String
  | compare c o => inspectCall c.predicateName [o.inspect]
  | between low high => inspectCall "Between" [low.inspect, high.inspect]
  | within o => inspectCall "Within" [o.inspect]
  | without o => inspectCall "Without" [o.inspect]
  | text m o => inspectCall m.predicateName [o.inspect]

def Bound.inspect : Bound → String
  | literal n => inspectCall "Literal" [toString n]
  | parameter name => inspectCall "Parameter" [Text.inspect name]

def Column.inspect : Column → String
  | keys => "Keys" | values => "Values"

def SortOrder.inspect : SortOrder → String
  | asc => "Asc" | desc => "Desc"

def Direction.edgesInspect : Direction → String
  | outgoing => "OutE" | incoming => "InE" | both => "BothE"

def Endpoint.inspect : Endpoint → String
  | target => "InV" | source => "OutV" | other => "OtherV"

def Reduction.inspect : Reduction → String
  | count => "Count" | sum => "Sum" | min => "Min" | max => "Max" | mean => "Mean"

def inspectTraversal (steps : List String) : String :=
  "Traversal \x7b steps: " ++ inspectList steps ++ " \x7d"

def inspectOption (x : Option String) : String :=
  match x with
  | none => "None"
  | some s => inspectCall "Some" [Text.inspect s]

namespace Step

mutual

def inspect : Step → String
  | vertices => "V"
  | inject vs => inspectCall "Inject" [inspectList (Value.inspectItems vs)]
  | hasLabel labels => inspectCall "HasLabel" [inspectTexts labels]
  | has key => inspectCall "Has" [Text.inspect key]
  | hasPredicate key p => inspectCall "HasPredicate" [Text.inspect key, p.inspect]
  | hasNot key => inspectCall "HasNot" [Text.inspect key]
  | is p => inspectCall "Is" [p.inspect]
  | .filter t => inspectCall "Where" [inspectTraversal (inspects t)]
  | wherePredicate p => inspectCall "WherePredicate" [p.inspect]
  | .not t => inspectCall "Not" [inspectTraversal (inspects t)]
  | .and ts => inspectCall "And" [inspectList (inspectEach ts)]
  | .or ts => inspectCall "Or" [inspectList (inspectEach ts)]
  | edges d labels => inspectCall d.edgesInspect [inspectTexts labels]
  | endpoint e => e.inspect
  | mark l => inspectCall "As" [Text.inspect l]
  | select l => inspectCall "Select" [Text.inspect l]
  | selectColumn c => inspectCall "SelectColumn" [c.inspect]
  | values key => inspectCall "Values" [Text.inspect key]
  | properties key => inspectCall "Properties" [Text.inspect key]
  | value => "Value"
  | id => "Id"
  | label => "Label"
  | constant o => inspectCall "Constant" [o.inspect]
  | project keys => inspectCall "Project" [inspectTexts keys]
  | .by t => inspectCall "By" [inspectTraversal (inspects t)]
  | byOrder t o => inspectCall "ByOrder" [inspectTraversal (inspects t), o.inspect]
  | unfold => "Unfold"
  | fold => "Fold"
  | reduce r => r.inspect
  | dedup => "Dedup"
  | group => "Group"
  | order => "OrderBy"
  | skip n => inspectCall "Skip" [n.inspect]
  | limit n => inspectCall "Limit" [n.inspect]
  | range low high => inspectCall "Range" [low.inspect, high.inspect]
  | union ts => inspectCall "Union" [inspectList (inspectEach ts)]
  | choose c y n =>
    inspectCall "Choose"
      [inspectTraversal (inspects c), inspectTraversal (inspects y), inspectTraversal (inspects n)]
  | coalesce ts => inspectCall "Coalesce" [inspectList (inspectEach ts)]
  | flatMap t => inspectCall "FlatMap" [inspectTraversal (inspects t)]
  | identity => "Identity"
  | barrier => "Barrier"
  | addVertex l => inspectCall "AddV" [inspectOption l]
  | addEdge l => inspectCall "AddE" [Text.inspect l]
  | fromLabel l => inspectCall "From" [Text.inspect l]
  | toLabel l => inspectCall "To" [Text.inspect l]
  | property key t => inspectCall "Property" [Text.inspect key, inspectTraversal (inspects t)]

def inspects : List Step → List String
  | [] => []
  | s :: ss => inspect s :: inspects ss

def inspectEach : List (List Step) → List String
  | [] => []
  | t :: ts => inspectTraversal (inspects t) :: inspectEach ts

end

end Step
end CypherTraversal
