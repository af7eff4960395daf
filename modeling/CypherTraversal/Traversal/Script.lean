import CypherTraversal.Traversal.Step

/-! # Traversals as script text

A traversal is written as a chain of calls from the source `g`; a traversal inside a step starts
from `__`, and an empty one is written as the identity. Parameters are written as their names. -/

namespace CypherTraversal

def reservedWords : List String :=
  ["abstract", "as", "assert", "boolean", "break", "byte", "case", "catch", "char", "class",
    "const", "continue", "def", "default", "do", "double", "else", "enum", "extends", "false",
    "final", "finally", "float", "for", "goto", "if", "implements", "import", "in", "instanceof",
    "int", "interface", "long", "native", "new", "null", "package", "private", "protected",
    "public", "return", "short", "static", "strictfp", "super", "switch", "synchronized", "this",
    "threadsafe", "throw", "throws", "trait", "transient", "true", "try", "var", "void",
    "volatile", "while", "g", "P", "__", "Column", "Order", "CustomPredicate"]

def isReserved (name : String) : Bool :=
  reservedWords.contains name

/-! ### Literals -/

def Scalar.script : Scalar → String
  | null => "null"
  | bool b => toString b
  | int n => toString n ++ if -0x80000000 ≤ n && n ≤ 0x7fffffff then "" else "L"
  | float x =>
    if x.isNaN then "Double.NaN"
    else if x.isInfinite then
      if x.isNegative then "Double.NEGATIVE_INFINITY" else "Double.POSITIVE_INFINITY"
    else x.toText .plain ++ "d"
  | str s => Text.quote s

namespace Value

mutual

def script : Value → String
  | scalar s => s.script
  | list items => "[" ++ ", ".intercalate (scriptItems items) ++ "]"
  | map [] => "[:]"
  | map entries => "[" ++ ", ".intercalate (scriptEntries entries) ++ "]"

def scriptItems : List Value → List String
  | [] => []
  | v :: vs => script v :: scriptItems vs

def scriptEntries : List (String × Value) → List String
  | [] => []
  | (k, v) :: vs => (Text.quote k ++ ": " ++ script v) :: scriptEntries vs

end

end Value

def Operand.script : Operand → String
  | value v => v.script
  | parameter name => name
  | label name => Text.quote name

def Bound.script : Bound → String
  | literal n => toString n
  | parameter name => name

def commaList (xs : List String) : String :=
  ", ".intercalate xs

def quotedList (xs : List String) : String :=
  commaList (xs.map Text.quote)

/-! ### Predicates -/

def Comparison.script : Comparison → String
  | eq => "P.eq" | ne => "P.neq" | lt => "P.lt" | le => "P.lte" | gt => "P.gt" | ge => "P.gte"

def TextMatch.script : TextMatch → String
  | startsWith => "CustomPredicate.cypherStartsWith"
  | endsWith => "CustomPredicate.cypherEndsWith"
  | contains => "CustomPredicate.cypherContains"

def writeCall (name args : String) : String :=
  name ++ "(" ++ args ++ ")"

def Predicate.script : Predicate → String
  | compare c o => writeCall c.script o.script
  | between low high => writeCall "P.between" (commaList [low.script, high.script])
  | within o => writeCall "P.within" o.script
  | without o => writeCall "P.without" o.script
  | text m o => writeCall m.script o.script

/-! ### Steps -/

def Direction.edgesName : Direction → String
  | outgoing => "outE" | incoming => "inE" | both => "bothE"

def Endpoint.stepName : Endpoint → String
  | target => "inV" | source => "outV" | other => "otherV"

def Reduction.stepName : Reduction → String
  | count => "count" | sum => "sum" | min => "min" | max => "max" | mean => "mean"

def Column.script : Column → String
  | keys => "Column.keys" | values => "Column.values"

def SortOrder.script : SortOrder → String
  | asc => "Order.asc" | desc => "Order.desc"

def nestedScript (calls : List String) : String :=
  if calls.isEmpty then "__.identity()" else "__" ++ String.join (calls.map ("." ++ ·))

namespace Step

mutual

def script : Step → String
  | vertices => "V()"
  | inject vs => writeCall "inject" (commaList (Value.scriptItems vs))
  | hasLabel labels => writeCall "hasLabel" (quotedList labels)
  | has key => writeCall "has" (Text.quote key)
  | hasPredicate key p => writeCall "has" (commaList [Text.quote key, p.script])
  | hasNot key => writeCall "hasNot" (Text.quote key)
  | is p => writeCall "is" p.script
  | .filter t => writeCall "where" (nestedScript (scripts t))
  | wherePredicate p => writeCall "where" p.script
  | .not t => writeCall "not" (nestedScript (scripts t))
  | .and ts => writeCall "and" (commaList (scriptEach ts))
  | .or ts => writeCall "or" (commaList (scriptEach ts))
  | edges d labels => writeCall d.edgesName (quotedList labels)
  | endpoint e => writeCall e.stepName ""
  | mark l => writeCall "as" (Text.quote l)
  | select l => writeCall "select" (Text.quote l)
  | selectColumn c => writeCall "select" c.script
  | values key => writeCall "values" (Text.quote key)
  | properties key => writeCall "properties" (Text.quote key)
  | value => "value()"
  | id => "id()"
  | label => "label()"
  | constant o => writeCall "constant" o.script
  | project keys => writeCall "project" (quotedList keys)
  | .by t => writeCall "by" (nestedScript (scripts t))
  | byOrder t o => writeCall "by" (commaList [nestedScript (scripts t), o.script])
  | unfold => "unfold()"
  | fold => "fold()"
  | reduce r => writeCall r.stepName ""
  | dedup => "dedup()"
  | group => "group()"
  | order => "order()"
  | skip n => writeCall "skip" n.script
  | limit n => writeCall "limit" n.script
  | range low high => writeCall "range" (commaList [low.script, high.script])
  | union ts => writeCall "union" (commaList (scriptEach ts))
  | choose c y n =>
    writeCall "choose"
      (commaList [nestedScript (scripts c), nestedScript (scripts y), nestedScript (scripts n)])
  | coalesce ts => writeCall "coalesce" (commaList (scriptEach ts))
  | flatMap t => writeCall "flatMap" (nestedScript (scripts t))
  | identity => "identity()"
  | barrier => "barrier()"
  | addVertex l => writeCall "addV" ((l.map Text.quote).getD "")
  | addEdge l => writeCall "addE" (Text.quote l)
  | fromLabel l => writeCall "from" (Text.quote l)
  | toLabel l => writeCall "to" (Text.quote l)
  | property key [constant o] => writeCall "property" (commaList [Text.quote key, o.script])
  | property key t => writeCall "property" (commaList [Text.quote key, nestedScript (scripts t)])

def scripts : List Step → List String
  | [] => []
  | s :: ss => script s :: scripts ss

def scriptEach : List (List Step) → List String
  | [] => []
  | t :: ts => nestedScript (scripts t) :: scriptEach ts

end

end Step

def Traversal.script (t : Traversal) : String :=
  "g" ++ String.join ((Step.scripts t).map ("." ++ ·))

end CypherTraversal
