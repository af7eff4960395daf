/-! # Errors

Why a query, a program or a document is refused. Each cause carries what its message needs;
`Error.message` is the one place where causes become words. -/

namespace CypherTraversal

inductive ParseFault where
  | unreadable (piece : String) (offset : Nat)
  | empty
  | expected (what found : String) (offset : Nat)
  | ended (what : String)
deriving DecidableEq, Repr

def ParseFault.message : ParseFault → String
  | unreadable piece offset => s!"unexpected `{piece}` at offset {offset}"
  | empty => "empty query"
  | expected what found offset => s!"expected {what} but found `{found}` at offset {offset}"
  | ended what => s!"expected {what} but reached end of input"

inductive QueryFault where
  | empty
  | returnNotLast
  | concludesWith (clause : String)
  | mixedUnion
  | unionWithoutReturn
  | unionColumns
  | malformedPattern (text : String)
  | declaredTwice (name : String)
  | unaliased (text : String)
  | starWithoutVariables (clause : String)
  | aggregateArguments (name : String)
  | argumentCount (name : String)
  | missingArgument (name : String)
  | nodeDeclared (name : String)
  | relationshipDeclared (name : String)
  | relationshipType
  | relationshipTypeMissing
  | undirected
deriving DecidableEq, Repr

def QueryFault.message : QueryFault → String
  | empty => "Empty query"
  | returnNotLast => "RETURN can only be used at the end of the query"
  | concludesWith clause => s!"Query cannot conclude with {clause} (must be RETURN or CREATE)"
  | mixedUnion => "Invalid combination of UNION and UNION ALL"
  | unionWithoutReturn => "Every query combined with UNION must end with RETURN"
  | unionColumns => "All sub queries in a UNION must have the same column names"
  | malformedPattern text => "Malformed pattern " ++ text
  | declaredTwice name => s!"Variable `{name}` already declared"
  | unaliased text => "Expression in WITH must be aliased (use AS): " ++ text
  | starWithoutVariables clause =>
    clause ++ " * is not allowed when there are no variables in scope"
  | aggregateArguments name => name ++ "() takes exactly one argument"
  | argumentCount name => s!"Wrong number of arguments to {name}()"
  | missingArgument name => s!"Missing argument to {name}()"
  | nodeDeclared name =>
    s!"Can't create node `{name}` with labels or properties here. " ++
      "The variable is already declared in this context"
  | relationshipDeclared name =>
    s!"Can't create relationship `{name}`: the variable is already declared"
  | relationshipType => "A single relationship type must be specified for CREATE"
  | relationshipTypeMissing => "Exactly one relationship type must be specified for CREATE"
  | undirected => "Only directed relationships are supported in CREATE"

inductive Construct where
  | clause (name : String)
  | pathVariable
  | variableLength
  | multipleLabels
  | arithmetic (text : String)
  | nonConstantBound (text : String)
  | nonConstantValue (text : String)
  | nestedAggregate (text : String)
  | function (name : String)
  | existsOf (text : String)
  | starArgument (name : String)
  | patternExpression
  | comprehension
  | star
deriving DecidableEq, Repr

def Construct.text : Construct → String
  | clause name => name
  | pathVariable => "path variable"
  | variableLength => "variable-length relationship"
  | multipleLabels => "multiple labels on a node"
  | arithmetic text => s!"non-constant arithmetic `{text}`"
  | nonConstantBound text => s!"non-constant expression `{text}`"
  | nonConstantValue text => s!"non-constant value `{text}`"
  | nestedAggregate text => s!"aggregate `{text}` inside another expression"
  | function name => s!"function `{name}`"
  | existsOf text => s!"exists() of `{text}`"
  | starArgument name => name ++ "(*)"
  | patternExpression => "pattern expression"
  | comprehension => "list comprehension"
  | star => "`*` outside a projection item"

inductive IdentifierKind where
  | parameter
  | projection
deriving DecidableEq, Repr

def IdentifierKind.text : IdentifierKind → String
  | parameter => "parameter"
  | projection => "projection"

inductive ExecutionFault where
  | missingParameter (name : String)
  | notElement (key : String)
  | notVertex (object : String)
  | notNumber (object : String)
  | sumOverflow
  | scriptText
deriving DecidableEq, Repr

def ExecutionFault.message : ExecutionFault → String
  | missingParameter name => s!"Expected parameter `{name}` to be provided"
  | notElement key => s!"Cannot set property `{key}` on a non-element"
  | notVertex object => "Edge endpoint is not a vertex: " ++ object
  | notNumber object => "Expected a number, got " ++ object
  | sumOverflow => "Integer overflow in sum()"
  | scriptText =>
    "The embedded executor cannot evaluate script text; use the native or cosmosdb flavor"

inductive SettingsFault where
  | unreadableFile (path : String)
  | parametersNotObject (typeName : String)
deriving DecidableEq, Repr

def SettingsFault.message : SettingsFault → String
  | unreadableFile path => "Cannot read " ++ path
  | parametersNotObject typeName => "Parameters must be a JSON object, got " ++ typeName

/-- All ways in which a call can fail. -/
inductive Error where
  | parse (fault : ParseFault)
  | invalid (fault : QueryFault)
  | unsupported (clause : String) (construct : Construct)
  | unbound (name clause : String)
  | ambiguous (name clause : String)
  | parameterName (name : String)
  | reserved (kind : IdentifierKind) (name flavor : String)
  | notInFlavor (construct flavor : String)
  | unknownFlavor (name supported : String)
  | range (clause got : String)
  | typeMismatch (expected found : String)
  | execution (fault : ExecutionFault)
  | notFound (element : String)
  | settings (fault : SettingsFault)
  | document
  | strayModulator (step : String)
deriving DecidableEq, Repr

namespace Error

def message : Error → String
  | parse fault => "Invalid input: " ++ fault.message
  | invalid fault => "Invalid query: " ++ fault.message
  | unsupported clause construct => s!"Unsupported construct in {clause}: " ++ construct.text
  | unbound name clause => s!"Variable `{name}` not defined in {clause}"
  | ambiguous name clause => s!"Multiple result columns with the same name `{name}` in {clause}"
  | parameterName name => "Invalid parameter name: " ++ name
  | reserved kind name flavor =>
    "Invalid " ++ kind.text ++ s!" name: {name} (reserved word in the {flavor} flavor)"
  | notInFlavor construct flavor => s!"`{construct}` is not supported by the {flavor} flavor"
  | unknownFlavor name supported =>
    s!"Translation flavor `{name}` is not supported. " ++
      s!"Supported values: `{supported}` (case insensitive)"
  | range clause got => s!"Invalid {clause} value: expected a non-negative integer, got {got}"
  | typeMismatch expected found => s!"Type mismatch: expected {expected}, found {found}"
  | execution fault => "Execution error: " ++ fault.message
  | notFound element => "Element not found: " ++ element
  | settings fault => "Configuration error: " ++ fault.message
  | document => "Serialization error"
  | strayModulator step => s!"Internal error: Modulator {step} without a step to modulate"

def isFlavor : Error → Bool
  | reserved .. | notInFlavor .. | unknownFlavor .. => true
  | _ => false

def isCompilation : Error → Bool
  | invalid _ | unsupported .. | unbound .. | ambiguous .. | parameterName _ | range ..
  | typeMismatch .. => true
  | e => e.isFlavor

end Error
end CypherTraversal
