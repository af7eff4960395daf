import CypherTraversal.Query.Syntax

/-! # Constant expressions

Literals, lists and maps of constants, and arithmetic on constants have a value before the query
runs. Integer arithmetic is exact: where a result leaves the 64-bit range, or a divisor is zero,
there is no value. Arithmetic with null gives null, and any other mix of numbers is computed in
floating point. -/

namespace CypherTraversal

def fitting (n : Int) : Option Value :=
  if Scalar.fits n then some (.int n) else none

def Arithmetic.ofInts? : Arithmetic → Int → Int → Option Value
  | add, a, b => fitting (a + b)
  | sub, a, b => fitting (a - b)
  | mul, a, b => fitting (a * b)
  | div, a, b => if b = 0 then none else fitting (a.tdiv b)
  | mod, a, b => if b = 0 || !Scalar.fits (a.tdiv b) then none else some (.int (a.tmod b))
  | pow, _, _ => none

def Arithmetic.ofBinary64 : Arithmetic → Binary64 → Binary64 → Binary64
  | add => .add
  | sub => .sub
  | mul => .mul
  | div => .div
  | mod => .rem
  | pow => .pow

def Arithmetic.apply? (op : Arithmetic) (a b : Value) : Option Value :=
  if a.isNull || b.isNull then some .null
  else match op, a, b with
    | .add, .scalar (.str s), .scalar (.str t) => some (.str (s ++ t))
    | .add, .list xs, .list ys => some (.list (xs ++ ys))
    | op, a, b =>
      match op == .pow, a, b with
      | false, .scalar (.int m), .scalar (.int n) => op.ofInts? m n
      | _, a, b => do
        let x ← a.toBinary64?
        let y ← b.toBinary64?
        pure (.float (op.ofBinary64 x y))

def Value.negate? : Value → Option Value
  | .scalar .null => some .null
  | .scalar (.int n) => fitting (-n)
  | .scalar (.float x) => some (.float x.neg)
  | _ => none

namespace Expr

mutual

def constant? : Expr → Option Value
  | literal s => some (.scalar s)
  | list items => (constants? items).map .list
  | map entries => (constantEntries? entries).map fun es => .map (Entries.ofList es)
  | unary .negate e => (constant? e).bind Value.negate?
  | binary l (.arith a) r =>
    match constant? l, constant? r with
    | some x, some y => a.apply? x y
    | _, _ => none
  | _ => none

def constants? : List Expr → Option (List Value)
  | [] => some []
  | e :: es =>
    match constant? e, constants? es with
    | some v, some vs => some (v :: vs)
    | _, _ => none

def constantEntries? : List (String × Expr) → Option (List (String × Value))
  | [] => some []
  | (k, e) :: es =>
    match constant? e, constantEntries? es with
    | some v, some vs => some ((k, v) :: vs)
    | _, _ => none

end

end Expr
end CypherTraversal
