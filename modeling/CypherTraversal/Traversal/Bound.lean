import CypherTraversal.Error
import CypherTraversal.Value.Basic

/-! # Counting rows -/

namespace CypherTraversal

def Value.rowCount (clause : String) (v : Value) : Except Error Nat :=
  match v with
  | .scalar (.int n) => if 0 ≤ n then .ok n.natAbs else .error (.range clause v.text)
  | v => .error (.range clause v.text)

end CypherTraversal
