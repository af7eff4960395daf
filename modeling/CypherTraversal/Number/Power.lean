/-! # Powers

The powers that binary and decimal numbers are built from. -/

namespace CypherTraversal

def twoTo (n : Nat) : Nat :=
  Nat.pow 2 n

def tenTo (n : Nat) : Nat :=
  Nat.pow 10 n

end CypherTraversal
