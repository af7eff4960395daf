/-! # Runs of characters

A property of characters is given by runs: the lengths of the stretches that lack it and of those
that have it, in turn. The tables of this folder begin behind ASCII; the ASCII part of each property
is stated beside its table, so that a question about an ASCII character never walks the table. -/

namespace CypherTraversal.Text

def inRuns : List Nat → Nat → Bool
  | gap :: run :: rest, n => gap ≤ n && (n < gap + run || inRuns rest (n - (gap + run)))
  | _, _ => false

end CypherTraversal.Text
