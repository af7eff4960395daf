import CypherTraversal.Document
import CypherTraversal.Main
import CypherTraversal.Proofs.Parameters
import CypherTraversal.Proofs.Conditions.Compared
import CypherTraversal.Proofs.Presence.Runs
import CypherTraversal.Proofs.Names.Generated
import CypherTraversal.Proofs.Grammar.Columns
import CypherTraversal.Proofs.Grammar.Parenthesised
import CypherTraversal.Proofs.Run.Agreeing
import CypherTraversal.Proofs.Aggregates.Collected
import CypherTraversal.Proofs.Expressions.Missing
import CypherTraversal.Proofs.Patterns.Constrained
import CypherTraversal.Proofs.Resolved.Kept
import CypherTraversal.Proofs.Conditions.Folded
import CypherTraversal.Proofs.Value.Unknown
import CypherTraversal.Proofs.Query.Arithmetic
import CypherTraversal.Proofs.Lowering.Apart
import CypherTraversal.Proofs.Lowering.Ordered
