import RegexPositions.Expr.Language
import RegexPositions.Expr.Layout
import RegexPositions.PositionAutomaton.Run
import RegexPositions.Token.Depth
import RegexPositions.Tree.Follow.Lemmas
import RegexPositions.Tree.Pass
import RegexPositions.Tree.Subtree
import RegexPositions.Proofs.Expr.Ends
import RegexPositions.Proofs.Expr.Neighbours
import RegexPositions.Proofs.Tree.Layout
import RegexPositions.Proofs.Tree.Attributes
import RegexPositions.Proofs.PositionAutomaton.Marked
import RegexPositions.Proofs.Expr.Letters
import RegexPositions.Proofs.PositionAutomaton.Language
import RegexPositions.Proofs.Token.Depth
import RegexPositions.Proofs.Tree.Malformed
import RegexPositions.Proofs.PositionSet.Refinement
import RegexPositions.Proofs.Tree.Stages
import RegexPositions.Proofs.Tree.Tokens
import RegexPositions.Proofs.Tree.Arena
import RegexPositions.Proofs.Expr.Shift
import RegexPositions.Proofs.PositionAutomaton.Composition
import RegexPositions.Proofs.PositionSet.Canonical
import RegexPositions.Proofs.PositionSet.Safe
import RegexPositions.Proofs.Token.Spelling
import RegexPositions.Proofs.Tree.FollowTable
import RegexPositions.Proofs.Tree.Reading
import RegexPositions.Proofs.Tree.Bounds
import RegexPositions.Proofs.Tree.Equality
import RegexPositions.Proofs.Expr.Alike
import RegexPositions.Proofs.Expr.Collapse
import RegexPositions.Proofs.Expr.Mirror
import RegexPositions.Proofs.PositionAutomaton.Associativity
import RegexPositions.Proofs.PositionAutomaton.Collapse
import RegexPositions.Proofs.PositionAutomaton.Mirror
import RegexPositions.Proofs.PositionAutomaton.Reachable
