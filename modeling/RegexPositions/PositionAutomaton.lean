import RegexPositions.PositionSet.Cursor
import RegexPositions.Tree.Assembly
import RegexPositions.Tree.Attributes
import RegexPositions.Tree.Follow.Basic

/-!
# Position automata

The positions of a finished syntax tree are the states of an automaton. A word is read by going
from position to position, beginning with one of the `startPositions` and stepping from each
position to one of those in `follow?`; the letters on the way are the symbols of the leaves.
`endMarker?` is the position at which a word is complete, where the expression ends with an end
marker.
-/

namespace RegexPositions

/-- A **position automaton**: a syntax tree with all attributes and follow sets on record. -/
structure PositionAutomaton where
  /-- The tree. -/
  tree : Tree
  deriving DecidableEq

namespace PositionAutomaton

/-- The automaton of a syntax tree. -/
def ofTree (tree : Tree) : PositionAutomaton :=
  ⟨tree.decorate.recordFollow⟩

/-- The automaton of an expression. -/
def ofExpression (expression : String) : Except Malformed PositionAutomaton :=
  ofTree <$> Tree.ofExpression expression

/-- The positions with which a word may start. -/
def startPositions (automaton : PositionAutomaton) : PositionSet :=
  automaton.tree.rootNode.attributes.first

/-- The positions that follow a position. -/
def follow? (automaton : PositionAutomaton) (position : Nat) : Option PositionSet :=
  (automaton.tree.leaf? position).bind Node.follow?

/-- The last position, if its leaf is an end marker. -/
def endMarker? (automaton : PositionAutomaton) : Option Nat :=
  ((automaton.tree.leaf? automaton.tree.leafCount).filter Node.isEndMarker).bind Node.position?

end PositionAutomaton

end RegexPositions
