import RegexPositions.PositionAutomaton

/-!
# Runs of a position automaton

A word is read along a walk through the positions: it begins at a start position and each
position is followed by one of its follow set, while the leaves on the way carry the letters of
the word. The word is accepted if such a walk can end at the end marker.
-/

namespace RegexPositions

namespace PositionAutomaton

/-- Position `q` may come directly after position `p`. -/
def Follows (automaton : PositionAutomaton) (p q : Nat) : Prop :=
  ∃ follow, automaton.follow? p = some follow ∧ q ∈ follow

/-- The leaf at position `p` carries the character `c`. -/
def Carries (automaton : PositionAutomaton) (p : Nat) (c : Char) : Prop :=
  (automaton.tree.leaf? p).map Node.symbol = some c

/-- From position `p` on, the word can be read to the end marker. -/
inductive ReadsFrom (automaton : PositionAutomaton) : Nat → List Char → Prop
  /-- At the end marker, nothing is left to read. -/
  | done {p : Nat} (h : automaton.endMarker? = some p) : ReadsFrom automaton p []
  /-- The letter of the position is read, and the rest from a position that may follow. -/
  | step {p q : Nat} {c : Char} {w : List Char} (hc : automaton.Carries p c)
      (hq : automaton.Follows p q) : ReadsFrom automaton q w → ReadsFrom automaton p (c :: w)

/-- The automaton **accepts** a word that can be read from a start position. -/
def Accepts (automaton : PositionAutomaton) (w : List Char) : Prop :=
  ∃ p ∈ automaton.startPositions, automaton.ReadsFrom p w

end PositionAutomaton

end RegexPositions
