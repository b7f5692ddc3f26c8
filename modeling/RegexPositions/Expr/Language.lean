import Mathlib.Computability.Language
import RegexPositions.Expr.Basic

/-!
# Languages

The language of an expression, in two readings that differ only in what a leaf stands for.
`Expr.denote` leaves that open: it takes the letter that the leaf with a given position stands
for.

* `Expr.language` — the words over characters that the expression matches;
* `Expr.marked` — the words over positions, where the leaf with position `p` stands for `p`.
-/

open scoped Computability

namespace RegexPositions

namespace Expr

variable {α : Type}

/-- The language of an expression whose first leaf has position `start`, where `word` gives the
letter that a leaf stands for. -/
def denote (word : Nat → Letter → α) (start : Nat) : Expr → Language α
  | leaf letter => {[word start letter]}
  | unary .star e => (e.denote word start)∗
  | unary .plus e => e.denote word start * (e.denote word start)∗
  | unary .optional e => 1 + e.denote word start
  | binary .concat l r => l.denote word start * r.denote word (start + l.leafCount)
  | binary .union l r => l.denote word start + r.denote word (start + l.leafCount)

/-- The **language** of an expression. -/
def language (e : Expr) : Language Char :=
  e.denote (fun _ letter => letter.symbol) 1

/-- The **marked language** of an expression whose first leaf has position `start`: each leaf
stands for its position. -/
def marked (start : Nat) (e : Expr) : Language Nat :=
  e.denote (fun position _ => position) start

end Expr

end RegexPositions
