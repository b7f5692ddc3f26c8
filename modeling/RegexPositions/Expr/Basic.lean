import RegexPositions.Token.Basic
import RegexPositions.Tree.Basic

/-!
# Expressions

An `Expr` is a regular expression as such, apart from how it is written and how its tree is
kept. `Expr.Spells` says how it may be written in reverse Polish form: an operand is written
plain or escaped, a metacharacter only escaped, and an operator stands behind its operands.

The leaves of an expression are numbered from left to right; a subexpression is told the number
of its first leaf by the one around it.
-/

namespace RegexPositions

/-- A **regular expression**. -/
inductive Expr where
  /-- One letter. -/
  | leaf (letter : Letter)
  /-- An operator and its operand. -/
  | unary (op : UnaryOp) (operand : Expr)
  /-- An operator and its two operands. -/
  | binary (op : BinaryOp) (left right : Expr)
  deriving DecidableEq, Repr

namespace Expr

/-- The number of letters and operators. -/
def nodeCount : Expr → Nat
  | leaf _ => 1
  | unary _ e => e.nodeCount + 1
  | binary _ l r => l.nodeCount + r.nodeCount + 1

/-- The number of letters. -/
def leafCount : Expr → Nat
  | leaf _ => 1
  | unary _ e => e.leafCount
  | binary _ l r => l.leafCount + r.leafCount

/-- The letters from left to right. -/
def letters : Expr → List Letter
  | leaf letter => [letter]
  | unary _ e => e.letters
  | binary _ l r => l.letters ++ r.letters

/-- The expression read from right to left. -/
def reverse : Expr → Expr
  | leaf letter => leaf letter
  | unary op e => unary op e.reverse
  | binary op l r => binary op r.reverse l.reverse

/-- How an expression is written in reverse Polish form. -/
inductive Spells : Expr → List Char → Prop
  /-- A character that is no metacharacter may stand for itself. -/
  | plain {c : Char} (h : isMeta c = false) : Spells (leaf (.operand c)) [c]
  /-- Any character may be escaped. -/
  | escaped (c : Char) : Spells (leaf (.operand c)) [escape, c]
  /-- The end marker is its character. -/
  | endMarker : Spells (leaf .endMarker) [endMarker]
  /-- An operator follows its operand. -/
  | unary {e : Expr} {s : List Char} (op : UnaryOp) : Spells e s →
      Spells (unary op e) (s ++ [op.symbol])
  /-- An operator follows its two operands. -/
  | binary {l r : Expr} {s t : List Char} (op : BinaryOp) : Spells l s → Spells r t →
      Spells (binary op l r) (s ++ t ++ [op.symbol])

/-- Several expressions, the latest first, written one after the other. -/
inductive SpellsAll : List Expr → List Char → Prop
  /-- Nothing is written as nothing. -/
  | nil : SpellsAll [] []
  /-- The latest expression is written last. -/
  | cons {e : Expr} {es : List Expr} {s t : List Char} : SpellsAll es s → Spells e t →
      SpellsAll (e :: es) (s ++ t)

/-- A list of one expression is spelled as the expression is. -/
theorem spellsAll_singleton_iff {e : Expr} {s : List Char} : SpellsAll [e] s ↔ Spells e s := by
  constructor
  · intro h
    cases h with
    | cons h he =>
        cases h
        exact he
  · exact fun h => .cons .nil h

/-- Every expression has a node. -/
theorem nodeCount_pos (e : Expr) : 0 < e.nodeCount := by
  cases e <;> simp [nodeCount]

/-- Every expression has a leaf. -/
theorem leafCount_pos (e : Expr) : 0 < e.leafCount := by
  induction e with
  | leaf _ => exact Nat.one_pos
  | unary _ _ ih => exact ih
  | binary _ _ _ ihl _ => exact Nat.add_pos_left ihl _

/-- An expression has one letter for each leaf. -/
theorem length_letters (e : Expr) : e.letters.length = e.leafCount := by
  induction e with
  | leaf _ => rfl
  | unary _ _ ih => exact ih
  | binary _ _ _ ihl ihr => rw [letters, List.length_append, ihl, ihr, leafCount]

/-- Reading an expression backwards twice is reading it forwards. -/
theorem reverse_reverse (e : Expr) : e.reverse.reverse = e := by
  induction e with
  | leaf _ => rfl
  | unary _ _ ih => rw [reverse, reverse, ih]
  | binary _ _ _ ihl ihr => rw [reverse, reverse, ihl, ihr]

end Expr

end RegexPositions
