/-!
# Operators

The operators of a regular expression in reverse Polish form, and the characters that write
them.

* `UnaryOp` — `*` (zero or more), `+` (one or more) and `?` (zero or one);
* `BinaryOp` — `.` (one after the other) and `|` (either of the two).

`ofSymbol?` reads what `symbol` writes, and nothing else (`UnaryOp.ofSymbol?_eq_some_iff`,
`BinaryOp.ofSymbol?_eq_some_iff`), and no character writes an operator of both kinds
(`UnaryOp.symbol_ne_symbol`).
-/

namespace RegexPositions

/-- The operators that take one operand. -/
inductive UnaryOp where
  /-- Zero or more times. -/
  | star
  /-- One or more times. -/
  | plus
  /-- At most once. -/
  | optional
  deriving DecidableEq, Repr

/-- The operators that take two operands. -/
inductive BinaryOp where
  /-- One operand after the other. -/
  | concat
  /-- Either operand. -/
  | union
  deriving DecidableEq, Repr

namespace UnaryOp

/-- The character that writes the operator. -/
def symbol : UnaryOp → Char
  | star => '*'
  | plus => '+'
  | optional => '?'

/-- The operator that a character writes, if any. -/
def ofSymbol? : Char → Option UnaryOp
  | '*' => some star
  | '+' => some plus
  | '?' => some optional
  | _ => none

/-- May the operand be matched more than once? -/
def repeats : UnaryOp → Bool
  | star | plus => true
  | optional => false

/-- May the operand be left out altogether? -/
def vanishes : UnaryOp → Bool
  | star | optional => true
  | plus => false

/-- A character is read as a unary operator exactly if it is the symbol of it. -/
theorem ofSymbol?_eq_some_iff {c : Char} {op : UnaryOp} :
    ofSymbol? c = some op ↔ c = op.symbol := by
  constructor
  · intro h
    unfold ofSymbol? at h
    split at h <;> cases h <;> rfl
  · rintro rfl
    cases op <;> rfl

/-- The symbol of a unary operator is read as the operator. -/
@[simp] theorem ofSymbol?_symbol (op : UnaryOp) : ofSymbol? op.symbol = some op :=
  ofSymbol?_eq_some_iff.mpr rfl

end UnaryOp

namespace BinaryOp

/-- The character that writes the operator. -/
def symbol : BinaryOp → Char
  | concat => '.'
  | union => '|'

/-- The operator that a character writes, if any. -/
def ofSymbol? : Char → Option BinaryOp
  | '.' => some concat
  | '|' => some union
  | _ => none

/-- A character is read as a binary operator exactly if it is the symbol of it. -/
theorem ofSymbol?_eq_some_iff {c : Char} {op : BinaryOp} :
    ofSymbol? c = some op ↔ c = op.symbol := by
  constructor
  · intro h
    unfold ofSymbol? at h
    split at h <;> cases h <;> rfl
  · rintro rfl
    cases op <;> rfl

/-- The symbol of a binary operator is read as the operator. -/
@[simp] theorem ofSymbol?_symbol (op : BinaryOp) : ofSymbol? op.symbol = some op :=
  ofSymbol?_eq_some_iff.mpr rfl

end BinaryOp

/-- No character writes both a unary and a binary operator. -/
theorem UnaryOp.symbol_ne_symbol (u : UnaryOp) (b : BinaryOp) : u.symbol ≠ b.symbol := by
  cases u <;> cases b <;> decide

end RegexPositions
