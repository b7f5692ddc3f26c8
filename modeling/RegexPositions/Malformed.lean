/-!
# Malformed expressions

An expression that describes no tree has one cause, `Malformed`, which holds what its
explanation needs: the index of the character at fault, counted from zero, or the number of
subtrees left. `Malformed.message` words the explanation.
-/

namespace RegexPositions

/-- Why an expression describes no tree. Indices count characters from zero. -/
inductive Malformed where
  /-- The operator written `op` at `index` found fewer subtrees before it than it takes. -/
  | missingOperand (index : Nat) (op : Char)
  /-- All tokens were used up, and `count` subtrees, more than one, remain. -/
  | unconsumedOperands (count : Nat)
  /-- There is no token at all. -/
  | emptyExpression
  /-- The grouping character `symbol` stands at `index`, where only operands and operators may. -/
  | unresolvedMetacharacter (index : Nat) (symbol : Char)
  /-- The escape character at `index` is the last one, so it escapes nothing. -/
  | danglingEscape (index : Nat)
  deriving DecidableEq, Repr

/-- The explanation of a malformed expression, in words. -/
def Malformed.message : Malformed → String
  | missingOperand index op => s!"malformed expression (missing operand for '{op}') at {index}"
  | unconsumedOperands count => s!"malformed expression ({count} subtrees left, expected 1)"
  | emptyExpression => "malformed expression (empty)"
  | unresolvedMetacharacter index symbol =>
      s!"malformed expression (unresolved metacharacter '{symbol}') at {index}"
  | danglingEscape index => s!"malformed expression (ends with '\\') at {index}"

instance : ToString Malformed := ⟨Malformed.message⟩

end RegexPositions
