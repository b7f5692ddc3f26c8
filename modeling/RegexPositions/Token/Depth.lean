import RegexPositions.Token.Reader

/-!
# Depth

Whether an expression in reverse Polish form is well formed can be told by counting. The **depth**
at a place is the number of subtrees that the tokens before it leave: an operand adds one, an
operator with two operands takes one away. An operator is at fault where the depth is below the
number of its operands, a grouping character always. `diagnose?` scans an expression for its
first fault and looks at the depth at the end; it makes no tree.
-/

namespace RegexPositions

namespace TokenReader

/-- The depth after an item. -/
def depthAfter (depth : Nat) (item : Item) : Nat :=
  match item with
  | .ok placed =>
      match placed.token with
      | .operand _ | .escaped _ | .endMarker => depth + 1
      | .binary _ => depth - 1
      | .unary _ | .grouping _ => depth
  | .error _ => depth

/-- What is wrong with an item at a depth, if anything. -/
def fault? (depth : Nat) (item : Item) : Option Malformed :=
  match item with
  | .ok placed =>
      match placed.token with
      | .operand _ | .escaped _ | .endMarker => none
      | .unary op => if depth < 1 then some (.missingOperand placed.index op.symbol) else none
      | .binary op => if depth < 2 then some (.missingOperand placed.index op.symbol) else none
      | .grouping c => some (.unresolvedMetacharacter placed.index c)
  | .error cause => some cause

/-- The first fault among items, or the depth after all of them. -/
def scanDepth (depth : Nat) : List Item → Except Malformed Nat
  | [] => .ok depth
  | item :: items =>
      match fault? depth item with
      | some cause => .error cause
      | none => scanDepth (depthAfter depth item) items

end TokenReader

/-- Why an expression is malformed, if it is. -/
def diagnose? (expression : String) : Option Malformed :=
  match TokenReader.scanDepth 0 (TokenReader.ofExpression expression).readAll.1.toList with
  | .error cause => some cause
  | .ok 0 => some .emptyExpression
  | .ok 1 => none
  | .ok depth => some (.unconsumedOperands depth)

end RegexPositions
