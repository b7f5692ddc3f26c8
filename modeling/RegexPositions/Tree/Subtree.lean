import RegexPositions.Expr.Basic

/-!
# Subtrees

`Tree.HasSubtree` relates an id to the expression that the nodes below it make up: the tree is
read from the node down, and the expression is what is found. Follow sets and attributes play no
part in it.
-/

namespace RegexPositions

/-- Below node `id` of the tree stands the expression `e`, and `start` is the position of its
first leaf. -/
inductive Tree.HasSubtree (tree : Tree) : (id start : Nat) → Expr → Prop
  /-- A leaf is a letter. -/
  | leaf {id start : Nat} {letter : Letter} {follow : PositionSet}
      (h : (tree.get? id).map Node.shape = some (.leaf letter start follow)) :
      HasSubtree tree id start (.leaf letter)
  /-- An operator node with one operand. -/
  | unary {id start operand : Nat} {op : UnaryOp} {e : Expr}
      (h : (tree.get? id).map Node.shape = some (.unary op operand)) :
      HasSubtree tree operand start e → HasSubtree tree id start (.unary op e)
  /-- An operator node with two operands, whose leaves follow each other. -/
  | binary {id start left right : Nat} {op : BinaryOp} {l r : Expr}
      (h : (tree.get? id).map Node.shape = some (.binary op left right)) :
      HasSubtree tree left start l → HasSubtree tree right (start + l.leafCount) r →
      HasSubtree tree id start (.binary op l r)

namespace Tree.HasSubtree

variable {tree : Tree} {id start : Nat} {e : Expr}

/-! The shape of a node is that of the expression, and the operands stand below its children. -/

/-- Below a leaf stands its letter, at its position. -/
theorem of_leaf {letter : Letter} {position : Nat} {follow : PositionSet}
    (h : tree.HasSubtree id start e)
    (hshape : (tree.get? id).map Node.shape = some (.leaf letter position follow)) :
    e = .leaf letter ∧ start = position := by
  cases h with
  | leaf hshape' =>
      cases hshape.symm.trans hshape'
      exact ⟨rfl, rfl⟩
  | unary hshape' _ => cases hshape.symm.trans hshape'
  | binary hshape' _ _ => cases hshape.symm.trans hshape'

/-- Below a unary operator stands the operator with what stands below its operand. -/
theorem of_unary {op : UnaryOp} {operand : Nat} (h : tree.HasSubtree id start e)
    (hshape : (tree.get? id).map Node.shape = some (.unary op operand)) :
    ∃ e', e = .unary op e' ∧ tree.HasSubtree operand start e' := by
  cases h with
  | leaf hshape' => cases hshape.symm.trans hshape'
  | unary hshape' hoperand =>
      cases hshape.symm.trans hshape'
      exact ⟨_, rfl, hoperand⟩
  | binary hshape' _ _ => cases hshape.symm.trans hshape'

/-- Below a binary operator stands the operator with what stands below its operands, side by side.
-/
theorem of_binary {op : BinaryOp} {left right : Nat} (h : tree.HasSubtree id start e)
    (hshape : (tree.get? id).map Node.shape = some (.binary op left right)) :
    ∃ l r, e = .binary op l r ∧ tree.HasSubtree left start l ∧
      tree.HasSubtree right (start + l.leafCount) r := by
  cases h with
  | leaf hshape' => cases hshape.symm.trans hshape'
  | unary hshape' _ => cases hshape.symm.trans hshape'
  | binary hshape' hleft hright =>
      cases hshape.symm.trans hshape'
      exact ⟨_, _, rfl, hleft, hright⟩

/-- The nodes that have a position are those that stand for a letter. -/
theorem position?_eq_some_iff {node : Node} {p : Nat} (h : tree.HasSubtree id start e)
    (hnode : tree.get? id = some node) :
    node.position? = some p ↔ (∃ letter, e = .leaf letter) ∧ p = start := by
  obtain ⟨shape, attributes⟩ := node
  cases h with
  | leaf hshape =>
      rw [hnode] at hshape
      obtain rfl : shape = _ := Option.some.inj hshape
      exact ⟨fun hp => ⟨⟨_, rfl⟩, (Option.some.inj hp).symm⟩, fun hp => congrArg some hp.2.symm⟩
  | unary hshape _ | binary hshape _ _ =>
      rw [hnode] at hshape
      obtain rfl : shape = _ := Option.some.inj hshape
      exact iff_of_false nofun nofun

end Tree.HasSubtree

end RegexPositions
