import RegexPositions.Tree.Basic

/-!
# Attributes

What a subtree may start and end with follows from what its operands may start and end with, by
one rule per operator: `Attributes.leaf`, `Attributes.unary`, `Attributes.binary`.
`Tree.decorate` applies the rules to all nodes in the order of the array. Operands come before
their operator there, so one walk is enough, and since old attributes are not read, a second
walk changes nothing.
-/

namespace RegexPositions

namespace Attributes

/-- A leaf matches one position: it is first and last, and the empty word is not matched. -/
def leaf (position : Nat) : Attributes :=
  ⟨false, .singleton position, .singleton position⟩

/-- An operand may start and end as before. The empty word is matched if the operand may be left
out, or matches it itself. -/
def unary (op : UnaryOp) (operand : Attributes) : Attributes :=
  { operand with nullable := op.vanishes || operand.nullable }

/-- One after the other: the first position is the second operand's only where the first operand
matches the empty word, and likewise for the last. -/
def concat (left right : Attributes) : Attributes where
  nullable := left.nullable && right.nullable
  first := if left.nullable then left.first ∪ right.first else left.first
  last := if right.nullable then left.last ∪ right.last else right.last

/-- Either operand: all that holds for one of them. -/
def union (left right : Attributes) : Attributes where
  nullable := left.nullable || right.nullable
  first := left.first ∪ right.first
  last := left.last ∪ right.last

/-- The attributes of an operator with two operands from theirs. -/
def binary : BinaryOp → Attributes → Attributes → Attributes
  | .concat => concat
  | .union => union

/-- The attributes of a node from those of the nodes made before it. -/
def ofShape (earlier : Array Node) (shape : Shape) : Attributes :=
  match shape with
  | .leaf _ position _ => leaf position
  | .unary op operand => unary op (attributesAt earlier operand)
  | .binary op left right => binary op (attributesAt earlier left) (attributesAt earlier right)

end Attributes

/-- One more node with its attributes, behind the nodes that have theirs. -/
def decorateNext (earlier : Array Node) (node : Node) : Array Node :=
  earlier.push ⟨node.shape, .ofShape earlier node.shape⟩

/-- Nodes come one after the other: what holds of none, and of one more whenever it holds of
those before, holds of all. -/
@[elab_as_elim] theorem nodes_induction {motive : Array Node → Prop} (empty : motive #[])
    (push : ∀ nodes node, motive nodes → motive (nodes.push node)) (nodes : Array Node) :
    motive nodes := by
  generalize hn : nodes.size = n
  induction n generalizing nodes with
  | zero => rwa [Array.eq_empty_of_size_eq_zero hn]
  | succ n ih =>
      obtain ⟨earlier, node, rfl⟩ := Array.eq_push_of_size_ne_zero (by omega : nodes.size ≠ 0)
      exact push earlier node (ih earlier (by simpa using hn))

/-- Nodes with their attributes, from the first node on. -/
def decorateNodes (nodes : Array Node) : Array Node :=
  nodes.foldl decorateNext (Array.emptyWithCapacity nodes.size)

/-- Without nodes there is nothing to decorate. -/
@[simp] theorem decorateNodes_empty : decorateNodes #[] = #[] := rfl

/-- A last node is decorated when the others are. -/
@[simp] theorem decorateNodes_push (nodes : Array Node) (node : Node) :
    decorateNodes (nodes.push node) = decorateNext (decorateNodes nodes) node := by
  simp [decorateNodes, ← Array.foldl_toList]

/-- Decorating leaves as many nodes. -/
@[simp] theorem size_decorateNodes (nodes : Array Node) :
    (decorateNodes nodes).size = nodes.size := by
  induction nodes using nodes_induction with
  | empty => rfl
  | push nodes node ih => simp [decorateNext, ih]

/-- Shapes stay as they are. -/
@[simp] theorem map_shape_decorateNodes (nodes : Array Node) :
    (decorateNodes nodes).map Node.shape = nodes.map Node.shape := by
  induction nodes using nodes_induction with
  | empty => rfl
  | push nodes node ih => simp [decorateNext, ih]

/-- The attributes depend on the shapes alone. -/
theorem decorateNodes_congr {nodes others : Array Node}
    (h : nodes.map Node.shape = others.map Node.shape) :
    decorateNodes nodes = decorateNodes others := by
  induction nodes using nodes_induction generalizing others with
  | empty =>
      have hsize : others.size = 0 := by simpa using (congrArg Array.size h).symm
      rw [Array.eq_empty_of_size_eq_zero hsize]
  | push nodes node ih =>
      have hsize : others.size ≠ 0 := by
        have := congrArg Array.size h
        simp only [Array.map_push, Array.size_push, Array.size_map] at this
        omega
      obtain ⟨others, other, rfl⟩ := Array.eq_push_of_size_ne_zero hsize
      rw [Array.map_push, Array.map_push, Array.push_eq_push] at h
      rw [decorateNodes_push, decorateNodes_push, ih h.2, decorateNext, decorateNext, h.1]

/-- Once is enough. -/
@[simp] theorem decorateNodes_decorateNodes (nodes : Array Node) :
    decorateNodes (decorateNodes nodes) = decorateNodes nodes :=
  decorateNodes_congr (map_shape_decorateNodes nodes)

/-- The tree with the attributes of every node. -/
def Tree.decorate (tree : Tree) : Tree where
  nodes := decorateNodes tree.nodes
  leaves := tree.leaves
  root := tree.root
  root_lt := by
    rw [size_decorateNodes]
    exact tree.root_lt

/-- A tree that is decorated once more stays as it is. -/
@[simp] theorem Tree.decorate_decorate (tree : Tree) : tree.decorate.decorate = tree.decorate := by
  simp only [Tree.decorate, decorateNodes_decorateNodes]

end RegexPositions
