import RegexPositions.Operator
import RegexPositions.PositionSet.Basic
import RegexPositions.Token.Basic

/-!
# Syntax trees

A `Tree` keeps its nodes in one array, in the order in which they came about: operands before
the operator that takes them. A node is named by its id, its index in that array, and an
operator node holds the ids of its operands. The leaves are numbered from 1 in the order of the
expression; the number of a leaf is its position.

A node has a `Shape`, fixed when it is made except for the follow set of a leaf, and
`Attributes`, which say what its subtree may start and end with. A fresh node has blank
attributes.

An id makes sense only in the tree it comes from. `Tree.fetch` and `Tree.child?` take ids as they
come and refuse one that names no node of this tree (`NoSuchNode`).
-/

namespace RegexPositions

/-- What a **leaf** stands for: a character of the word that is matched, or the end of it. -/
inductive Letter where
  /-- The character `c`. -/
  | operand (c : Char)
  /-- The end of the word. -/
  | endMarker
  deriving DecidableEq, Repr

/-- The character that the expression has for the leaf. -/
def Letter.symbol : Letter → Char
  | operand c => c
  | endMarker => RegexPositions.endMarker

/-- The **shape** of a node: a leaf, or an operator and the ids of its operands. -/
inductive Shape where
  /-- A leaf with its position and the positions that may come next in a word. -/
  | leaf (letter : Letter) (position : Nat) (follow : PositionSet)
  /-- An operator with one operand. -/
  | unary (op : UnaryOp) (operand : Nat)
  /-- An operator with two operands. -/
  | binary (op : BinaryOp) (left right : Nat)
  deriving DecidableEq

/-- The **attributes** of a node: whether its subtree matches the empty word, and the positions
that may come first and last in a word that it matches. -/
structure Attributes where
  /-- Does the subtree match the empty word? -/
  nullable : Bool
  /-- The positions that may come first. -/
  first : PositionSet
  /-- The positions that may come last. -/
  last : PositionSet
  deriving DecidableEq

/-- The attributes of a node about which nothing is known yet. -/
def Attributes.blank : Attributes := ⟨false, ∅, ∅⟩

/-- A **node** of a syntax tree. -/
structure Node where
  /-- Leaf or operator. -/
  shape : Shape
  /-- What the subtree may start and end with. -/
  attributes : Attributes
  deriving DecidableEq

namespace Node

/-- A new node. -/
def fresh (shape : Shape) : Node := ⟨shape, .blank⟩

/-- The character of the leaf or the operator. -/
def symbol (node : Node) : Char :=
  match node.shape with
  | .leaf letter _ _ => letter.symbol
  | .unary op _ => op.symbol
  | .binary op _ _ => op.symbol

/-- The id of the only or the left operand. -/
def left? (node : Node) : Option Nat :=
  match node.shape with
  | .leaf .. => none
  | .unary _ operand => some operand
  | .binary _ left _ => some left

/-- The id of the right operand. -/
def right? (node : Node) : Option Nat :=
  match node.shape with
  | .leaf .. | .unary .. => none
  | .binary _ _ right => some right

/-- The ids of the operands from left to right. -/
def children (node : Node) : List Nat :=
  match node.shape with
  | .leaf .. => []
  | .unary _ operand => [operand]
  | .binary _ left right => [left, right]

/-- The position of a leaf. -/
def position? (node : Node) : Option Nat :=
  match node.shape with
  | .leaf _ position _ => some position
  | .unary .. | .binary .. => none

/-- The follow set of a leaf. -/
def follow? (node : Node) : Option PositionSet :=
  match node.shape with
  | .leaf _ _ follow => some follow
  | .unary .. | .binary .. => none

/-- Is the node a leaf? -/
def isLeaf (node : Node) : Bool :=
  match node.shape with
  | .leaf .. => true
  | .unary .. | .binary .. => false

/-- Is the node a leaf that stands for the end of the word? -/
def isEndMarker (node : Node) : Bool :=
  match node.shape with
  | .leaf .endMarker _ _ => true
  | .leaf (.operand _) _ _ | .unary .. | .binary .. => false

end Node

/-- The attributes on record for an id; blank if it names no node. -/
def attributesAt (nodes : Array Node) (id : Nat) : Attributes :=
  (nodes[id]?.map Node.attributes).getD .blank

/-- A **syntax tree**. -/
structure Tree where
  /-- The nodes by their ids. -/
  nodes : Array Node
  /-- The ids of the leaves in the order of their positions. -/
  leaves : Array Nat
  /-- The id of the root. -/
  root : Nat
  /-- The root is a node of the tree. -/
  root_lt : root < nodes.size
  deriving DecidableEq

/-- The id is not one of the tree it is looked up in. -/
structure NoSuchNode where
  /-- The id. -/
  id : Nat
  deriving DecidableEq, Repr

/-- A step from an operator node down to an operand. -/
inductive Side where
  /-- To the only or the left operand. -/
  | left
  /-- To the right operand. -/
  | right
  deriving DecidableEq, Repr

/-- The id of the operand on a side. -/
def Node.child? (node : Node) : Side → Option Nat
  | .left => node.left?
  | .right => node.right?

namespace Tree

/-- The node that an id names, if any. -/
def get? (tree : Tree) (id : Nat) : Option Node :=
  tree.nodes[id]?

/-- The node that an id names. -/
def fetch (tree : Tree) (id : Nat) : Except NoSuchNode Node :=
  match tree.get? id with
  | some node => .ok node
  | none => .error ⟨id⟩

/-- The root. -/
def rootNode (tree : Tree) : Node :=
  have := tree.root_lt
  tree.nodes[tree.root]

/-- The number of leaves, which is also the greatest position. -/
def leafCount (tree : Tree) : Nat :=
  tree.leaves.size

/-- The leaf at a position; there is none at position 0. -/
def leaf? (tree : Tree) : Nat → Option Node
  | 0 => none
  | position + 1 => tree.leaves[position]?.bind tree.get?

/-- The leaves in the order of their positions. -/
def leafNodes (tree : Tree) : Array Node :=
  tree.leaves.filterMap tree.get?

/-- The node of this tree that a node names as its operand on a side, if it has one there. -/
def child? (tree : Tree) (node : Node) (side : Side) : Except NoSuchNode (Option Node) :=
  match node.child? side with
  | none => .ok none
  | some id => some <$> tree.fetch id

/-- The id reached from node `id` by a path of steps. -/
def descendFrom (tree : Tree) (id : Nat) : List Side → Option Nat
  | [] => some id
  | side :: path =>
      match (tree.get? id).bind (·.child? side) with
      | none => none
      | some child => descendFrom tree child path

/-- The id reached from the root by a path of steps. -/
def descend (tree : Tree) (path : List Side) : Option Nat :=
  tree.descendFrom tree.root path

end Tree

end RegexPositions
