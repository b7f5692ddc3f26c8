import RegexPositions.Token.Reader
import RegexPositions.Tree.Basic

/-!
# Assembling a syntax tree

An expression in reverse Polish form is assembled token by token. An `Assembly` holds the nodes
made so far and the ids of the subtrees that no operator has taken yet, the latest first. An
operand becomes a leaf and one more subtree; an operator takes the latest subtrees and leaves
one in their place. When the tokens are used up, one subtree must remain: it is the tree
(`Tree.ofExpression`).

The first item at fault ends the assembly, so an expression has one cause of failure, the
earliest.
-/

namespace RegexPositions

/-- An **assembly**: the part of an expression read so far, as subtrees. -/
structure Assembly where
  /-- The nodes made so far. -/
  nodes : Array Node
  /-- The ids of the leaves among them. -/
  leaves : Array Nat
  /-- The ids of the subtrees that no operator has taken, the latest first. -/
  pending : List Nat
  /-- The subtrees are among the nodes. -/
  pending_lt : ∀ id ∈ pending, id < nodes.size

namespace Assembly

/-- Nothing has been read. -/
def empty : Assembly where
  nodes := #[]
  leaves := #[]
  pending := []
  pending_lt := by simp

/-- The assembly with a new leaf. -/
def addLeaf (a : Assembly) (letter : Letter) : Assembly :=
  let id := a.nodes.size
  { nodes := a.nodes.push (.fresh (.leaf letter (a.leaves.size + 1) ∅))
    leaves := a.leaves.push id
    pending := id :: a.pending
    pending_lt := by
      intro i hi
      rw [Array.size_push]
      rcases List.mem_cons.mp hi with rfl | hi
      · exact Nat.lt_succ_self _
      · exact Nat.lt_succ_of_lt (a.pending_lt i hi) }

/-- The assembly with a new operator node in place of the subtrees that it takes; `rest` are the
subtrees below those. -/
def addOperator (a : Assembly) (shape : Shape) (rest : List Nat)
    (hrest : ∀ id ∈ rest, id ∈ a.pending) : Assembly :=
  let id := a.nodes.size
  { nodes := a.nodes.push (.fresh shape)
    leaves := a.leaves
    pending := id :: rest
    pending_lt := by
      intro i hi
      rw [Array.size_push]
      rcases List.mem_cons.mp hi with rfl | hi
      · exact Nat.lt_succ_self _
      · exact Nat.lt_succ_of_lt (a.pending_lt i (hrest i hi)) }

/-- The assembly after one more token. -/
def add (a : Assembly) (placed : PlacedToken) : Except Malformed Assembly :=
  match placed.token with
  | .operand c | .escaped c => .ok (a.addLeaf (.operand c))
  | .endMarker => .ok (a.addLeaf .endMarker)
  | .unary op =>
      match h : a.pending with
      | operand :: rest => .ok (a.addOperator (.unary op operand) rest (by simp_all))
      | [] => .error (.missingOperand placed.index op.symbol)
  | .binary op =>
      match h : a.pending with
      | right :: left :: rest => .ok (a.addOperator (.binary op left right) rest (by simp_all))
      | _ => .error (.missingOperand placed.index op.symbol)
  | .grouping c => .error (.unresolvedMetacharacter placed.index c)

/-- The assembly after one more item, which may itself be a fault. -/
def addItem (a : Assembly) (item : TokenReader.Item) : Except Malformed Assembly :=
  item.bind a.add

/-- The assembly after all items that a reader has ahead. -/
def addAll (a : Assembly) (reader : TokenReader) : Except Malformed Assembly :=
  reader.readAll.1.foldlM addItem a

/-- The tree, if exactly one subtree remains. -/
def finish (a : Assembly) : Except Malformed Tree :=
  match h : a.pending with
  | [] => .error .emptyExpression
  | [root] => .ok ⟨a.nodes, a.leaves, root, a.pending_lt root (by simp [h])⟩
  | pending => .error (.unconsumedOperands pending.length)

/-- At the end of the text the assembly stays as it is. -/
theorem addAll_of_next_none {a : Assembly} {reader after : TokenReader}
    (h : reader.next = (none, after)) : a.addAll reader = .ok a := by
  rw [addAll, TokenReader.readAll_of_next_none h]
  rfl

/-- Adding all items adds the first and then all others. -/
theorem addAll_of_next_some {a : Assembly} {reader after : TokenReader} {item : TokenReader.Item}
    (h : reader.next = (some item, after)) :
    a.addAll reader = (a.addItem item).bind (·.addAll after) := by
  rw [addAll, TokenReader.readAll_of_next_some h, ← Array.foldlM_toList, Array.toList_append,
    List.foldlM_append]
  simp only [List.foldlM_cons, List.foldlM_nil, bind_pure]
  simp only [addAll, ← Array.foldlM_toList]
  rfl

end Assembly

/-- The syntax tree of an expression, with blank attributes and empty follow sets. -/
def Tree.ofExpression (expression : String) : Except Malformed Tree :=
  Assembly.empty.addAll (.ofExpression expression) >>= Assembly.finish

end RegexPositions
