import RegexPositions.Proofs.Tree.Layout

/-!
# Building Undoes Writing

An expression can be written in several ways (`Expr.Spells`), and its tree shows it again,
whichever way was chosen. The tree is looked at as it can be from outside: one goes from the root
to operands, and from these to their operands (`Tree.walk`), and looks at the node reached. What
should be seen there is found in the expression (`Expr.sub?`, `Node.Shows`).

* `Tree.HasSubtree.shown_walk` — walks from a node show the expression that stands below it;
* `Expr.leafNodes_layout` — the leaves of a tree, from left to right, show the letters of the
  expression, numbered from 1;
* `Tree.ofExpression_of_spells` — so does the tree built from any way of writing an expression.
-/

namespace RegexPositions

/-! ### Walks -/

namespace Expr

/-- The subexpression at the end of a path, if there is one, and the position of its first leaf;
that of the expression itself is `start`. -/
def sub? (start : Nat) : Expr → List Side → Option (Nat × Expr)
  | e, [] => some (start, e)
  | unary _ e, .left :: path => e.sub? start path
  | binary _ l _, .left :: path => l.sub? start path
  | binary _ l r, .right :: path => r.sub? (start + l.leafCount) path
  | leaf _, _ :: _ => none
  | unary _ _, .right :: _ => none

end Expr

/-- The node **shows** an expression with the position `start` of its first leaf: it is a leaf with
that position and the letter, or the operator. -/
def Node.Shows (node : Node) (start : Nat) : Expr → Prop
  | .leaf letter => node.isLeaf = true ∧ node.position? = some start ∧
      node.symbol = letter.symbol ∧ (node.isEndMarker = true ↔ letter = .endMarker)
  | .unary op _ => ∃ operand, node.shape = .unary op operand
  | .binary op _ _ => ∃ left right, node.shape = .binary op left right

namespace Tree

/-- The node at the end of a path of steps from a node to operands, if there is one. -/
def walk (tree : Tree) (node : Node) : List Side → Except NoSuchNode (Option Node)
  | [] => .ok (some node)
  | side :: path =>
      match tree.child? node side with
      | .error missing => .error missing
      | .ok none => .ok none
      | .ok (some child) => tree.walk child path

/-- What a walk has found shows what it should: a node where there is a subexpression, and none
where there is none. -/
def Shown (found : Except NoSuchNode (Option Node)) : Option (Nat × Expr) → Prop
  | none => found = .ok none
  | some (start, e) => ∃ node, found = .ok (some node) ∧ node.Shows start e

variable {tree : Tree} {id start : Nat} {node child : Node} {e : Expr}

/-- A node without an operand on a side has no child there. -/
theorem child?_of_child?_eq_none {side : Side} (h : node.child? side = none) :
    tree.child? node side = .ok none := by
  rw [child?, h]

/-- The child on a side is the node that the operand's id names. -/
theorem child?_of_get? {side : Side} (h : node.child? side = some id)
    (hchild : tree.get? id = some child) : tree.child? node side = .ok (some child) := by
  have hfetch : tree.fetch id = .ok child := by rw [fetch, hchild]
  rw [child?, h]
  exact congrArg (some <$> ·) hfetch

/-- The node on top shows the expression. -/
theorem HasSubtree.exists_get? (h : tree.HasSubtree id start e) :
    ∃ node, tree.get? id = some node ∧ node.Shows start e := by
  cases h with
  | @leaf _ _ letter follow hshape =>
      obtain ⟨⟨shape, attributes⟩, hnode, rfl⟩ := Option.map_eq_some_iff.mp hshape
      refine ⟨_, hnode, rfl, rfl, rfl, ?_⟩
      cases letter <;> simp [Node.isEndMarker]
  | unary hshape _ =>
      obtain ⟨node, hnode, hshape⟩ := Option.map_eq_some_iff.mp hshape
      exact ⟨node, hnode, _, hshape⟩
  | binary hshape _ _ =>
      obtain ⟨node, hnode, hshape⟩ := Option.map_eq_some_iff.mp hshape
      exact ⟨node, hnode, _, _, hshape⟩

/-- A step to a child goes on from the child. -/
theorem walk_cons_of_child? {side : Side} {path : List Side}
    (h : tree.child? node side = .ok (some child)) :
    tree.walk node (side :: path) = tree.walk child path := by
  rw [walk, h]

/-- A step to where there is no child leads nowhere. -/
theorem walk_cons_of_no_child {side : Side} {path : List Side}
    (h : node.child? side = none) : tree.walk node (side :: path) = .ok none := by
  rw [walk, child?_of_child?_eq_none h]

/-- Walks from a node show the expression that stands below it. -/
theorem HasSubtree.shown_walk (h : tree.HasSubtree id start e) (hnode : tree.get? id = some node)
    (path : List Side) : Shown (tree.walk node path) (e.sub? start path) := by
  induction path generalizing id start e node with
  | nil =>
      obtain ⟨node', hnode', hshows⟩ := h.exists_get?
      obtain rfl := Option.some.inj (hnode.symm.trans hnode')
      rw [Expr.sub?]
      exact ⟨node, rfl, hshows⟩
  | cons side path ih =>
      -- A step leads to an operand, and the rest of the path is walked below that.
      have step : ∀ {child start' : Nat} {e' : Expr}, node.child? side = some child →
          tree.HasSubtree child start' e' →
          Shown (tree.walk node (side :: path)) (e'.sub? start' path) := by
        intro child start' e' hside hsub
        obtain ⟨operand, hoperand, -⟩ := hsub.exists_get?
        rw [walk_cons_of_child? (child?_of_get? hside hoperand)]
        exact ih hsub hoperand
      have hshape : ∀ {shape : Shape}, (tree.get? id).map Node.shape = some shape →
          node.shape = shape := by
        intro shape h'
        rw [hnode] at h'
        exact Option.some.inj h'
      cases h with
      | leaf h' =>
          have hnone : node.child? side = none := by
            cases side <;> simp [Node.child?, Node.left?, Node.right?, hshape h']
          rw [Expr.sub?]
          exact walk_cons_of_no_child hnone
      | unary h' hoperand =>
          cases side with
          | left => exact step (by simp [Node.child?, Node.left?, hshape h']) hoperand
          | right =>
              exact walk_cons_of_no_child (by simp [Node.child?, Node.right?, hshape h'])
      | binary h' hleft hright =>
          cases side with
          | left => exact step (by simp [Node.child?, Node.left?, hshape h']) hleft
          | right => exact step (by simp [Node.child?, Node.right?, hshape h']) hright

/-- The root is found under its id. -/
theorem get?_root (tree : Tree) : tree.get? tree.root = some tree.rootNode :=
  Array.getElem?_eq_getElem tree.root_lt

end Tree

/-! ### Leaves -/

namespace Expr

/-- The leaves of a tree are those of the letters of its expression, in order. -/
theorem leafNodes_layout (follow : Nat → PositionSet) (attributes : Nat → Expr → Attributes)
    (e : Expr) :
    (e.layout follow attributes).leafNodes.toList = (e.letters.zipIdx 1).map fun x =>
      ⟨.leaf x.1 x.2 (follow x.2), attributes x.2 (leaf x.1)⟩ := by
  have hnodes := map_getElem?_leafIdsFrom (block_layout follow attributes e)
  have hleaves : (e.layout follow attributes).leafNodes.toList =
      ((e.leafIdsFrom 0).map ((e.layout follow attributes).nodes[·]?)).filterMap id := by
    rw [Tree.leafNodes, Array.toList_filterMap, List.filterMap_map]
    rfl
  rw [hleaves, hnodes, List.filterMap_map]
  exact congrFun List.filterMap_eq_map' _

end Expr

/-! ### Any way of writing -/

/-- **Building undoes writing.** However an expression is written, the tree that is built shows it:
walks from the root find an operator or a leaf wherever the expression has one, and nothing
anywhere else, and the leaves from left to right show its letters and are numbered from 1. -/
theorem Tree.ofExpression_of_spells {e : Expr} {expression : String}
    (h : e.Spells expression.toList) :
    ∃ tree, Tree.ofExpression expression = .ok tree ∧
      (∀ path, Shown (tree.walk tree.rootNode path) (e.sub? 1 path)) ∧
      tree.leafNodes.toList.map (fun node => (node.position?, node.symbol, node.isEndMarker)) =
        (e.letters.zipIdx 1).map fun x => (some x.2, x.1.symbol, decide (x.1 = .endMarker)) := by
  refine ⟨e.toTree, Tree.ofExpression_eq_ok_iff.mpr ⟨e, h, rfl⟩, fun path => ?_, ?_⟩
  · rw [Expr.toTree_eq_layout]
    exact Expr.hasSubtree_root_layout.shown_walk (get?_root _) path
  · rw [Expr.toTree_eq_layout, Expr.leafNodes_layout, List.map_map]
    refine List.map_congr_left fun x _ => ?_
    obtain ⟨letter, p⟩ := x
    cases letter <;> rfl

/-- In `\*#.a?|`, the star is a letter and `#` is the end marker. The left operand of the left
operand of the root is a leaf with that star, and there is nothing below it. -/
theorem Tree.ofExpression_of_spells_escaped_star :
    ∃ tree node, Tree.ofExpression "\\*#.a?|" = .ok tree ∧
      tree.walk tree.rootNode [.left, .left] = .ok (some node) ∧
      node.position? = some 1 ∧ node.symbol = '*' ∧ node.isEndMarker = false ∧
      tree.walk tree.rootNode [.left, .left, .left] = .ok none ∧
      tree.leafNodes.toList.map (fun node => (node.position?, node.symbol, node.isEndMarker)) =
        [(some 1, '*', false), (some 2, '#', true), (some 3, 'a', false)] := by
  let e : Expr := .binary .union
    (.binary .concat (.leaf (.operand '*')) (.leaf .endMarker))
    (.unary .optional (.leaf (.operand 'a')))
  have hspells : e.Spells "\\*#.a?|".toList :=
    .binary .union (.binary .concat (.escaped '*') .endMarker) (.unary .optional (.plain rfl))
  obtain ⟨tree, hbuild, hwalk, hleaves⟩ := ofExpression_of_spells hspells
  obtain ⟨node, hnode, -, hposition, hsymbol, hend⟩ := hwalk [.left, .left]
  refine ⟨tree, node, hbuild, hnode, hposition, hsymbol, ?_, hwalk [.left, .left, .left], hleaves⟩
  exact Bool.eq_false_iff.mpr (mt hend.mp (by decide))

end RegexPositions
