import Mathlib.Logic.Function.Basic
import RegexPositions.Proofs.Tree.Tokens

/-!
# Nodes in Postorder

The nodes of a tree stand in **postorder**: the nodes of a subtree stand side by side, those of
the left operand directly before those of the right one, and the operator comes last
(`Tree.Postorder`). From this alone it follows that every node but the root is the operand of one
other node, and of one only (`Postorder.existsUnique_parent`).

* `Expr.postorder_layout` — the tree of an expression is in postorder, at each of its stages;
* `Expr.leafIdsFrom_eq_filter` — its leaf list names its leaf nodes in ascending order;
* `Tree.arena_of_ofExpression` — both, with the token that each node comes from (`Tree.Arena`),
  hold of every tree that passes and clones make of the one that was built.
-/

namespace RegexPositions

namespace Tree

/-! ### Subtrees as walks -/

/-- Node `child` is the operand of node `parent` on a side. -/
def IsChild (tree : Tree) (parent : Nat) (side : Side) (child : Nat) : Prop :=
  (tree.get? parent).bind (·.child? side) = some child

/-- Node `i` belongs to the subtree of node `k`: some path leads down to it. -/
def Below (tree : Tree) (k i : Nat) : Prop :=
  ∃ path, tree.descendFrom k path = some i

variable {tree : Tree} {i j k parent child operand left right : Nat} {side : Side}
variable {op : UnaryOp} {op' : BinaryOp}

/-! The operands of a node are those that its shape names. -/

/-- A leaf has no operands. -/
theorem not_isChild_of_leaf {letter : Letter} {position : Nat} {follow : PositionSet}
    (h : (tree.get? k).map Node.shape = some (.leaf letter position follow)) :
    ¬tree.IsChild k side child := by
  obtain ⟨⟨shape, attributes⟩, hnode, rfl⟩ := Option.map_eq_some_iff.mp h
  rw [IsChild, hnode]
  cases side <;> exact nofun

/-- A unary operator has its operand on the left, and no other. -/
theorem isChild_iff_of_unary (h : (tree.get? k).map Node.shape = some (.unary op operand)) :
    tree.IsChild k side child ↔ side = .left ∧ child = operand := by
  obtain ⟨⟨shape, attributes⟩, hnode, rfl⟩ := Option.map_eq_some_iff.mp h
  rw [IsChild, hnode]
  cases side with
  | left => exact ⟨fun hchild => ⟨rfl, (Option.some.inj hchild).symm⟩, fun hchild => hchild.2 ▸ rfl⟩
  | right => exact iff_of_false nofun nofun

/-- A binary operator has one operand on each side, and no other. -/
theorem isChild_iff_of_binary (h : (tree.get? k).map Node.shape = some (.binary op' left right)) :
    tree.IsChild k side child ↔ side = .left ∧ child = left ∨ side = .right ∧ child = right := by
  obtain ⟨⟨shape, attributes⟩, hnode, rfl⟩ := Option.map_eq_some_iff.mp h
  rw [IsChild, hnode]
  cases side with
  | left =>
      rw [or_iff_left nofun]
      exact ⟨fun hchild => ⟨rfl, (Option.some.inj hchild).symm⟩, fun hchild => hchild.2 ▸ rfl⟩
  | right =>
      rw [or_iff_right nofun]
      exact ⟨fun hchild => ⟨rfl, (Option.some.inj hchild).symm⟩, fun hchild => hchild.2 ▸ rfl⟩

/-- A path starts with a step to an operand, from which the rest of it leads on. -/
theorem descendFrom_cons_eq_some_iff {path : List Side} :
    tree.descendFrom k (side :: path) = some i ↔
      ∃ child, tree.IsChild k side child ∧ tree.descendFrom child path = some i := by
  rw [descendFrom]
  simp only [IsChild]
  cases (tree.get? k).bind (·.child? side) with
  | none => exact iff_of_false nofun nofun
  | some child => simp only [Option.some.injEq, exists_eq_left']

/-- Every node belongs to its own subtree. -/
theorem below_self (tree : Tree) (k : Nat) : tree.Below k k :=
  ⟨[], rfl⟩

/-- The subtree of a node is the node and the subtrees of its operands. -/
theorem below_iff :
    tree.Below k i ↔ i = k ∨ ∃ side child, tree.IsChild k side child ∧ tree.Below child i := by
  constructor
  · rintro ⟨path, hpath⟩
    cases path with
    | nil => exact .inl (Option.some.inj hpath).symm
    | cons side path =>
        obtain ⟨child, hchild, hrest⟩ := descendFrom_cons_eq_some_iff.mp hpath
        exact .inr ⟨side, child, hchild, path, hrest⟩
  · rintro (rfl | ⟨side, child, hchild, path, hpath⟩)
    · exact tree.below_self i
    · exact ⟨side :: path, descendFrom_cons_eq_some_iff.mpr ⟨child, hchild, hpath⟩⟩

/-- The subtree of a leaf is the leaf. -/
theorem below_iff_of_leaf {letter : Letter} {position : Nat} {follow : PositionSet}
    (h : (tree.get? k).map Node.shape = some (.leaf letter position follow)) :
    tree.Below k i ↔ i = k := by
  rw [below_iff, or_iff_left]
  rintro ⟨side, child, hchild, -⟩
  exact not_isChild_of_leaf h hchild

/-- The subtree of a unary operator is the operator and that of its operand. -/
theorem below_iff_of_unary (h : (tree.get? k).map Node.shape = some (.unary op operand)) :
    tree.Below k i ↔ i = k ∨ tree.Below operand i := by
  rw [below_iff]
  simp only [isChild_iff_of_unary h, and_assoc, exists_and_left, exists_eq_left]

/-- The subtree of a binary operator is the operator and those of its operands. -/
theorem below_iff_of_binary (h : (tree.get? k).map Node.shape = some (.binary op' left right)) :
    tree.Below k i ↔ i = k ∨ tree.Below left i ∨ tree.Below right i := by
  rw [below_iff]
  simp only [isChild_iff_of_binary h, or_and_right, and_assoc, exists_or, exists_and_left,
    exists_eq_left]

/-- What belongs to a subtree within a subtree belongs to the latter. -/
theorem Below.trans (hij : tree.Below i j) (hjk : tree.Below j k) : tree.Below i k := by
  obtain ⟨path, hpath⟩ := hij
  induction path generalizing i with
  | nil =>
      obtain rfl := Option.some.inj hpath
      exact hjk
  | cons side path ih =>
      obtain ⟨child, hchild, hrest⟩ := descendFrom_cons_eq_some_iff.mp hpath
      exact below_iff.mpr (.inr ⟨side, child, hchild, ih hrest⟩)

/-- A path that leads somewhere else ends with a step to an operand. -/
theorem exists_isChild_of_below (h : tree.Below j k) (hne : k ≠ j) :
    ∃ parent side, tree.IsChild parent side k := by
  obtain ⟨path, hpath⟩ := h
  induction path generalizing j with
  | nil => exact absurd (Option.some.inj hpath).symm hne
  | cons side path ih =>
      obtain ⟨child, hchild, hrest⟩ := descendFrom_cons_eq_some_iff.mp hpath
      by_cases hk : k = child
      · exact ⟨j, side, hk ▸ hchild⟩
      · exact ih hk hrest

/-! ### Postorder -/

/-- The nodes of a tree stand in **postorder**. -/
structure Postorder (tree : Tree) : Prop where
  /-- The root is the last node. -/
  root_eq : tree.root + 1 = tree.nodes.size
  /-- All nodes belong to its subtree. -/
  below_root : ∀ i < tree.nodes.size, tree.Below tree.root i
  /-- A subtree is a block of nodes that ends with its root. -/
  block : ∀ k < tree.nodes.size, ∃ first ≤ k, ∀ i, tree.Below k i ↔ first ≤ i ∧ i ≤ k
  /-- An only operand stands directly before its operator. -/
  unary_operand : ∀ k op operand, (tree.get? k).map Node.shape = some (.unary op operand) →
    operand + 1 = k
  /-- So does a right operand, and the block of the left one ends where its block begins. -/
  binary_operands : ∀ k op left right,
    (tree.get? k).map Node.shape = some (.binary op left right) →
      right + 1 = k ∧ ∀ i, tree.Below right i ↔ left < i ∧ i ≤ right

/-- An operand is the only operand, or one of two. -/
theorem IsChild.cases (h : tree.IsChild parent side child) :
    (∃ op, (tree.get? parent).map Node.shape = some (.unary op child) ∧ side = .left) ∨
      ∃ op left right, (tree.get? parent).map Node.shape = some (.binary op left right) ∧
        (side = .left ∧ child = left ∨ side = .right ∧ child = right) := by
  obtain ⟨⟨shape, attributes⟩, hnode, -⟩ := Option.bind_eq_some_iff.mp h
  have hshape : (tree.get? parent).map Node.shape = some shape := by
    rw [hnode]
    rfl
  cases shape with
  | leaf letter position follow => exact absurd h (not_isChild_of_leaf hshape)
  | unary op operand =>
      obtain ⟨hside, rfl⟩ := (isChild_iff_of_unary hshape).mp h
      exact .inl ⟨op, hshape, hside⟩
  | binary op left right =>
      exact .inr ⟨op, left, right, hshape, (isChild_iff_of_binary hshape).mp h⟩

namespace Postorder

variable {parent' : Nat} {side' : Side}

/-- In postorder the left operand stands before the right one. -/
theorem left_lt_right (h : tree.Postorder)
    (hshape : (tree.get? k).map Node.shape = some (.binary op' left right)) : left < right :=
  (((h.binary_operands k op' left right hshape).2 right).mp (tree.below_self right)).1

/-- Operands are made before their operator. -/
theorem child_lt (h : tree.Postorder) (hchild : tree.IsChild parent side child) :
    child < parent := by
  rcases hchild.cases with ⟨op, hshape, -⟩ | ⟨op, left, right, hshape, hside⟩
  · have := h.unary_operand parent op child hshape
    omega
  · have := (h.binary_operands parent op left right hshape).1
    have := h.left_lt_right hshape
    omega

/-- No node is the operand of a node and of another one behind it: that one has the first node in
the block of its right operand, and that block lies behind its left operand. -/
theorem not_isChild_of_lt (h : tree.Postorder) (hlt : parent < parent')
    (hchild : tree.IsChild parent side child) : ¬tree.IsChild parent' side' child := by
  intro hchild'
  have hparent := h.child_lt hchild
  rcases hchild'.cases with ⟨op, hshape, -⟩ | ⟨op, left, right, hshape, hside⟩
  · have := h.unary_operand parent' op child hshape
    omega
  · obtain ⟨hright, hblock⟩ := h.binary_operands parent' op left right hshape
    have hlr := h.left_lt_right hshape
    rcases hside with ⟨-, rfl⟩ | ⟨-, rfl⟩
    · -- The child is the left operand, but it also lies below a node in the block of the right one.
      have hbelow : tree.Below right parent := (hblock parent).mpr ⟨hparent, by omega⟩
      have hleft := hbelow.trans (below_iff.mpr (.inr ⟨side, child, hchild, tree.below_self child⟩))
      exact absurd ((hblock child).mp hleft).1 (Nat.lt_irrefl child)
    · omega

/-- The two operands of a node are different nodes. -/
theorem side_eq (h : tree.Postorder) (hchild : tree.IsChild parent side child)
    (hchild' : tree.IsChild parent side' child) : side = side' := by
  rcases hchild.cases with ⟨op, hshape, rfl⟩ | ⟨op, left, right, hshape, hside⟩
  · rcases hchild'.cases with ⟨_, -, rfl⟩ | ⟨op', left', right', hshape', -⟩
    · rfl
    · cases hshape.symm.trans hshape'
  · have hlr := h.left_lt_right hshape
    rcases hchild'.cases with ⟨op', hshape', -⟩ | ⟨op', left', right', hshape', hside'⟩
    · cases hshape.symm.trans hshape'
    · cases hshape.symm.trans hshape'
      rcases hside with ⟨rfl, rfl⟩ | ⟨rfl, rfl⟩ <;> rcases hside' with ⟨rfl, heq⟩ | ⟨rfl, heq⟩
      · rfl
      · omega
      · omega
      · rfl

/-- Every node but the root is the operand of one node, on one side. -/
theorem existsUnique_parent (h : tree.Postorder) (hk : k < tree.nodes.size)
    (hroot : k ≠ tree.root) : ∃! slot : Nat × Side, tree.IsChild slot.1 slot.2 k := by
  obtain ⟨parent, side, hchild⟩ := exists_isChild_of_below (h.below_root k hk) hroot
  refine ⟨(parent, side), hchild, ?_⟩
  rintro ⟨parent', side'⟩ hchild'
  rcases Nat.lt_trichotomy parent parent' with hlt | rfl | hlt
  · exact absurd hchild' (h.not_isChild_of_lt hlt hchild)
  · rw [h.side_eq hchild hchild']
  · exact absurd hchild (h.not_isChild_of_lt hlt hchild')

end Postorder

end Tree

/-! ### Expressions -/

namespace Expr

variable {follow : Nat → PositionSet} {attributes : Nat → Expr → Attributes}
variable {tree : Tree} {id start i k : Nat} {e : Expr}

/-- The shape of the root of an expression whose first node has id `id` and whose first leaf has
position `start`. -/
def rootShape (follow : Nat → PositionSet) (id start : Nat) : Expr → Shape
  | leaf letter => .leaf letter start (follow start)
  | unary op e => .unary op (id + e.nodeCount - 1)
  | binary op l r => .binary op (id + l.nodeCount - 1) (id + l.nodeCount + r.nodeCount - 1)

/-- A block ends with the root of its expression. -/
theorem shape_root_of_block (h : Block tree.nodes id (e.layoutFrom follow attributes id start)) :
    (tree.get? (id + e.nodeCount - 1)).map Node.shape = some (e.rootShape follow id start) := by
  cases e with
  | leaf letter =>
      have hroot : tree.get? (id + 1 - 1) = _ := h.head
      rw [nodeCount, hroot]
      rfl
  | unary op e =>
      have hroot : tree.get? _ = _ := getElem?_unary h
      rw [nodeCount, ← Nat.add_assoc, Nat.add_sub_cancel, hroot]
      rfl
  | binary op l r =>
      have hroot : tree.get? _ = _ := getElem?_binary h
      rw [nodeCount, ← Nat.add_assoc, ← Nat.add_assoc, Nat.add_sub_cancel, hroot]
      rfl

/-- The subtree of the root of a block is the block. -/
theorem below_root_iff_of_block
    (h : Block tree.nodes id (e.layoutFrom follow attributes id start)) :
    tree.Below (id + e.nodeCount - 1) i ↔ id ≤ i ∧ i < id + e.nodeCount := by
  induction e generalizing id start with
  | leaf letter =>
      rw [Tree.below_iff_of_leaf (shape_root_of_block h), nodeCount]
      omega
  | unary op e ih =>
      rw [Tree.below_iff_of_unary (shape_root_of_block h), ih (block_operand h), nodeCount]
      omega
  | binary op l r ihl ihr =>
      rw [Tree.below_iff_of_binary (shape_root_of_block h), ihl (block_left h),
        ihr (block_right h), nodeCount]
      omega

/-- Every node of a layout is the root of a block. -/
theorem exists_block_layout (hk : k < (e.layout follow attributes).nodes.size) :
    ∃ id start e', Block (e.layout follow attributes).nodes id
      (layoutFrom follow attributes id start e') ∧ k = id + e'.nodeCount - 1 := by
  have hlt : k < e.nodeCount := by simpa [layout] using hk
  obtain ⟨id, start, e', hblock, heq⟩ := exists_block_of_lt (block_layout follow attributes e) hlt
  exact ⟨id, start, e', hblock, by rw [← heq, Nat.zero_add]⟩

/-- Every node of an expression is the root of a part of it, the nodes of which stand side by side.
-/
theorem exists_block_of_shape {shape : Shape}
    (h : ((e.layout follow attributes).get? k).map Node.shape = some shape) :
    ∃ id start e', Block (e.layout follow attributes).nodes id
      (layoutFrom follow attributes id start e') ∧ k = id + e'.nodeCount - 1 ∧
      shape = e'.rootShape follow id start := by
  obtain ⟨node, hnode, -⟩ := Option.map_eq_some_iff.mp h
  obtain ⟨hlt, -⟩ := Array.getElem?_eq_some_iff.mp hnode
  obtain ⟨id, start, e', hblock, rfl⟩ := exists_block_layout hlt
  exact ⟨id, start, e', hblock, rfl, Option.some.inj (h.symm.trans (shape_root_of_block hblock))⟩

/-- **Expressions are laid out in postorder.** -/
theorem postorder_layout (follow : Nat → PositionSet) (attributes : Nat → Expr → Attributes)
    (e : Expr) : (e.layout follow attributes).Postorder where
  root_eq := by
    have hpos := e.nodeCount_pos
    have hsize : (e.layout follow attributes).nodes.size = e.nodeCount := by simp [layout]
    rw [hsize]
    exact Nat.sub_add_cancel hpos
  below_root := by
    intro i hi
    have hlt : i < e.nodeCount := by simpa [layout] using hi
    have hbelow : (e.layout follow attributes).Below (0 + e.nodeCount - 1) i :=
      (below_root_iff_of_block (block_layout follow attributes e)).mpr ⟨Nat.zero_le i, by omega⟩
    rwa [Nat.zero_add] at hbelow
  block := by
    intro k hk
    obtain ⟨id, start, e', hblock, rfl⟩ := exists_block_layout hk
    have hpos := e'.nodeCount_pos
    refine ⟨id, by omega, fun i => ?_⟩
    rw [below_root_iff_of_block hblock]
    omega
  unary_operand := by
    intro k op operand hshape
    obtain ⟨id, start, e', hblock, rfl, hroot⟩ := exists_block_of_shape hshape
    cases e' with
    | leaf letter => cases hroot
    | unary op' e' =>
        cases hroot
        have hpos := e'.nodeCount_pos
        rw [nodeCount]
        omega
    | binary op' l r => cases hroot
  binary_operands := by
    intro k op left right hshape
    obtain ⟨id, start, e', hblock, rfl, hroot⟩ := exists_block_of_shape hshape
    cases e' with
    | leaf letter => cases hroot
    | unary op' e' => cases hroot
    | binary op' l r =>
        cases hroot
        have hl := l.nodeCount_pos
        have hr := r.nodeCount_pos
        refine ⟨by rw [nodeCount]; omega, fun i => ?_⟩
        rw [below_root_iff_of_block (block_right hblock)]
        omega

/-! ### Leaves -/

/-- The leaves of a block, in ascending order, are the nodes of the block that are leaves. -/
theorem leafIdsFrom_eq_filter
    (h : Block tree.nodes id (e.layoutFrom follow attributes id start)) :
    e.leafIdsFrom id =
      (List.range' id e.nodeCount).filter fun k => (tree.get? k).any Node.isLeaf := by
  induction e generalizing id start with
  | leaf letter =>
      have hroot : tree.get? id = _ := h.head
      simp [leafIdsFrom, nodeCount, hroot, Node.isLeaf]
  | unary op e ih =>
      have hroot : tree.get? _ = _ := getElem?_unary h
      rw [leafIdsFrom, ih (block_operand h), nodeCount, List.range'_1_concat, List.filter_append]
      simp [hroot, Node.isLeaf]
  | binary op l r ihl ihr =>
      have hroot : tree.get? _ = _ := getElem?_binary h
      rw [Nat.add_assoc] at hroot
      rw [leafIdsFrom, ihl (block_left h), ihr (block_right h), nodeCount, List.range'_1_concat,
        ← List.range'_append_1, List.filter_append, List.filter_append]
      simp [hroot, Node.isLeaf]

/-- A position is the number of its leaf in the leaf list. -/
theorem exists_leaf_layout {p : Nat} (h1 : 1 ≤ p)
    (h2 : p ≤ (e.layout follow attributes).leafCount) :
    ∃ id node, (e.layout follow attributes).leaves[p - 1]? = some id ∧
      (e.layout follow attributes).get? id = some node ∧
      (e.layout follow attributes).leaf? p = some node ∧ node.position? = some p := by
  obtain ⟨j, rfl⟩ := Nat.exists_eq_add_of_le' h1
  have hj : j < e.letters.length := by
    rw [leafCount_layout] at h2
    rw [length_letters]
    omega
  have hleaf : (e.layout follow attributes).leaf? (j + 1) = _ := leaf?_layout j
  rw [List.getElem?_eq_getElem hj, Option.map_some] at hleaf
  obtain ⟨id, hid, hnode⟩ := Option.bind_eq_some_iff.mp hleaf
  exact ⟨id, _, hid, hnode, hleaf, rfl⟩

end Expr

namespace Tree

/-! ### Trees side by side -/

/-- A **step** on numbered trees: a pass over one of them, or a clone of one in the place of
another. -/
inductive Step where
  /-- Runs a pass over tree `i`. -/
  | run (pass : Pass) (i : Nat)
  /-- Puts a clone of tree `j` in the place of tree `i`. -/
  | clone (i j : Nat)
  deriving DecidableEq, Repr

/-- The trees after a step. -/
def Step.apply (trees : Nat → Tree) : Step → Nat → Tree
  | run pass i => Function.update trees i (pass.apply (trees i))
  | clone i j => Function.update trees i (trees j)

/-- The trees after some steps; at the start, all of them are the same tree. -/
def treesAfter (tree : Tree) (steps : List Step) : Nat → Tree :=
  steps.foldl Step.apply fun _ => tree

/-- One more pass at the end runs on what the others leave. -/
theorem run_concat (tree : Tree) (passes : List Pass) (pass : Pass) :
    tree.run (passes ++ [pass]) = pass.apply (tree.run passes) := by
  rw [run, List.foldl_concat, run]

/-- A step keeps it that each tree is made by passes. -/
theorem exists_run_apply {tree : Tree} {trees : Nat → Tree}
    (h : ∀ i, ∃ passes, trees i = tree.run passes) (step : Step) :
    ∀ i, ∃ passes, step.apply trees i = tree.run passes := by
  cases step with
  | run pass j =>
      obtain ⟨passes, hpasses⟩ := h j
      refine (Function.forall_update_iff trees fun _ t => ∃ passes, t = tree.run passes).mpr
        ⟨⟨passes ++ [pass], ?_⟩, fun i _ => h i⟩
      rw [run_concat, hpasses]
  | clone j k =>
      exact (Function.forall_update_iff trees fun _ t => ∃ passes, t = tree.run passes).mpr
        ⟨h k, fun i _ => h i⟩

/-- Clones add nothing new: each tree is made by passes from the one at the start. -/
theorem exists_run_treesAfter (tree : Tree) (steps : List Step) (i : Nat) :
    ∃ passes, treesAfter tree steps i = tree.run passes := by
  have hrun : ∀ trees : Nat → Tree, (∀ i, ∃ passes, trees i = tree.run passes) →
      ∀ i, ∃ passes, steps.foldl Step.apply trees i = tree.run passes := by
    induction steps with
    | nil => exact fun trees h => h
    | cons step steps ih => exact fun trees h => ih _ (exists_run_apply h step)
  exact hrun _ (fun _ => ⟨[], rfl⟩) i

/-! ### The arena of an expression -/

/-- The numbers of the tokens that are operands, in ascending order. -/
def operandNumbers (tokens : Array PlacedToken) : List Nat :=
  (List.range tokens.size).filter fun k => tokens[k]?.any (·.token.isOperand)

/-- The nodes of a tree are those of the tokens, in postorder, and its leaves are numbered from
left to right. -/
structure Arena (tree : Tree) (tokens : Array PlacedToken) : Prop extends Postorder tree where
  /-- There is a node for each token. -/
  size_eq : tree.nodes.size = tokens.size
  /-- Node number `k` is made by token number `k`. -/
  token_eq : tree.nodes.map (·.shape.token) = tokens.map (·.token.unescaped)
  /-- Operands are nodes, made before their operator. -/
  child_lt : ∀ parent side child, tree.IsChild parent side child →
    child < parent ∧ child < tree.nodes.size
  /-- Every node but the root is the operand of one node, on one side. -/
  existsUnique_parent : ∀ k < tree.nodes.size, k ≠ tree.root →
    ∃! slot : Nat × Side, tree.IsChild slot.1 slot.2 k
  /-- The leaf list names the leaf nodes in ascending order. -/
  leaves_eq : tree.leaves.toList =
    (List.range tree.nodes.size).filter fun k => (tree.get? k).any Node.isLeaf
  /-- There is a leaf for each operand. -/
  leafCount_eq : tree.leafCount = (operandNumbers tokens).length
  /-- The leaf at position `p` is made by operand number `p`, and it is told its position. -/
  leaf?_eq : ∀ p, 1 ≤ p → p ≤ tree.leafCount → ∃ k node,
    (operandNumbers tokens)[p - 1]? = some k ∧ tree.get? k = some node ∧
    tree.leaf? p = some node ∧ node.position? = some p
  /-- There is no leaf at another position. -/
  leaf?_eq_none : ∀ p, p = 0 ∨ tree.leafCount < p → tree.leaf? p = none

/-- The leaf nodes have the numbers of the operands. -/
theorem filter_isLeaf_eq_operandNumbers {tree : Tree} {tokens : Array PlacedToken}
    (h : tree.nodes.map (·.shape.token) = tokens.map (·.token.unescaped)) :
    ((List.range tree.nodes.size).filter fun k => (tree.get? k).any Node.isLeaf) =
      operandNumbers tokens := by
  have hsize : tree.nodes.size = tokens.size := by simpa using congrArg Array.size h
  rw [operandNumbers, hsize]
  refine List.filter_congr fun k _ => ?_
  have hk := congrArg (·[k]?.any Token.isOperand) h
  simp only [Array.getElem?_map, Option.any_map, Node.isOperand_token,
    Token.isOperand_unescaped] at hk
  exact hk

/-- There is no leaf at position 0 nor behind the last one. -/
theorem leaf?_eq_none {tree : Tree} {p : Nat} (h : p = 0 ∨ tree.leafCount < p) :
    tree.leaf? p = none := by
  cases p with
  | zero => rfl
  | succ k =>
      have hk : tree.leaves.size ≤ k := by
        rw [leafCount] at h
        omega
      rw [leaf?, Array.getElem?_eq_none hk]
      rfl

/-- **The arena of an expression.** Every tree that passes and clones make of the tree of an
expression has its nodes in postorder, one for each token of the expression, and its leaves
numbered from left to right. -/
theorem arena_of_ofExpression {expression : String} {tree : Tree}
    (h : Tree.ofExpression expression = .ok tree) :
    ∃ tokens, (TokenReader.ofExpression expression).tokens.1 = .ok tokens ∧
      ∀ steps i, (treesAfter tree steps i).Arena tokens := by
  obtain ⟨tokens, htokens, hmap⟩ := map_token_of_ofExpression h
  refine ⟨tokens, htokens, fun steps i => ?_⟩
  obtain ⟨e, -, rfl⟩ := Tree.ofExpression_eq_ok_iff.mp h
  obtain ⟨passes, hpasses⟩ := exists_run_treesAfter e.toTree steps i
  rw [← map_token_run passes] at hmap
  obtain ⟨follow, attributes, hlayout⟩ := e.exists_run_eq_layout passes
  rw [hlayout] at hpasses hmap
  rw [hpasses]
  have hpostorder := e.postorder_layout follow attributes
  have hleaves : (e.layout follow attributes).leaves.toList =
      (List.range (e.layout follow attributes).nodes.size).filter
        fun k => ((e.layout follow attributes).get? k).any Node.isLeaf := by
    have hfilter := Expr.leafIdsFrom_eq_filter (Expr.block_layout follow attributes e)
    simpa [Expr.layout, List.range_eq_range'] using hfilter
  refine ⟨hpostorder, ?_, hmap, fun parent side child hchild => ?_,
    fun k => hpostorder.existsUnique_parent, hleaves, ?_, fun p h1 h2 => ?_,
    fun p => leaf?_eq_none⟩
  · simpa using congrArg Array.size hmap
  · have hlt := hpostorder.child_lt hchild
    obtain ⟨node, hnode, -⟩ := Option.bind_eq_some_iff.mp hchild
    obtain ⟨hparent, -⟩ := Array.getElem?_eq_some_iff.mp hnode
    exact ⟨hlt, by omega⟩
  · rw [← filter_isLeaf_eq_operandNumbers hmap, ← hleaves, Array.length_toList]
    rfl
  · obtain ⟨k, node, hk, hnode, hleaf, hposition⟩ := Expr.exists_leaf_layout h1 h2
    refine ⟨k, node, ?_, hnode, hleaf, hposition⟩
    rw [← filter_isLeaf_eq_operandNumbers hmap, ← hleaves, Array.getElem?_toList]
    exact hk

/-- Of `ab|c*.`, the decorated tree and a clone of it that is then finished have their nodes in
postorder, and the union, node 2, is the left operand of the concatenation alone. -/
theorem arena_of_ofExpression_concat_star :
    ∃ tree tokens, Tree.ofExpression "ab|c*." = .ok tree ∧
      (TokenReader.ofExpression "ab|c*.").tokens.1 = .ok tokens ∧
      treesAfter tree [.run .decorate 0, .clone 1 0, .run .recordFollow 1] 0 = tree.decorate ∧
      treesAfter tree [.run .decorate 0, .clone 1 0, .run .recordFollow 1] 1 =
        tree.decorate.recordFollow ∧
      tree.decorate.Arena tokens ∧ tree.decorate.recordFollow.Arena tokens ∧
      ∀ slot : Nat × Side, tree.decorate.IsChild slot.1 slot.2 2 ↔ slot = (5, .left) := by
  let e : Expr := .binary .concat
    (.binary .union (.leaf (.operand 'a')) (.leaf (.operand 'b')))
    (.unary .star (.leaf (.operand 'c')))
  have hbuild : Tree.ofExpression "ab|c*." = .ok e.toTree :=
    Tree.ofExpression_eq_ok_iff.mpr ⟨e, .binary .concat (.binary .union (.plain rfl) (.plain rfl))
      (.unary .star (.plain rfl)), rfl⟩
  obtain ⟨tokens, htokens, harena⟩ := arena_of_ofExpression hbuild
  have hdecorated := harena [.run .decorate 0] 0
  have hfinished := harena [.run .decorate 0, .clone 1 0, .run .recordFollow 1] 1
  have hchild : e.toTree.decorate.IsChild 5 .left 2 := rfl
  obtain ⟨slot, -, hunique⟩ := hdecorated.existsUnique_parent 2 (by decide) (by decide)
  refine ⟨_, tokens, hbuild, htokens, rfl, rfl, hdecorated, hfinished, fun other => ?_⟩
  constructor
  · intro hother
    exact (hunique other hother).trans (hunique (5, .left) hchild).symm
  · rintro rfl
    exact hchild

end Tree

end RegexPositions
