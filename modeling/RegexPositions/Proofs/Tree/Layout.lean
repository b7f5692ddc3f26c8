import RegexPositions.Expr.Layout
import RegexPositions.PositionAutomaton
import RegexPositions.Proofs.Expr.Neighbours
import RegexPositions.Tree.Follow.Lemmas
import RegexPositions.Tree.Subtree

/-!
# The Stages of a Tree

A tree changes while it is finished, but never in shape: the nodes of its expression stand where
they were put, and only what is on record about them is filled in. `Expr.layout` is the tree of
an expression with any attributes and any follow sets on record, so that each stage is one of
its instances:

* `toTree_eq_layout` — nothing is on record when the tree is built;
* `decorate_layout` — `Tree.decorate` puts the attributes of each subexpression on record,
  whatever was there before;
* `recordFollow_layout` — `Tree.recordFollow` adds the links of the expression
  (`Expr.linksFrom`) to the follow sets.

A subexpression occupies a **block** of nodes, one after the other (`Block`); a node is read off
the block that it stands in (`hasSubtree_of_block`).
-/

namespace RegexPositions

/-! ### Blocks -/

/-- The nodes `block` stand in the array one after the other, the first with id `id`. -/
def Block (nodes : Array Node) (id : Nat) (block : List Node) : Prop :=
  ∀ k node, block[k]? = some node → nodes[id + k]? = some node

namespace Block

variable {nodes : Array Node} {id : Nat} {front back : List Node}

/-- The front of a block is a block in the same place. -/
theorem left (h : Block nodes id (front ++ back)) : Block nodes id front := by
  intro k node hk
  obtain ⟨hlt, -⟩ := List.getElem?_eq_some_iff.mp hk
  exact h k node (by rw [List.getElem?_append_left hlt, hk])

/-- The back of a block is a block behind the front. -/
theorem right (h : Block nodes id (front ++ back)) : Block nodes (id + front.length) back := by
  intro k node hk
  rw [Nat.add_assoc]
  exact h _ node (by rw [List.getElem?_append_right (Nat.le_add_right _ _), Nat.add_sub_cancel_left,
    hk])

/-- A single node. -/
theorem head {node : Node} (h : Block nodes id (node :: back)) : nodes[id]? = some node :=
  h 0 node rfl

/-- All nodes of an array. -/
theorem of_toList (nodes : Array Node) : Block nodes 0 nodes.toList := by
  intro k node hk
  rwa [Nat.zero_add, ← Array.getElem?_toList]

/-- Nodes appended to an array. -/
theorem append (earlier : Array Node) (block : List Node) :
    Block (earlier ++ block.toArray) earlier.size block := by
  intro k node hk
  rw [Array.getElem?_append_right (Nat.le_add_right _ _), Nat.add_sub_cancel_left]
  simpa using hk

/-- Nodes stay where they are when others are appended. -/
theorem mono {block : List Node} (h : Block nodes id block) (later : Array Node) :
    Block (nodes ++ later) id block := by
  intro k node hk
  have hnode := h k node hk
  obtain ⟨hlt, -⟩ := Array.getElem?_eq_some_iff.mp hnode
  rw [Array.getElem?_append_left hlt, hnode]

end Block

namespace Expr

section Layout

variable (follow : Nat → PositionSet) (attributes : Nat → Expr → Attributes)

/-- The nodes of an expression whose first node has id `id` and whose first leaf has position
`start`. The leaf with position `p` has `follow p` on record, and a subexpression `e` whose first
leaf has position `p` has `attributes p e`. -/
def layoutFrom (id start : Nat) : Expr → List Node
  | leaf letter => [⟨.leaf letter start (follow start), attributes start (leaf letter)⟩]
  | unary op e =>
      e.layoutFrom id start ++ [⟨.unary op (id + e.nodeCount - 1), attributes start (unary op e)⟩]
  | binary op l r =>
      l.layoutFrom id start ++ r.layoutFrom (id + l.nodeCount) (start + l.leafCount) ++
        [⟨.binary op (id + l.nodeCount - 1) (id + l.nodeCount + r.nodeCount - 1),
          attributes start (binary op l r)⟩]

/-- The layout of an expression has one node for each of its nodes. -/
@[simp] theorem length_layoutFrom (id start : Nat) (e : Expr) :
    (e.layoutFrom follow attributes id start).length = e.nodeCount := by
  induction e generalizing id start with
  | leaf _ => rfl
  | unary _ _ ih => simp [layoutFrom, nodeCount, ih]
  | binary _ _ _ ihl ihr => simp [layoutFrom, nodeCount, ihl, ihr, Nat.add_assoc]

/-- The tree of an expression with attributes and follow sets on record. -/
def layout (e : Expr) : Tree where
  nodes := (e.layoutFrom follow attributes 0 1).toArray
  leaves := (e.leafIdsFrom 0).toArray
  root := e.nodeCount - 1
  root_lt := by
    rw [List.size_toArray, length_layoutFrom]
    exact Nat.sub_one_lt_of_lt e.nodeCount_pos

end Layout

/-- A tree is built with nothing on record. -/
theorem toTree_eq_layout (e : Expr) : e.toTree = e.layout (fun _ => ∅) fun _ _ => .blank := by
  have hnodes : ∀ id start,
      e.nodesFrom id start = e.layoutFrom (fun _ => ∅) (fun _ _ => .blank) id start := by
    induction e with
    | leaf letter => exact fun id start => rfl
    | unary op e ih => exact fun id start => by rw [nodesFrom, layoutFrom, ih]; rfl
    | binary op l r ihl ihr =>
        exact fun id start => by rw [nodesFrom, layoutFrom, ihl, ihr]; rfl
  simp only [toTree, layout, hnodes]

variable {follow : Nat → PositionSet} {attributes : Nat → Expr → Attributes}
variable {id start : Nat} {e l r : Expr} {nodes : Array Node}

/-! ### Reading a block -/

section Operands

variable {op : BinaryOp}

/-- The nodes of an operand come first. -/
theorem block_operand {op : UnaryOp}
    (h : Block nodes id ((unary op e).layoutFrom follow attributes id start)) :
    Block nodes id (e.layoutFrom follow attributes id start) :=
  h.left

/-- The nodes of the left operand come first. -/
theorem block_left (h : Block nodes id ((binary op l r).layoutFrom follow attributes id start)) :
    Block nodes id (l.layoutFrom follow attributes id start) :=
  h.left.left

/-- The nodes of the right operand come behind those of the left one. -/
theorem block_right (h : Block nodes id ((binary op l r).layoutFrom follow attributes id start)) :
    Block nodes (id + l.nodeCount)
      (r.layoutFrom follow attributes (id + l.nodeCount) (start + l.leafCount)) := by
  have hright := h.left.right
  rwa [length_layoutFrom] at hright

/-- The last node of a block is the operator. -/
theorem getElem?_unary {op : UnaryOp}
    (h : Block nodes id ((unary op e).layoutFrom follow attributes id start)) :
    nodes[id + e.nodeCount]? =
      some ⟨.unary op (id + e.nodeCount - 1), attributes start (unary op e)⟩ := by
  have hlast := h.right.head
  rwa [length_layoutFrom] at hlast

/-- A binary operator comes behind its operands, and names the last node of each. -/
theorem getElem?_binary
    (h : Block nodes id ((binary op l r).layoutFrom follow attributes id start)) :
    nodes[id + l.nodeCount + r.nodeCount]? =
      some ⟨.binary op (id + l.nodeCount - 1) (id + l.nodeCount + r.nodeCount - 1),
        attributes start (binary op l r)⟩ := by
  have hlast := h.right.head
  rwa [List.length_append, length_layoutFrom, length_layoutFrom, ← Nat.add_assoc] at hlast

end Operands

/-- The root of a block has the attributes of the whole expression. -/
theorem attributesAt_of_block (h : Block nodes id (e.layoutFrom follow attributes id start)) :
    attributesAt nodes (id + e.nodeCount - 1) = attributes start e := by
  cases e with
  | leaf letter =>
      have hroot : nodes[id + 1 - 1]? = _ := h.head
      rw [attributesAt, nodeCount, hroot]
      rfl
  | unary op e =>
      have hroot := getElem?_unary h
      rw [attributesAt, nodeCount, ← Nat.add_assoc, Nat.add_sub_cancel, hroot]
      rfl
  | binary op l r =>
      have hroot := getElem?_binary h
      rw [attributesAt, nodeCount, ← Nat.add_assoc, ← Nat.add_assoc, Nat.add_sub_cancel, hroot]
      rfl

/-- The last node of a block has the attributes of the whole expression on record. -/
theorem attributes_of_block (h : Block nodes id (e.layoutFrom follow attributes id start))
    {node : Node} (hnode : nodes[id + e.nodeCount - 1]? = some node) :
    node.attributes = attributes start e := by
  have hattributes := attributesAt_of_block h
  rw [attributesAt, hnode] at hattributes
  exact hattributes

/-- Below the root of a block stands its expression. -/
theorem hasSubtree_of_block {tree : Tree}
    (h : Block tree.nodes id (e.layoutFrom follow attributes id start)) :
    tree.HasSubtree (id + e.nodeCount - 1) start e := by
  induction e generalizing id start with
  | leaf letter =>
      have hroot : tree.get? (id + 1 - 1) = _ := h.head
      exact .leaf (congrArg (Option.map Node.shape) hroot)
  | unary op e ih =>
      have hroot : tree.get? _ = _ := getElem?_unary h
      rw [nodeCount, ← Nat.add_assoc, Nat.add_sub_cancel]
      exact .unary (congrArg (Option.map Node.shape) hroot) (ih (block_operand h))
  | binary op l r ihl ihr =>
      have hroot : tree.get? _ = _ := getElem?_binary h
      rw [nodeCount, ← Nat.add_assoc, ← Nat.add_assoc, Nat.add_sub_cancel]
      exact .binary (congrArg (Option.map Node.shape) hroot) (ihl (block_left h))
        (ihr (block_right h))

/-- Every node of a block is the root of a block. -/
theorem exists_block_of_lt (h : Block nodes id (e.layoutFrom follow attributes id start)) {k : Nat}
    (hk : k < e.nodeCount) :
    ∃ id' start' e', Block nodes id' (layoutFrom follow attributes id' start' e') ∧
      id + k = id' + e'.nodeCount - 1 := by
  induction e generalizing id start k with
  | leaf letter =>
      rw [nodeCount] at hk
      exact ⟨id, start, leaf letter, h, by rw [nodeCount]; omega⟩
  | unary op e ih =>
      by_cases hlt : k < e.nodeCount
      · exact ih (block_operand h) hlt
      · rw [nodeCount] at hk
        exact ⟨id, start, unary op e, h, by rw [nodeCount]; omega⟩
  | binary op l r ihl ihr =>
      by_cases hl : k < l.nodeCount
      · exact ihl (block_left h) hl
      · by_cases hr : k - l.nodeCount < r.nodeCount
        · obtain ⟨id', start', e', hblock, heq⟩ := ihr (block_right h) hr
          exact ⟨id', start', e', hblock, by omega⟩
        · rw [nodeCount] at hk
          exact ⟨id, start, binary op l r, h, by rw [nodeCount]; omega⟩

/-- The nodes of a tree are a block from id 0 on. -/
theorem block_layout (follow : Nat → PositionSet) (attributes : Nat → Expr → Attributes)
    (e : Expr) :
    Block (e.layout follow attributes).nodes 0 (e.layoutFrom follow attributes 0 1) :=
  Block.of_toList _

/-! ### Leaves -/

/-- The leaves of a block from left to right. -/
theorem map_getElem?_leafIdsFrom
    (h : Block nodes id (e.layoutFrom follow attributes id start)) :
    (e.leafIdsFrom id).map (nodes[·]?) = (e.letters.zipIdx start).map fun x =>
      some ⟨.leaf x.1 x.2 (follow x.2), attributes x.2 (leaf x.1)⟩ := by
  induction e generalizing id start with
  | leaf letter =>
      have hroot := h.head
      simp [leafIdsFrom, letters, hroot]
  | unary op e ih => exact ih (block_operand h)
  | binary op l r ihl ihr =>
      rw [leafIdsFrom, letters, List.map_append, ihl (block_left h), ihr (block_right h),
        List.zipIdx_append, List.map_append, length_letters]

/-- The leaf at a position has the letter of that place and what is on record for it. -/
theorem leaf?_layout (k : Nat) :
    (e.layout follow attributes).leaf? (k + 1) = e.letters[k]?.map fun letter =>
      ⟨.leaf letter (k + 1) (follow (k + 1)), attributes (k + 1) (leaf letter)⟩ := by
  have hleaves := congrArg (·[k]?) (map_getElem?_leafIdsFrom (block_layout follow attributes e))
  simp only [List.getElem?_map, List.getElem?_zipIdx, Option.map_map] at hleaves
  rw [Tree.leaf?]
  have hids : (e.layout follow attributes).leaves[k]? = (e.leafIdsFrom 0)[k]? := by
    simp [layout]
  rw [hids]
  cases hid : (e.leafIdsFrom 0)[k]? with
  | none =>
      cases hletter : e.letters[k]? with
      | none => rfl
      | some letter => simp [hid, hletter] at hleaves
  | some i =>
      cases hletter : e.letters[k]? with
      | none => simp [hid, hletter] at hleaves
      | some letter =>
          simpa [hid, hletter, Nat.add_comm 1 k, Tree.get?] using hleaves

/-- The tree of an expression has as many leaves. -/
@[simp] theorem leafCount_layout : (e.layout follow attributes).leafCount = e.leafCount := by
  simp [layout, Tree.leafCount]

/-- The attributes on record for the root. -/
theorem attributes_rootNode_layout :
    (e.layout follow attributes).rootNode.attributes = attributes 1 e := by
  have hroot := attributesAt_of_block (block_layout follow attributes e)
  have hlt := (e.layout follow attributes).root_lt
  rw [Nat.zero_add, attributesAt] at hroot
  rw [← hroot, Tree.rootNode]
  change _ = ((e.layout follow attributes).nodes[(e.layout follow attributes).root]?.map
    Node.attributes).getD .blank
  rw [Array.getElem?_eq_getElem hlt]
  rfl

/-- The root stands for the whole expression. -/
theorem hasSubtree_root_layout :
    (e.layout follow attributes).HasSubtree (e.layout follow attributes).root 1 e := by
  have hroot : (e.layout follow attributes).HasSubtree (0 + e.nodeCount - 1) 1 e :=
    hasSubtree_of_block (block_layout follow attributes e)
  rwa [Nat.zero_add] at hroot

/-! ### Attributes -/

/-- Decorating a block puts the attributes of its subexpressions on record. -/
theorem foldl_decorateNext_layoutFrom (earlier : Array Node) :
    (e.layoutFrom follow attributes earlier.size start).foldl decorateNext earlier =
      earlier ++ (e.layoutFrom follow attributesFrom earlier.size start).toArray := by
  induction e generalizing earlier start with
  | leaf letter => simp [layoutFrom, decorateNext, Attributes.ofShape, attributesFrom]
  | unary op e ih =>
      have hblock := Block.append earlier (e.layoutFrom follow attributesFrom earlier.size start)
      rw [layoutFrom, List.foldl_append, ih, layoutFrom]
      simp [decorateNext, Attributes.ofShape, attributesFrom, attributesAt_of_block hblock]
  | binary op l r ihl ihr =>
      set front := earlier ++ (l.layoutFrom follow attributesFrom earlier.size start).toArray
        with hfront
      have hsize : front.size = earlier.size + l.nodeCount := by simp [hfront]
      have hright := Block.append front
        (r.layoutFrom follow attributesFrom front.size (start + l.leafCount))
      have hr := @ihr (start + l.leafCount) front
      rw [hsize] at hr hright
      have hleft := (Block.append earlier
        (l.layoutFrom follow attributesFrom earlier.size start)).mono
          (r.layoutFrom follow attributesFrom (earlier.size + l.nodeCount)
            (start + l.leafCount)).toArray
      rw [← hfront] at hleft
      rw [layoutFrom, List.foldl_append, List.foldl_append, ihl, ← hfront, hr, layoutFrom]
      simp only [List.foldl_cons, List.foldl_nil, decorateNext, Attributes.ofShape,
        attributesAt_of_block hleft, attributesAt_of_block hright]
      simp [hfront, attributesFrom]

/-- **Decorating** a tree puts the attributes of its expression on record. -/
theorem decorate_layout :
    (e.layout follow attributes).decorate = e.layout follow attributesFrom := by
  have hnodes : decorateNodes (e.layoutFrom follow attributes 0 1).toArray =
      (e.layoutFrom follow attributesFrom 0 1).toArray := by
    have hfold := @foldl_decorateNext_layoutFrom follow attributes 1 e #[]
    rw [decorateNodes, List.foldl_toArray]
    simpa using hfold
  simp only [Tree.decorate, layout, hnodes]

/-! ### Follow sets -/

/-- The nodes of a block contribute the links of its expression. -/
theorem filterMap_link?_layoutFrom {tree : Tree}
    (h : Block tree.nodes id (e.layoutFrom follow attributesFrom id start)) :
    (e.layoutFrom follow attributesFrom id start).filterMap tree.link? = e.linksFrom start := by
  induction e generalizing id start with
  | leaf letter => simp [layoutFrom, Tree.link?, linksFrom]
  | unary op e ih =>
      have hoperand := attributesAt_of_block (block_operand h)
      rw [layoutFrom, List.filterMap_append, ih (block_operand h), linksFrom]
      cases hop : op.repeats <;>
        simp [Tree.link?, hop, hoperand, attributesFrom, Attributes.unary]
  | binary op l r ihl ihr =>
      have hl := attributesAt_of_block (block_left h)
      have hr := attributesAt_of_block (block_right h)
      rw [layoutFrom, List.filterMap_append, List.filterMap_append, ihl (block_left h),
        ihr (block_right h)]
      cases op <;> simp [Tree.link?, linksFrom, hl, hr]

/-- The links of a decorated tree are those of its expression. -/
theorem toList_links_layout : (e.layout follow attributesFrom).links.toList = e.linksFrom 1 := by
  rw [Tree.links, Array.toList_filterMap]
  exact filterMap_link?_layoutFrom (block_layout follow attributesFrom e)

/-- A position follows another in the follow table of a decorated tree exactly if the expression
links them. -/
theorem mem_entry_followTable_layout {p q : Nat} :
    q ∈ (e.layout follow attributesFrom).followTable.entry p ↔ e.Linked 1 p q := by
  rw [Tree.mem_entry_followTable, leafCount_layout]
  have hlinks : (∃ link ∈ (e.layout follow attributesFrom).links,
      p ∈ link.sources ∧ q ∈ link.targets) ↔ e.Linked 1 p q := by
    simp only [Linked, ← @toList_links_layout follow e, Array.mem_toList_iff]
  rw [hlinks]
  refine and_iff_right_of_imp fun hlink => ?_
  have := (range_of_linked hlink).1.2
  omega

/-- **Recording** adds the follow table to the follow sets. -/
theorem recordFollow_layout :
    (e.layout follow attributes).recordFollow =
      e.layout (fun p => follow p ∪ (e.layout follow attributes).followTable.entry p)
        attributes := by
  have hnodes : ∀ (table : FollowTable) id start,
      (e.layoutFrom follow attributes id start).map (Node.recordFollow table) =
        e.layoutFrom (fun p => follow p ∪ table.entry p) attributes id start := by
    intro table
    induction e with
    | leaf letter => exact fun id start => rfl
    | unary op e ih =>
        intro id start
        rw [layoutFrom, List.map_append, ih, layoutFrom]
        rfl
    | binary op l r ihl ihr =>
        intro id start
        rw [layoutFrom, List.map_append, List.map_append, ihl, ihr, layoutFrom]
        rfl
  have hnodes := hnodes (e.layout follow attributes).followTable 0 1
  simp only [Tree.recordFollow, layout] at hnodes ⊢
  simp only [List.map_toArray, hnodes]

end Expr

end RegexPositions
