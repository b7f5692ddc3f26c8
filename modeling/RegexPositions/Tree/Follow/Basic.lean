import RegexPositions.Tree.Basic

/-!
# Follow sets

Which positions follow which is decided at the operator nodes. Each of them contributes at most
one `Link`: every target follows every source.

* A concatenation links what its left operand may end with to what its right operand may start
  with.
* A repetition links what it may start with to what its operand may end with. Where an operand
  starts and ends with the same positions, the direction makes no difference.
* The other nodes contribute nothing.

`Tree.followTable` collects the links by source, and `Tree.recordFollow` adds what was collected
to the leaves. Both read the attributes on record; before `Tree.decorate` these are blank, and
nothing is linked.
-/

namespace RegexPositions

/-- A **link**: every one of the targets follows every one of the sources. -/
structure Link where
  /-- The positions that are followed. -/
  sources : PositionSet
  /-- The positions that follow them. -/
  targets : PositionSet
  deriving DecidableEq

/-- The link that a node contributes. -/
def Tree.link? (tree : Tree) (node : Node) : Option Link :=
  match node.shape with
  | .leaf .. => none
  | .unary op operand =>
      if op.repeats then
        some ⟨node.attributes.first, (attributesAt tree.nodes operand).last⟩
      else none
  | .binary .concat left right =>
      some ⟨(attributesAt tree.nodes left).last, (attributesAt tree.nodes right).first⟩
  | .binary .union _ _ => none

/-- The links of a tree, in the order of the nodes. -/
def Tree.links (tree : Tree) : Array Link :=
  tree.nodes.filterMap tree.link?

/-- A **follow table**: entry `p` holds the positions that follow position `p`. -/
abbrev FollowTable := Array PositionSet

/-- The entry for a position; it is empty where the table has none. -/
def FollowTable.entry (table : FollowTable) (p : Nat) : PositionSet :=
  table[p]?.getD ∅

/-- The table with more positions in the entry for `p`. -/
def FollowTable.extend (table : FollowTable) (p : Nat) (targets : PositionSet) : FollowTable :=
  table.modify p (· ∪ targets)

/-- The table with the targets of a link added to the entry of each of its sources. -/
def FollowTable.add (table : FollowTable) (link : Link) : FollowTable :=
  link.sources.toList.foldl (fun table p => table.extend p link.targets) table

/-- The follow table of a tree, with an entry for each position and an empty one for 0. -/
def Tree.followTable (tree : Tree) : FollowTable :=
  tree.links.foldl FollowTable.add (Array.replicate (tree.leafCount + 1) ∅)

/-- The node with what the table has for its position, if it is a leaf. -/
def Node.recordFollow (table : FollowTable) (node : Node) : Node :=
  match node.shape with
  | .leaf letter position follow =>
      { node with shape := .leaf letter position (follow ∪ table.entry position) }
  | .unary .. | .binary .. => node

/-- The tree with what its follow table has for each leaf added to the leaf. -/
def Tree.recordFollow (tree : Tree) : Tree where
  nodes := tree.nodes.map (Node.recordFollow tree.followTable)
  leaves := tree.leaves
  root := tree.root
  root_lt := by
    rw [Array.size_map]
    exact tree.root_lt

end RegexPositions
