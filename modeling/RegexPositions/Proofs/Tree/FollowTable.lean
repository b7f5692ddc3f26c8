import RegexPositions.Proofs.Tree.Arena

/-!
# The Follow Table, Entry by Entry

The follow table of a tree holds what the concatenations and the repetitions of the tree put
there, and nothing else. This is true at each stage of a tree, whatever attributes are on record.

* `Tree.exists_mem_links_iff` — a link comes from a concatenation (`Tree.ConcatLinks`) or from a
  repetition (`Tree.RepetitionLinks`);
* `FollowTable.foldl_add_congr` — a table depends on the links that are added, and not on their
  order. So the table may as well be made in two sweeps over the nodes, one for each kind of
  operator, which visit the nodes in any order (`Tree.sweep_repetitions_concats`,
  `Tree.sweep_concats_repetitions`);
* `Tree.recordLeaves_eq` — recording may as well go through the leaf list, one leaf at a time;
* `Tree.exactTable_of_ofExpression` — all of it, for the tree of an expression after any passes.
-/

namespace RegexPositions

/-! ### Tables -/

namespace FollowTable

variable {links others : List Link} {table other : FollowTable}

/-- Tables of one size with the same entries are equal. -/
theorem ext_entry (hsize : table.size = other.size)
    (hentry : ∀ p q, q ∈ table.entry p ↔ q ∈ other.entry p) : table = other := by
  apply Array.ext hsize
  intro p hp hp'
  have h : table.entry p = other.entry p := PositionSet.ext (hentry p)
  rwa [entry, entry, Array.getElem?_eq_getElem hp, Array.getElem?_eq_getElem hp'] at h

/-- The order of the links leaves no trace in a table. -/
theorem foldl_add_congr (h : ∀ link, link ∈ links ↔ link ∈ others) :
    links.foldl add table = others.foldl add table := by
  apply ext_entry
  · rw [size_foldl_add, size_foldl_add]
  · intro p q
    rw [mem_entry_foldl_add, mem_entry_foldl_add]
    simp only [h]

/-- A **sweep** over nodes adds the links that they contribute, one node after the other. -/
def sweep (link? : Node → Option Link) (nodes : List Node) (table : FollowTable) : FollowTable :=
  (nodes.filterMap link?).foldl add table

end FollowTable

/-- The operators that repeat are `*` and `+`. -/
theorem UnaryOp.repeats_eq_true_iff {op : UnaryOp} :
    op.repeats = true ↔ op = .star ∨ op = .plus := by
  cases op <;> simp [repeats]

/-- Only leaves have anything to record. -/
theorem Node.recordFollow_of_not_isLeaf {node : Node} (h : node.isLeaf = false)
    (table : FollowTable) : node.recordFollow table = node := by
  obtain ⟨shape, attributes⟩ := node
  cases shape with
  | leaf letter position follow => cases h
  | unary op operand => rfl
  | binary op left right => rfl

namespace Tree

variable {tree : Tree} {i j k id : Nat} {node : Node} {link : Link}

/-! ### Two kinds of links -/

/-- The link that a node contributes if it is a concatenation. -/
def concatLink? (tree : Tree) (node : Node) : Option Link :=
  match node.shape with
  | .binary .concat left right =>
      some ⟨(attributesAt tree.nodes left).last, (attributesAt tree.nodes right).first⟩
  | .binary .union _ _ | .unary .. | .leaf .. => none

/-- The link that a node contributes if it is a repetition. -/
def repetitionLink? (tree : Tree) (node : Node) : Option Link :=
  match node.shape with
  | .unary op operand =>
      if op.repeats then
        some ⟨node.attributes.first, (attributesAt tree.nodes operand).last⟩
      else none
  | .binary .. | .leaf .. => none

/-- A link is that of a concatenation or that of a repetition. -/
theorem link?_eq_some_iff :
    tree.link? node = some link ↔
      tree.concatLink? node = some link ∨ tree.repetitionLink? node = some link := by
  obtain ⟨shape, attributes⟩ := node
  cases shape with
  | leaf letter position follow => simp [link?, concatLink?, repetitionLink?]
  | unary op operand => simp [link?, concatLink?, repetitionLink?]
  | binary op left right => cases op <;> simp [link?, concatLink?, repetitionLink?]

/-- Some concatenation has `i` among the last positions of its left operand and `j` among the first
ones of its right operand. -/
def ConcatLinks (tree : Tree) (i j : Nat) : Prop :=
  ∃ id left right l r, (tree.get? id).map Node.shape = some (.binary .concat left right) ∧
    tree.get? left = some l ∧ tree.get? right = some r ∧
    i ∈ l.attributes.last ∧ j ∈ r.attributes.first

/-- Some repetition has `i` among its own first positions and `j` among the last ones of its
operand. -/
def RepetitionLinks (tree : Tree) (i j : Nat) : Prop :=
  ∃ id node op operand e, tree.get? id = some node ∧ node.shape = .unary op operand ∧
    (op = .star ∨ op = .plus) ∧ tree.get? operand = some e ∧
    i ∈ node.attributes.first ∧ j ∈ e.attributes.last

/-- Only a node of the tree has positions on record. -/
theorem mem_attributesAt_iff {nodes : Array Node} {field : Attributes → PositionSet}
    (hblank : field .blank = ∅) :
    i ∈ field (attributesAt nodes id) ↔
      ∃ node, nodes[id]? = some node ∧ i ∈ field node.attributes := by
  cases hnode : nodes[id]? with
  | none => simp [attributesAt, hnode, hblank]
  | some node => simp [attributesAt, hnode]

/-- Concatenations link what the links of their nodes join. -/
theorem concatLinks_iff :
    tree.ConcatLinks i j ↔ ∃ node ∈ tree.nodes, ∃ link, tree.concatLink? node = some link ∧
      i ∈ link.sources ∧ j ∈ link.targets := by
  constructor
  · rintro ⟨id, left, right, l, r, hshape, hl, hr, hi, hj⟩
    obtain ⟨node, hnode, hshape⟩ := Option.map_eq_some_iff.mp hshape
    refine ⟨node, Array.mem_of_getElem? hnode, _, by rw [concatLink?, hshape], ?_, ?_⟩
    · exact (mem_attributesAt_iff rfl).mpr ⟨l, hl, hi⟩
    · exact (mem_attributesAt_iff rfl).mpr ⟨r, hr, hj⟩
  · rintro ⟨node, hnode, link, hlink, hi, hj⟩
    obtain ⟨id, hid⟩ := Array.getElem?_of_mem hnode
    unfold concatLink? at hlink
    split at hlink
    · next left right hshape =>
        cases hlink
        obtain ⟨l, hl, hi⟩ := (mem_attributesAt_iff rfl).mp hi
        obtain ⟨r, hr, hj⟩ := (mem_attributesAt_iff rfl).mp hj
        exact ⟨id, left, right, l, r, by rw [get?, hid]; exact congrArg some hshape, hl, hr, hi, hj⟩
    · cases hlink
    · cases hlink
    · cases hlink

/-- Repetitions link what the links of their nodes join. -/
theorem repetitionLinks_iff :
    tree.RepetitionLinks i j ↔ ∃ node ∈ tree.nodes, ∃ link, tree.repetitionLink? node = some link ∧
      i ∈ link.sources ∧ j ∈ link.targets := by
  constructor
  · rintro ⟨id, node, op, operand, e, hnode, hshape, hop, he, hi, hj⟩
    have hlink : tree.repetitionLink? node =
        some ⟨node.attributes.first, (attributesAt tree.nodes operand).last⟩ := by
      rw [repetitionLink?, hshape]
      exact if_pos (UnaryOp.repeats_eq_true_iff.mpr hop)
    refine ⟨node, Array.mem_of_getElem? hnode, _, hlink, hi, ?_⟩
    exact (mem_attributesAt_iff rfl).mpr ⟨e, he, hj⟩
  · rintro ⟨node, hnode, link, hlink, hi, hj⟩
    obtain ⟨id, hid⟩ := Array.getElem?_of_mem hnode
    unfold repetitionLink? at hlink
    split at hlink
    · next op operand hshape =>
        obtain ⟨hop, hlink⟩ := Option.ite_none_right_eq_some.mp hlink
        cases hlink
        obtain ⟨e, he, hj⟩ := (mem_attributesAt_iff rfl).mp hj
        have hrepeats := UnaryOp.repeats_eq_true_iff.mp hop
        exact ⟨id, node, op, operand, e, hid, hshape, hrepeats, he, hi, hj⟩
    · cases hlink
    · cases hlink

/-- The links of a tree are those of its concatenations and repetitions. -/
theorem exists_mem_links_iff :
    (∃ link ∈ tree.links, i ∈ link.sources ∧ j ∈ link.targets) ↔
      tree.ConcatLinks i j ∨ tree.RepetitionLinks i j := by
  rw [concatLinks_iff, repetitionLinks_iff]
  constructor
  · rintro ⟨link, hlink, hi, hj⟩
    obtain ⟨node, hnode, hlink⟩ := Array.mem_filterMap.mp hlink
    exact (link?_eq_some_iff.mp hlink).imp (fun h => ⟨node, hnode, link, h, hi, hj⟩)
      fun h => ⟨node, hnode, link, h, hi, hj⟩
  · rintro (⟨node, hnode, link, hlink, h⟩ | ⟨node, hnode, link, hlink, h⟩)
    · exact ⟨link, Array.mem_filterMap.mpr ⟨node, hnode, link?_eq_some_iff.mpr (.inl hlink)⟩, h⟩
    · exact ⟨link, Array.mem_filterMap.mpr ⟨node, hnode, link?_eq_some_iff.mpr (.inr hlink)⟩, h⟩

/-! ### Two sweeps -/

/-- The table before the first sweep. -/
def blankTable (tree : Tree) : FollowTable :=
  Array.replicate (tree.leafCount + 1) ∅

/-- Links that are added in sweeps over all nodes, in whatever order, make the follow table. -/
theorem sweep_sweep_eq {first second : Node → Option Link} {nodes others : List Node}
    (hnodes : nodes.Perm tree.nodes.toList) (hothers : others.Perm tree.nodes.toList)
    (hlink : ∀ node link, tree.link? node = some link ↔
      first node = some link ∨ second node = some link) :
    FollowTable.sweep second others (FollowTable.sweep first nodes tree.blankTable) =
      tree.followTable := by
  rw [FollowTable.sweep, FollowTable.sweep, ← List.foldl_append, followTable, ← Array.foldl_toList]
  refine FollowTable.foldl_add_congr fun link => ?_
  simp only [List.mem_append, List.mem_filterMap, hnodes.mem_iff, hothers.mem_iff, links,
    Array.mem_toList_iff, Array.mem_filterMap, hlink, and_or_left, exists_or]

/-- The concatenations may come first. -/
theorem sweep_repetitions_concats {nodes others : List Node}
    (hnodes : nodes.Perm tree.nodes.toList) (hothers : others.Perm tree.nodes.toList) :
    FollowTable.sweep tree.repetitionLink? others
      (FollowTable.sweep tree.concatLink? nodes tree.blankTable) = tree.followTable :=
  sweep_sweep_eq hnodes hothers fun _ _ => link?_eq_some_iff

/-- The repetitions may come first. -/
theorem sweep_concats_repetitions {nodes others : List Node}
    (hnodes : nodes.Perm tree.nodes.toList) (hothers : others.Perm tree.nodes.toList) :
    FollowTable.sweep tree.concatLink? others
      (FollowTable.sweep tree.repetitionLink? nodes tree.blankTable) = tree.followTable :=
  sweep_sweep_eq hnodes hothers fun _ _ => link?_eq_some_iff.trans or_comm

/-- The follow table has an entry for each position, and one for 0. -/
theorem getElem?_followTable {p : Nat} (h : p ≤ tree.leafCount) :
    tree.followTable[p]? = some (tree.followTable.entry p) := by
  have hsize : p < tree.followTable.size := by
    rw [size_followTable]
    omega
  rw [FollowTable.entry, Array.getElem?_eq_getElem hsize]
  rfl

/-! ### Recording leaf by leaf -/

section Modify

variable {f : Node → Node} {nodes : Array Node} {ids : List Nat}

/-- Changing nodes leaves as many of them. -/
theorem size_foldl_modify (f : Node → Node) (ids : List Nat) (nodes : Array Node) :
    (ids.foldl (fun nodes id => nodes.modify id f) nodes).size = nodes.size := by
  induction ids generalizing nodes with
  | nil => rfl
  | cons id ids ih => rw [List.foldl_cons, ih, Array.size_modify]

/-- Changing some nodes one after the other changes each of them once, and no other node. -/
theorem getElem?_foldl_modify (h : ids.Nodup) (nodes : Array Node) (k : Nat) :
    (ids.foldl (fun nodes id => nodes.modify id f) nodes)[k]? =
      if k ∈ ids then nodes[k]?.map f else nodes[k]? := by
  induction ids generalizing nodes with
  | nil => simp
  | cons id ids ih =>
      obtain ⟨hid, hids⟩ := List.nodup_cons.mp h
      rw [List.foldl_cons, ih hids, Array.getElem?_modify]
      by_cases hk : id = k
      · subst hk
        simp [hid]
      · simp [hk, Ne.symm hk]

end Modify

/-- The tree with what its follow table has for each leaf added to the leaf; the leaves are found
in the leaf list, one after the other. -/
def recordLeaves (tree : Tree) : Tree where
  nodes := tree.leaves.toList.foldl
    (fun nodes id => nodes.modify id (Node.recordFollow tree.followTable)) tree.nodes
  leaves := tree.leaves
  root := tree.root
  root_lt := by
    rw [size_foldl_modify]
    exact tree.root_lt

/-- Trees with the same nodes, leaves and root are equal. -/
theorem ext {other : Tree} (hnodes : tree.nodes = other.nodes)
    (hleaves : tree.leaves = other.leaves) (hroot : tree.root = other.root) : tree = other := by
  cases tree
  cases other
  simp_all

/-- The leaf list names the leaves, so it does not matter whether one goes through it or through all
nodes. -/
theorem recordLeaves_eq (h : tree.leaves.toList =
    (List.range tree.nodes.size).filter fun k => (tree.get? k).any Node.isLeaf) :
    tree.recordLeaves = tree.recordFollow := by
  refine ext (Array.ext_getElem? fun k => ?_) rfl rfl
  have hnodup : tree.leaves.toList.Nodup := by
    rw [h]
    exact List.nodup_range.filter _
  change (tree.leaves.toList.foldl _ tree.nodes)[k]? =
    (tree.nodes.map (Node.recordFollow tree.followTable))[k]?
  rw [getElem?_foldl_modify hnodup, Array.getElem?_map]
  split
  · rfl
  · next hk =>
      cases hnode : tree.nodes[k]? with
      | none => rfl
      | some node =>
          -- The node is no leaf, and recording does not change it.
          have hleaf : node.isLeaf = false := by
            obtain ⟨hlt, -⟩ := Array.getElem?_eq_some_iff.mp hnode
            rw [h, List.mem_filter, List.mem_range, get?, hnode] at hk
            exact Bool.eq_false_iff.mpr fun hleaf => hk ⟨hlt, hleaf⟩
          rw [Option.map_some, Node.recordFollow_of_not_isLeaf hleaf]

/-! ### All that is not a follow set -/

/-- The tree without what is on record about which positions follow. -/
def eraseFollow (tree : Tree) : Tree where
  nodes := tree.nodes.map fun node =>
    match node.shape with
    | .leaf letter position _ => { node with shape := .leaf letter position ∅ }
    | .unary .. | .binary .. => node
  leaves := tree.leaves
  root := tree.root
  root_lt := by
    rw [Array.size_map]
    exact tree.root_lt

/-- Recording changes follow sets and nothing else. -/
theorem eraseFollow_recordFollow (tree : Tree) :
    tree.recordFollow.eraseFollow = tree.eraseFollow := by
  refine ext ?_ rfl rfl
  simp only [eraseFollow, recordFollow, Array.map_map]
  refine Array.map_congr_left fun node _ => ?_
  obtain ⟨shape, attributes⟩ := node
  cases shape <;> rfl

end Tree

/-! ### The trees of expressions -/

namespace Expr

variable {follow : Nat → PositionSet} {attributes : Nat → Expr → Attributes} {e : Expr}
variable {i j : Nat} {link : Link}

/-- After any passes, the attributes on record are those of the expression, or blank. -/
theorem exists_run_toTree (e : Expr) (passes : List Pass) :
    ∃ follow attributes, e.toTree.run passes = e.layout follow attributes ∧
      (attributes = attributesFrom ∨ attributes = fun _ _ => .blank) := by
  rcases e.stages_toTree.run_cases passes with hrun | hrun | hrun
  · exact ⟨_, _, hrun.trans e.toTree_eq_layout, .inr rfl⟩
  · exact ⟨_, _, hrun.trans e.decorate_toTree, .inl rfl⟩
  · exact ⟨_, _, hrun.trans e.recordFollow_decorate_toTree, .inl rfl⟩

/-- Whatever is followed is a position of the expression. -/
theorem range_of_mem_links
    (h : attributes = attributesFrom ∨ attributes = fun _ _ => .blank)
    (hlink : ∃ link ∈ (e.layout follow attributes).links, i ∈ link.sources ∧ j ∈ link.targets) :
    1 ≤ i ∧ i ≤ e.leafCount := by
  rcases h with rfl | rfl
  · have hlinked : e.Linked 1 i j := by
      simpa only [Linked, ← @toList_links_layout follow e, Array.mem_toList_iff] using hlink
    have := (range_of_linked hlinked).1
    exact ⟨this.1, by have := this.2; omega⟩
  · obtain ⟨link, hmem, hi, -⟩ := hlink
    obtain ⟨node, hnode, hlink⟩ := Array.mem_filterMap.mp hmem
    have hblank : ∀ node ∈ (e.layout follow fun _ _ => .blank).nodes, node.attributes = .blank :=
      fun node hnode => attributes_of_mem_layoutFrom_blank (List.mem_toArray.mp hnode)
    rw [Tree.sources_of_link?_of_blank hblank hnode hlink] at hi
    exact absurd hi (PositionSet.not_mem_empty i)

/-- The leaf list has the ids of the leaves, in ascending order. -/
theorem leaves_layout (follow : Nat → PositionSet) (attributes : Nat → Expr → Attributes)
    (e : Expr) :
    (e.layout follow attributes).leaves.toList =
      (List.range (e.layout follow attributes).nodes.size).filter
        fun k => ((e.layout follow attributes).get? k).any Node.isLeaf := by
  have hfilter := leafIdsFrom_eq_filter (block_layout follow attributes e)
  simpa [layout, List.range_eq_range'] using hfilter

end Expr

namespace Tree

/-- The follow table of a tree is **exact**: it holds what the links of the tree put there, in
whatever order they are found, and recording adds its entries to the follow sets. -/
structure ExactTable (tree : Tree) : Prop where
  /-- There is an entry for 0 and for each position. -/
  size_eq : tree.followTable.size = tree.leafCount + 1
  /-- The entry for 0 is empty. -/
  entry_zero : tree.followTable[0]? = some ∅
  /-- A position is in an entry exactly if a concatenation or a repetition puts it there. -/
  mem_entry_iff : ∀ i j,
    j ∈ tree.followTable.entry i ↔ tree.ConcatLinks i j ∨ tree.RepetitionLinks i j
  /-- Two sweeps over the nodes, for concatenations and for repetitions, make the same table, in
  whatever order they visit the nodes and whichever comes first. -/
  sweep_eq : ∀ nodes others : List Node,
    nodes.Perm tree.nodes.toList → others.Perm tree.nodes.toList →
    FollowTable.sweep tree.repetitionLink? others
      (FollowTable.sweep tree.concatLink? nodes tree.blankTable) = tree.followTable ∧
    FollowTable.sweep tree.concatLink? others
      (FollowTable.sweep tree.repetitionLink? nodes tree.blankTable) = tree.followTable
  /-- Recording may go through the leaf list. -/
  recordLeaves_eq : tree.recordLeaves = tree.recordFollow
  /-- Recording joins the follow set of each leaf with the entry for its position. -/
  follow?_recordFollow : ∀ p, 1 ≤ p → p ≤ tree.leafCount → ∃ follow entry,
    (tree.leaf? p).bind Node.follow? = some follow ∧ tree.followTable[p]? = some entry ∧
    (tree.recordFollow.leaf? p).bind Node.follow? = some (follow ∪ entry)
  /-- Recording changes nothing else. -/
  eraseFollow_recordFollow : tree.recordFollow.eraseFollow = tree.eraseFollow

/-- **Follow tables are exact.** Whatever passes have been run over the tree of an expression, its
follow table holds what the attributes on record call for, entry by entry. -/
theorem exactTable_of_ofExpression {expression : String} {tree : Tree}
    (h : Tree.ofExpression expression = .ok tree) (passes : List Pass) :
    (tree.run passes).ExactTable := by
  obtain ⟨e, -, rfl⟩ := Tree.ofExpression_eq_ok_iff.mp h
  obtain ⟨follow, attributes, hrun, hattributes⟩ := e.exists_run_toTree passes
  rw [hrun]
  have hentry : ∀ i j, j ∈ (e.layout follow attributes).followTable.entry i ↔
      ∃ link ∈ (e.layout follow attributes).links, i ∈ link.sources ∧ j ∈ link.targets := by
    intro i j
    rw [mem_entry_followTable, Expr.leafCount_layout]
    exact and_iff_right_of_imp fun hlink => (Expr.range_of_mem_links hattributes hlink).2
  refine ⟨size_followTable _, ?_, fun i j => (hentry i j).trans exists_mem_links_iff,
    fun nodes others hnodes hothers => ⟨sweep_repetitions_concats hnodes hothers,
      sweep_concats_repetitions hnodes hothers⟩,
    recordLeaves_eq (e.leaves_layout follow attributes), fun p h1 h2 => ?_,
    eraseFollow_recordFollow _⟩
  · rw [getElem?_followTable (Nat.zero_le _)]
    refine congrArg some (PositionSet.ext fun j => ?_)
    refine iff_of_false (fun hj => ?_) (PositionSet.not_mem_empty j)
    exact absurd (Expr.range_of_mem_links hattributes ((hentry 0 j).mp hj)).1 (by omega)
  · have hentry := getElem?_followTable h2
    rw [Expr.leafCount_layout] at h2
    refine ⟨_, _, Expr.follow?_leaf?_layout h1 h2, hentry, ?_⟩
    rw [Expr.recordFollow_layout, Expr.follow?_leaf?_layout h1 h2]

/-- In `ab|*c.`, once it is decorated, the repetition lets either of its letters follow the other,
and the concatenation lets the third letter follow both. Nothing follows the third letter. -/
theorem exactTable_of_ofExpression_star_concat :
    ∃ tree, Tree.ofExpression "ab|*c." = .ok tree ∧ (tree.run [.decorate]).ExactTable ∧
      (tree.run [.decorate]).followTable =
        #[∅, .ofList [1, 2, 3], .ofList [1, 2, 3], ∅] ∧
      ((tree.run [.decorate]).ConcatLinks 1 2 ∨ (tree.run [.decorate]).RepetitionLinks 1 2) ∧
      ((tree.run [.decorate]).ConcatLinks 2 3 ∨ (tree.run [.decorate]).RepetitionLinks 2 3) ∧
      ∀ q, ¬(tree.run [.decorate]).ConcatLinks 3 q := by
  let e : Expr := .binary .concat
    (.unary .star (.binary .union (.leaf (.operand 'a')) (.leaf (.operand 'b'))))
    (.leaf (.operand 'c'))
  have hbuild : Tree.ofExpression "ab|*c." = .ok e.toTree :=
    Tree.ofExpression_eq_ok_iff.mpr ⟨e, .binary .concat
      (.unary .star (.binary .union (.plain rfl) (.plain rfl))) (.plain rfl), rfl⟩
  have hexact := exactTable_of_ofExpression hbuild [.decorate]
  have htable : (e.toTree.run [.decorate]).followTable =
      #[∅, .ofList [1, 2, 3], .ofList [1, 2, 3], ∅] := by decide +kernel
  have hentry : (e.toTree.run [.decorate]).followTable.entry 3 = ∅ := by
    rw [htable]
    rfl
  refine ⟨_, hbuild, hexact, htable, (hexact.mem_entry_iff 1 2).mp ?_,
    (hexact.mem_entry_iff 2 3).mp ?_, fun q hq => ?_⟩
  · rw [htable]
    decide
  · rw [htable]
    decide
  · have hmem := (hexact.mem_entry_iff 3 q).mpr (.inl hq)
    rw [hentry] at hmem
    exact PositionSet.not_mem_empty q hmem

end Tree

end RegexPositions
