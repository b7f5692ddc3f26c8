import RegexPositions.Proofs.Tree.FollowTable
import RegexPositions.Proofs.Tree.Reading

/-!
# Indices in Range

The passes look nodes up by the ids of operands and entries up by the positions of sets, and what
they do with an index that is out of range is to leave it alone. Here are the same passes with
every look-up **checked**: they work in place on one array, and refuse an index that it does not
have (`OutOfRange`).

Nothing is refused as long as every index is in range (`Tree.InRange`):

* `Tree.decorateChecked_eq` — decorating in place stays in range, and comes to the same as
  decorating one node behind the other, if operands stand before their operator;
* `Tree.InRange.followTableChecked_eq` — so do the two sweeps that make the follow table, if also
  no link has a source beyond the table;
* `Tree.InRange.recordFollowChecked_eq` — so does recording, if also the leaf list names nodes and
  no position is beyond the table.

The trees of expressions are such trees at each stage (`Expr.inRange_layout`), so after any passes
each of the passes stays in range (`Expr.applyChecked_run`).
-/

namespace RegexPositions

/-- An index that an array does not have. -/
structure OutOfRange where
  /-- The index. -/
  index : Nat
  /-- The size of the array. -/
  size : Nat
  deriving DecidableEq, Repr

/-! ### Checked look-ups -/

section Lookup

variable {α : Type} {xs : Array α} {i : Nat} {x : α}

/-- The element at an index, which must be in range. -/
def readAt (xs : Array α) (i : Nat) : Except OutOfRange α :=
  match xs[i]? with
  | some x => .ok x
  | none => .error ⟨i, xs.size⟩

/-- The array with the element at an index changed; the index must be in range. -/
def modifyAt (f : α → α) (xs : Array α) (i : Nat) : Except OutOfRange (Array α) :=
  if i < xs.size then .ok (xs.modify i f) else .error ⟨i, xs.size⟩

/-- An index that the array has is not refused. -/
theorem readAt_of_getElem? (h : xs[i]? = some x) : readAt xs i = .ok x := by
  rw [readAt, h]

/-- An element that the array has can be changed. -/
theorem modifyAt_of_lt (f : α → α) (h : i < xs.size) : modifyAt f xs i = .ok (xs.modify i f) :=
  if_pos h

end Lookup

/-- Steps that are safe while `P` holds, and preserve it, are safe one after the other. -/
theorem foldlM_eq_ok {α β : Type} {f : α → β → Except OutOfRange α} {g : α → β → α}
    {P : α → Prop} {items : List β}
    (hstep : ∀ a, P a → ∀ item ∈ items, f a item = .ok (g a item) ∧ P (g a item))
    {a : α} (h : P a) : items.foldlM f a = .ok (items.foldl g a) := by
  induction items generalizing a with
  | nil => rfl
  | cons item items ih =>
      obtain ⟨hok, hnext⟩ := hstep a h item List.mem_cons_self
      rw [List.foldlM_cons, hok, List.foldl_cons]
      exact ih (fun b hb other hother => hstep b hb other (List.mem_cons_of_mem _ hother)) hnext

/-! ### Decorating in place -/

/-- The attributes of a node from those on record for its operands, which must be nodes. -/
def Attributes.ofShapeChecked (nodes : Array Node) (shape : Shape) :
    Except OutOfRange Attributes :=
  match shape with
  | .leaf _ position _ => .ok (leaf position)
  | .unary op operand => do
      let e ← readAt nodes operand
      return unary op e.attributes
  | .binary op left right => do
      let l ← readAt nodes left
      let r ← readAt nodes right
      return binary op l.attributes r.attributes

/-- The nodes with the attributes of node `id` put on record. -/
def decorateAt (nodes : Array Node) (id : Nat) : Except OutOfRange (Array Node) := do
  let node ← readAt nodes id
  let attributes ← Attributes.ofShapeChecked nodes node.shape
  modifyAt (fun node => ⟨node.shape, attributes⟩) nodes id

/-- The operands of every node stand before it. -/
def OperandsBefore (nodes : Array Node) : Prop :=
  ∀ (id : Nat) (node : Node), nodes[id]? = some node → ∀ child ∈ node.children, child < id

/-- A node is found with its attributes, whatever nodes come later. -/
theorem exists_getElem?_append {nodes : Array Node} {id : Nat} (h : id < nodes.size)
    (later : Array Node) : ∃ node, (nodes ++ later)[id]? = some node ∧
      attributesAt nodes id = node.attributes := by
  refine ⟨nodes[id], ?_, ?_⟩
  · rw [Array.getElem?_append_left h, Array.getElem?_eq_getElem h]
  · rw [attributesAt, Array.getElem?_eq_getElem h]
    rfl

/-- The attributes of a node depend on the nodes before it alone. -/
theorem ofShapeChecked_append {nodes : Array Node} {node : Node} (later : Array Node)
    (h : ∀ child ∈ node.children, child < nodes.size) :
    Attributes.ofShapeChecked (nodes ++ later) node.shape =
      .ok (Attributes.ofShape nodes node.shape) := by
  obtain ⟨shape, attributes⟩ := node
  cases shape with
  | leaf letter position follow => rfl
  | unary op operand =>
      obtain ⟨e, he, heq⟩ := exists_getElem?_append (h operand (by simp [Node.children])) later
      simp only [Attributes.ofShapeChecked, Attributes.ofShape, readAt_of_getElem? he, heq]
      rfl
  | binary op left right =>
      obtain ⟨l, hl, hleq⟩ := exists_getElem?_append (h left (by simp [Node.children])) later
      obtain ⟨r, hr, hreq⟩ := exists_getElem?_append (h right (by simp [Node.children])) later
      simp only [Attributes.ofShapeChecked, Attributes.ofShape, readAt_of_getElem? hl,
        readAt_of_getElem? hr, hleq, hreq]
      rfl

/-- Nodes are decorated in place as they are one behind the other. -/
theorem decorateAt_append {nodes : Array Node} {node : Node} (later : List Node)
    (h : ∀ child ∈ node.children, child < nodes.size) :
    decorateAt (nodes ++ (node :: later).toArray) nodes.size =
      .ok (decorateNext nodes node ++ later.toArray) := by
  have hnode : (nodes ++ (node :: later).toArray)[nodes.size]? = some node := by
    rw [Array.getElem?_append_right (Nat.le_refl _), Nat.sub_self]
    rfl
  obtain ⟨hlt, -⟩ := Array.getElem?_eq_some_iff.mp hnode
  have hmodify : ∀ f : Node → Node, (nodes ++ (node :: later).toArray).modify nodes.size f =
      nodes.push (f node) ++ later.toArray := by
    intro f
    apply Array.ext_getElem?
    intro k
    rw [Array.getElem?_modify, Array.getElem?_append, Array.getElem?_append, Array.size_push,
      Array.getElem?_push]
    grind
  rw [decorateAt, readAt_of_getElem? hnode]
  change (Attributes.ofShapeChecked _ node.shape).bind _ = _
  rw [ofShapeChecked_append _ h]
  change modifyAt _ _ _ = _
  rw [modifyAt_of_lt _ hlt, hmodify, decorateNext]

/-- By induction on the nodes still to be decorated, behind those that are. -/
theorem foldlM_decorateAt {front : Array Node} {back : List Node}
    (h : OperandsBefore (front ++ back.toArray)) :
    (List.range' front.size back.length).foldlM decorateAt (decorateNodes front ++ back.toArray) =
      .ok (decorateNodes (front ++ back.toArray)) := by
  induction back generalizing front with
  | nil =>
      rw [Array.append_empty, Array.append_empty]
      rfl
  | cons node back ih =>
      have hassoc : front ++ (node :: back).toArray = front.push node ++ back.toArray := by simp
      have hnode : (front ++ (node :: back).toArray)[front.size]? = some node := by simp
      have hstep := @decorateAt_append (decorateNodes front) node back
      rw [size_decorateNodes] at hstep
      rw [List.length_cons, List.range'_succ, List.foldlM_cons, hstep (h front.size node hnode)]
      rw [hassoc] at h ⊢
      rw [← ih h, Array.size_push, decorateNodes_push]
      rfl

namespace Tree

variable {tree : Tree}

/-- The decorated nodes of the tree, with every look-up checked; at the end, the root is read. -/
def decorateChecked (tree : Tree) : Except OutOfRange (Array Node) := do
  let nodes ← (List.range tree.nodes.size).foldlM decorateAt tree.nodes
  let _ ← readAt nodes tree.root
  return nodes

/-- Where operands stand before their operator, decorating in place stays in range. -/
theorem decorateChecked_eq (h : OperandsBefore tree.nodes) :
    tree.decorateChecked = .ok tree.decorate.nodes := by
  have hfold := @foldlM_decorateAt #[] tree.nodes.toList (by simpa using h)
  have hroot : readAt tree.decorate.nodes tree.root = .ok tree.decorate.rootNode :=
    readAt_of_getElem? tree.decorate.get?_root
  have hall : (List.range tree.nodes.size).foldlM decorateAt tree.nodes =
      .ok tree.decorate.nodes := by
    simpa [List.range_eq_range', Tree.decorate] using hfold
  rw [decorateChecked, hall]
  change (readAt _ _).bind _ = _
  rw [hroot]
  rfl

/-! ### Links and tables -/

/-- The link that a node contributes if it is a concatenation; its operands must be nodes. -/
def concatLinkChecked? (tree : Tree) (node : Node) : Except OutOfRange (Option Link) :=
  match node.shape with
  | .binary .concat left right => do
      let r ← readAt tree.nodes right
      let l ← readAt tree.nodes left
      return some ⟨l.attributes.last, r.attributes.first⟩
  | .binary .union _ _ | .unary .. | .leaf .. => .ok none

/-- The link that a node contributes if it is a repetition; its operand must be a node. -/
def repetitionLinkChecked? (tree : Tree) (node : Node) : Except OutOfRange (Option Link) :=
  match node.shape with
  | .unary op operand =>
      if op.repeats then do
        let e ← readAt tree.nodes operand
        return some ⟨node.attributes.first, e.attributes.last⟩
      else .ok none
  | .binary .. | .leaf .. => .ok none

/-- Reading a node that there is refuses nothing, and shows the attributes on record. -/
theorem exists_readAt {nodes : Array Node} {id : Nat} (h : id < nodes.size) :
    ∃ node, readAt nodes id = .ok node ∧ attributesAt nodes id = node.attributes := by
  obtain ⟨node, hnode, hattributes⟩ := exists_getElem?_append h #[]
  rw [Array.append_empty] at hnode
  exact ⟨node, readAt_of_getElem? hnode, hattributes⟩

/-- Where operands are nodes, the link of a concatenation is found without a refusal. -/
theorem concatLinkChecked?_eq {node : Node} (h : ∀ child ∈ node.children, child < tree.nodes.size) :
    tree.concatLinkChecked? node = .ok (tree.concatLink? node) := by
  obtain ⟨shape, attributes⟩ := node
  cases shape with
  | leaf letter position follow => rfl
  | unary op operand => rfl
  | binary op left right =>
      cases op with
      | concat =>
          obtain ⟨l, hl, hleq⟩ := exists_readAt (h left (by simp [Node.children]))
          obtain ⟨r, hr, hreq⟩ := exists_readAt (h right (by simp [Node.children]))
          simp only [concatLinkChecked?, concatLink?, hl, hr, hleq, hreq]
          rfl
      | union => rfl

/-- Where operands are nodes, the link of a repetition is found without a refusal. -/
theorem repetitionLinkChecked?_eq {node : Node}
    (h : ∀ child ∈ node.children, child < tree.nodes.size) :
    tree.repetitionLinkChecked? node = .ok (tree.repetitionLink? node) := by
  obtain ⟨shape, attributes⟩ := node
  cases shape with
  | leaf letter position follow => rfl
  | unary op operand =>
      obtain ⟨e, he, heq⟩ := exists_readAt (h operand (by simp [Node.children]))
      simp only [repetitionLinkChecked?, repetitionLink?, he, heq]
      cases op.repeats <;> rfl
  | binary op left right => rfl

end Tree

namespace FollowTable

/-- The table with the targets of a link added to the entry of each of its sources; every source
must have an entry. -/
def addChecked (table : FollowTable) (link : Link) : Except OutOfRange FollowTable :=
  link.sources.toList.foldlM (modifyAt (· ∪ link.targets)) table

/-- A sweep over nodes in which every look-up is checked. -/
def sweepChecked (link? : Node → Except OutOfRange (Option Link)) (nodes : List Node)
    (table : FollowTable) : Except OutOfRange FollowTable :=
  nodes.foldlM (fun table node => do
    match ← link? node with
    | some link => addChecked table link
    | none => return table) table

/-- Where its sources have entries, a link is added without a refusal. -/
theorem addChecked_eq {table : FollowTable} {link : Link}
    (h : ∀ p ∈ link.sources, p < table.size) : addChecked table link = .ok (table.add link) := by
  refine foldlM_eq_ok (P := (·.size = table.size)) (g := fun table p => extend table p link.targets)
    (fun xs hsize p hp => ⟨?_, ?_⟩) rfl
  · rw [modifyAt_of_lt, extend]
    rw [hsize]
    exact h p (PositionSet.mem_toList.mp hp)
  · rw [size_extend, hsize]

/-- A sweep stays in range if the links can be found and have no source beyond the table. -/
theorem sweepChecked_eq {linkChecked? : Node → Except OutOfRange (Option Link)}
    {link? : Node → Option Link} {nodes : List Node} {table : FollowTable}
    (hlink : ∀ node ∈ nodes, linkChecked? node = .ok (link? node))
    (hsources : ∀ node ∈ nodes, ∀ link, link? node = some link →
      ∀ p ∈ link.sources, p < table.size) :
    sweepChecked linkChecked? nodes table = .ok (sweep link? nodes table) := by
  rw [sweep, List.foldl_filterMap]
  refine foldlM_eq_ok (P := (·.size = table.size)) (fun xs hsize node hnode => ?_) rfl
  rw [hlink node hnode]
  cases hcase : link? node with
  | none => exact ⟨rfl, hsize⟩
  | some link =>
      refine ⟨addChecked_eq fun p hp => ?_, ?_⟩
      · rw [hsize]
        exact hsources node hnode link hcase p hp
      · rw [← hsize]
        exact size_add xs link

end FollowTable

/-! ### Recording leaf by leaf -/

/-- The node with what the table has for its position, if it is a leaf; there must be an entry for
the position. -/
def Node.recordFollowChecked (table : FollowTable) (node : Node) : Except OutOfRange Node :=
  match node.shape with
  | .leaf letter position follow => do
      let entry ← readAt table position
      return ⟨.leaf letter position (follow ∪ entry), node.attributes⟩
  | .unary .. | .binary .. => .ok node

/-- The nodes with what the table has for the position of node `id` added to that node. -/
def recordFollowAt (table : FollowTable) (nodes : Array Node) (id : Nat) :
    Except OutOfRange (Array Node) := do
  let node ← readAt nodes id
  let recorded ← node.recordFollowChecked table
  modifyAt (fun _ => recorded) nodes id

/-- All positions are less than `n`. -/
def PositionsBelow (n : Nat) (nodes : Array Node) : Prop :=
  ∀ (id : Nat) (node : Node), nodes[id]? = some node → ∀ p, node.position? = some p → p < n

/-- Recording does not change positions. -/
theorem Node.position?_recordFollow (table : FollowTable) (node : Node) :
    (node.recordFollow table).position? = node.position? := by
  obtain ⟨shape, attributes⟩ := node
  cases shape <;> rfl

/-- Where its position has an entry, a leaf gets its follow set without a refusal. -/
theorem Node.recordFollowChecked_eq {table : FollowTable} {node : Node}
    (h : ∀ p, node.position? = some p → p < table.size) :
    node.recordFollowChecked table = .ok (node.recordFollow table) := by
  obtain ⟨shape, attributes⟩ := node
  cases shape with
  | leaf letter position follow =>
      have hentry : table[position]? = some (table.entry position) := by
        rw [FollowTable.entry, Array.getElem?_eq_getElem (h position rfl)]
        rfl
      simp only [recordFollowChecked, readAt_of_getElem? hentry]
      rfl
  | unary op operand => rfl
  | binary op left right => rfl

/-- Where positions have entries, recording at a node refuses nothing. -/
theorem recordFollowAt_eq {table : FollowTable} {nodes : Array Node} {id : Nat}
    (hid : id < nodes.size) (h : PositionsBelow table.size nodes) :
    recordFollowAt table nodes id = .ok (nodes.modify id (Node.recordFollow table)) := by
  have hnode : nodes[id]? = some nodes[id] := Array.getElem?_eq_getElem hid
  have hmodify : nodes.modify id (fun _ => nodes[id].recordFollow table) =
      nodes.modify id (Node.recordFollow table) := by
    apply Array.ext_getElem?
    intro k
    rw [Array.getElem?_modify, Array.getElem?_modify]
    split
    · next hk =>
        subst hk
        rw [hnode]
        rfl
    · rfl
  rw [recordFollowAt, readAt_of_getElem? hnode]
  change (Node.recordFollowChecked table nodes[id]).bind _ = _
  rw [Node.recordFollowChecked_eq (h id _ hnode)]
  change modifyAt _ _ _ = _
  rw [modifyAt_of_lt _ hid, hmodify]

/-- Recording changes no position. -/
theorem PositionsBelow.modify {n : Nat} {nodes : Array Node} (h : PositionsBelow n nodes)
    (table : FollowTable) (id : Nat) :
    PositionsBelow n (nodes.modify id (Node.recordFollow table)) := by
  intro k node hnode p hp
  rw [Array.getElem?_modify] at hnode
  split at hnode
  · obtain ⟨before, hbefore, rfl⟩ := Option.map_eq_some_iff.mp hnode
    rw [Node.position?_recordFollow] at hp
    exact h k before hbefore p hp
  · exact h k node hnode p hp

namespace Tree

variable {tree : Tree}

/-- The follow table of the tree, in two sweeps in which every look-up is checked. -/
def followTableChecked (tree : Tree) : Except OutOfRange FollowTable := do
  let table ← FollowTable.sweepChecked tree.concatLinkChecked? tree.nodes.toList tree.blankTable
  FollowTable.sweepChecked tree.repetitionLinkChecked? tree.nodes.toList table

/-- The nodes with what the follow table has for each leaf added to the leaf; every look-up is
checked. -/
def recordFollowChecked (tree : Tree) : Except OutOfRange (Array Node) := do
  let table ← tree.followTableChecked
  tree.leaves.toList.foldlM (recordFollowAt table) tree.nodes

/-- **Every index is in range**: operands and leaves are nodes, and operands stand before their
operator; positions, and what is linked, have entries in the follow table. -/
structure InRange (tree : Tree) : Prop where
  /-- Operands stand before their operator. -/
  operands_before : OperandsBefore tree.nodes
  /-- The leaf list names nodes. -/
  leaf_lt : ∀ id ∈ tree.leaves, id < tree.nodes.size
  /-- No leaf has a position beyond the table. -/
  positions_below : PositionsBelow (tree.leafCount + 1) tree.nodes
  /-- No link has a source beyond the table. -/
  source_le : ∀ link ∈ tree.links, ∀ p ∈ link.sources, p ≤ tree.leafCount

namespace InRange

/-- In range, operands are nodes. -/
theorem child_lt (h : tree.InRange) {node : Node} (hnode : node ∈ tree.nodes) :
    ∀ child ∈ node.children, child < tree.nodes.size := by
  obtain ⟨id, hid⟩ := Array.getElem?_of_mem hnode
  obtain ⟨hlt, -⟩ := Array.getElem?_eq_some_iff.mp hid
  exact fun child hchild => Nat.lt_trans (h.operands_before id node hid child hchild) hlt

/-- Both sweeps stay in range. -/
theorem followTableChecked_eq (h : tree.InRange) :
    tree.followTableChecked = .ok tree.followTable := by
  have hsource : ∀ {link? : Node → Option Link} {node : Node}, node ∈ tree.nodes.toList →
      (∀ link, link? node = some link → tree.link? node = some link) →
      ∀ link, link? node = some link → ∀ p ∈ link.sources, p < tree.leafCount + 1 := by
    intro link? node hnode hlink? link hlink p hp
    refine Nat.lt_succ_of_le (h.source_le link ?_ p hp)
    exact Array.mem_filterMap.mpr ⟨node, Array.mem_toList_iff.mp hnode, hlink? link hlink⟩
  have hsize : (FollowTable.sweep tree.concatLink? tree.nodes.toList tree.blankTable).size =
      tree.leafCount + 1 := by
    rw [FollowTable.sweep, FollowTable.size_foldl_add, blankTable, Array.size_replicate]
  have hconcats : FollowTable.sweepChecked tree.concatLinkChecked? tree.nodes.toList
      tree.blankTable =
        .ok (FollowTable.sweep tree.concatLink? tree.nodes.toList tree.blankTable) := by
    refine FollowTable.sweepChecked_eq (fun node hnode => ?_) fun node hnode => ?_
    · exact concatLinkChecked?_eq (h.child_lt (Array.mem_toList_iff.mp hnode))
    · rw [blankTable, Array.size_replicate]
      exact hsource hnode fun link hlink => link?_eq_some_iff.mpr (.inl hlink)
  rw [followTableChecked, hconcats, ← sweep_repetitions_concats (.refl _) (.refl _)]
  refine FollowTable.sweepChecked_eq (fun node hnode => ?_) fun node hnode => ?_
  · exact repetitionLinkChecked?_eq (h.child_lt (Array.mem_toList_iff.mp hnode))
  · rw [hsize]
    exact hsource hnode fun link hlink => link?_eq_some_iff.mpr (.inr hlink)

/-- Recording leaf by leaf stays in range. -/
theorem recordFollowChecked_eq (h : tree.InRange) :
    tree.recordFollowChecked = .ok tree.recordLeaves.nodes := by
  have hpositions : PositionsBelow tree.followTable.size tree.nodes := by
    rw [Tree.size_followTable]
    exact h.positions_below
  rw [recordFollowChecked, h.followTableChecked_eq]
  refine foldlM_eq_ok (P := fun nodes => nodes.size = tree.nodes.size ∧
      PositionsBelow tree.followTable.size nodes)
    (g := fun nodes id => nodes.modify id (Node.recordFollow tree.followTable))
    (fun nodes hnodes id hid => ⟨recordFollowAt_eq ?_ hnodes.2, ?_, hnodes.2.modify _ _⟩)
    ⟨rfl, hpositions⟩
  · rw [hnodes.1]
    exact h.leaf_lt id (Array.mem_toList_iff.mp hid)
  · rw [Array.size_modify, hnodes.1]

end InRange

end Tree

/-- The nodes after a pass in which every look-up is checked. -/
def Pass.applyChecked : Pass → Tree → Except OutOfRange (Array Node)
  | decorate => Tree.decorateChecked
  | recordFollow => Tree.recordFollowChecked

/-! ### The trees of expressions -/

namespace Expr

variable {follow : Nat → PositionSet} {attributes : Nat → Expr → Attributes} {e : Expr}

/-- In the tree of an expression operands stand before their operator. -/
theorem operandsBefore_layout (follow : Nat → PositionSet) (attributes : Nat → Expr → Attributes)
    (e : Expr) : OperandsBefore (e.layout follow attributes).nodes := by
  intro id node hnode child hchild
  obtain ⟨side, hside⟩ : ∃ side, node.child? side = some child := by
    obtain ⟨shape, attributes⟩ := node
    cases shape with
    | leaf letter position follow => cases hchild
    | unary op operand => exact ⟨.left, (congrArg some (List.mem_singleton.mp hchild)).symm⟩
    | binary op left right =>
        rcases List.mem_pair.mp hchild with rfl | rfl
        · exact ⟨.left, rfl⟩
        · exact ⟨.right, rfl⟩
  have hchild : (e.layout follow attributes).IsChild id side child := by
    have hget : (e.layout follow attributes).get? id = some node := hnode
    rw [Tree.IsChild, hget]
    exact hside
  exact (e.postorder_layout follow attributes).child_lt hchild

/-- A node that has a position has one of the expression. -/
theorem hasPosition_of_mem_layoutFrom {id start p : Nat} {node : Node}
    (h : node ∈ e.layoutFrom follow attributes id start) (hp : node.position? = some p) :
    e.HasPosition start p := by
  induction e generalizing id start with
  | leaf letter =>
      obtain rfl := List.mem_singleton.mp h
      obtain rfl : start = p := Option.some.inj hp
      exact ⟨Nat.le_refl start, Nat.lt_succ_self start⟩
  | unary op e ih =>
      rcases List.mem_append.mp h with h | h
      · exact ih h
      · obtain rfl := List.mem_singleton.mp h
        cases hp
  | binary op l r ihl ihr =>
      rcases List.mem_append.mp h with h | h
      · rcases List.mem_append.mp h with h | h
        · exact hasPosition_binary p (.inl (ihl h))
        · exact hasPosition_binary p (.inr (ihr h))
      · obtain rfl := List.mem_singleton.mp h
        cases hp

/-- A link has a target. -/
theorem exists_mem_targets {start : Nat} {link : Link} (h : link ∈ e.linksFrom start) :
    ∃ q, q ∈ link.targets := by
  induction e generalizing start with
  | leaf letter => cases h
  | unary op e ih =>
      rcases List.mem_append.mp h with h | h
      · exact ih h
      · obtain ⟨-, rfl⟩ := by simpa using h
        exact ⟨_, stop_mem_last start e⟩
  | binary op l r ihl ihr =>
      cases op with
      | concat =>
          rcases List.mem_append.mp h with h | h
          · exact (List.mem_append.mp h).elim ihl ihr
          · obtain rfl := List.mem_singleton.mp h
            exact ⟨_, start_mem_first _ r⟩
      | union => exact (List.mem_append.mp h).elim ihl ihr

/-- At each stage of a tree, every index is in range. -/
theorem inRange_layout (h : attributes = attributesFrom ∨ attributes = fun _ _ => .blank) :
    (e.layout follow attributes).InRange where
  operands_before := operandsBefore_layout follow attributes e
  leaf_lt := by
    intro id hid
    rw [← Array.mem_toList_iff, leaves_layout] at hid
    exact List.mem_range.mp (List.mem_of_mem_filter hid)
  positions_below := by
    intro id node hnode p hp
    have hmem := List.mem_toArray.mp (Array.mem_of_getElem? hnode)
    have := (hasPosition_of_mem_layoutFrom hmem hp).2
    rw [leafCount_layout]
    omega
  source_le := by
    intro link hlink p hp
    rcases h with rfl | rfl
    · have hmem : link ∈ e.linksFrom 1 := by
        rwa [← Array.mem_toList_iff, toList_links_layout] at hlink
      obtain ⟨q, hq⟩ := exists_mem_targets hmem
      rw [leafCount_layout]
      exact (range_of_mem_links (.inl rfl) ⟨link, hlink, hp, hq⟩).2
    · obtain ⟨node, hnode, hlink⟩ := Array.mem_filterMap.mp hlink
      have hblank : ∀ node ∈ (e.layout follow fun _ _ => .blank).nodes, node.attributes = .blank :=
        fun node hnode => attributes_of_mem_layoutFrom_blank (List.mem_toArray.mp hnode)
      rw [Tree.sources_of_link?_of_blank hblank hnode hlink] at hp
      exact absurd hp (PositionSet.not_mem_empty p)

/-- After any passes, each of the passes and the follow table stay in range. -/
theorem applyChecked_run (e : Expr) (passes : List Pass) :
    (∀ pass : Pass, pass.applyChecked (e.toTree.run passes) =
      .ok (pass.apply (e.toTree.run passes)).nodes) ∧
    (e.toTree.run passes).followTableChecked = .ok (e.toTree.run passes).followTable := by
  obtain ⟨follow, attributes, hrun, hattributes⟩ := e.exists_run_toTree passes
  rw [hrun]
  have hrange : (e.layout follow attributes).InRange := inRange_layout hattributes
  refine ⟨fun pass => ?_, hrange.followTableChecked_eq⟩
  cases pass with
  | decorate => exact Tree.decorateChecked_eq hrange.operands_before
  | recordFollow =>
      rw [Pass.apply, ← Tree.recordLeaves_eq (leaves_layout follow attributes e)]
      exact hrange.recordFollowChecked_eq

end Expr

end RegexPositions
