import Mathlib.Order.Bounds.Defs
import RegexPositions.Proofs.Tree.Checked

/-!
# Positions Within a Subtree

The leaves under a node have consecutive positions, and what is on record for the node stays
within them (`Attributes.Within`): the least first position is that of the leftmost leaf, and the
greatest last position that of the rightmost one. What follows a position is a position of the
tree, and a step that does not lead on to the right stays under one repetition
(`Expr.exists_repetition_of_linked`).

* `Tree.bounds_of_ofExpression` — all of it for the tree of an expression after any passes, with
  the consequence that no pass uses an index that is out of range.
-/

namespace RegexPositions

/-- The positions on record **stay within** `lo` and `hi`, and reach both ends. -/
structure Attributes.Within (a : Attributes) (lo hi : Nat) : Prop where
  /-- The first positions lie between the ends. -/
  first_range : ∀ p ∈ a.first, lo ≤ p ∧ p ≤ hi
  /-- The last positions lie between the ends. -/
  last_range : ∀ p ∈ a.last, lo ≤ p ∧ p ≤ hi
  /-- The least first position is the lower end. -/
  isLeast_first : IsLeast {p | p ∈ a.first} lo
  /-- The greatest last position is the upper end. -/
  isGreatest_last : IsGreatest {p | p ∈ a.last} hi

namespace Tree

/-! ### Leaves under a node -/

variable {tree : Tree} {k p operand left right : Nat} {op : UnaryOp} {op' : BinaryOp}

/-- The leaf with position `p` lies under node `k`. -/
def LeafBelow (tree : Tree) (k p : Nat) : Prop :=
  ∃ i node, tree.Below k i ∧ tree.get? i = some node ∧ node.position? = some p

/-- Under a leaf lies its own position. -/
theorem leafBelow_iff_of_leaf {letter : Letter} {position : Nat} {follow : PositionSet}
    (h : (tree.get? k).map Node.shape = some (.leaf letter position follow)) :
    tree.LeafBelow k p ↔ p = position := by
  obtain ⟨⟨shape, attributes⟩, hnode, rfl⟩ := Option.map_eq_some_iff.mp h
  constructor
  · rintro ⟨i, node, hbelow, hi, hp⟩
    obtain rfl := (below_iff_of_leaf h).mp hbelow
    obtain rfl := Option.some.inj (hnode.symm.trans hi)
    exact (Option.some.inj hp).symm
  · rintro rfl
    exact ⟨k, _, tree.below_self k, hnode, rfl⟩

/-- Under a unary operator lies what lies under its operand. -/
theorem leafBelow_iff_of_unary (h : (tree.get? k).map Node.shape = some (.unary op operand)) :
    tree.LeafBelow k p ↔ tree.LeafBelow operand p := by
  obtain ⟨⟨shape, attributes⟩, hnode, rfl⟩ := Option.map_eq_some_iff.mp h
  constructor
  · rintro ⟨i, node, hbelow, hi, hp⟩
    rcases (below_iff_of_unary h).mp hbelow with rfl | hbelow
    · obtain rfl := Option.some.inj (hnode.symm.trans hi)
      cases hp
    · exact ⟨i, node, hbelow, hi, hp⟩
  · rintro ⟨i, node, hbelow, hi, hp⟩
    exact ⟨i, node, (below_iff_of_unary h).mpr (.inr hbelow), hi, hp⟩

/-- Under a binary operator lies what lies under either operand. -/
theorem leafBelow_iff_of_binary
    (h : (tree.get? k).map Node.shape = some (.binary op' left right)) :
    tree.LeafBelow k p ↔ tree.LeafBelow left p ∨ tree.LeafBelow right p := by
  obtain ⟨⟨shape, attributes⟩, hnode, rfl⟩ := Option.map_eq_some_iff.mp h
  constructor
  · rintro ⟨i, node, hbelow, hi, hp⟩
    rcases (below_iff_of_binary h).mp hbelow with rfl | hbelow | hbelow
    · obtain rfl := Option.some.inj (hnode.symm.trans hi)
      cases hp
    · exact .inl ⟨i, node, hbelow, hi, hp⟩
    · exact .inr ⟨i, node, hbelow, hi, hp⟩
  · rintro (⟨i, node, hbelow, hi, hp⟩ | ⟨i, node, hbelow, hi, hp⟩)
    · exact ⟨i, node, (below_iff_of_binary h).mpr (.inr (.inl hbelow)), hi, hp⟩
    · exact ⟨i, node, (below_iff_of_binary h).mpr (.inr (.inr hbelow)), hi, hp⟩

/-- Positions `p` and `q` lie under one node that is a repetition. -/
def ShareRepetition (tree : Tree) (p q : Nat) : Prop :=
  ∃ k op operand, (tree.get? k).map Node.shape = some (.unary op operand) ∧
    (op = .star ∨ op = .plus) ∧ tree.LeafBelow k p ∧ tree.LeafBelow k q

end Tree

/-! ### Expressions -/

namespace Expr

variable {follow : Nat → PositionSet} {attributes : Nat → Expr → Attributes}
variable {tree : Tree} {id start k p q : Nat} {e : Expr}

/-- The leaves under the root of a block are those of its expression. -/
theorem leafBelow_root_iff_of_block
    (h : Block tree.nodes id (e.layoutFrom follow attributes id start)) :
    tree.LeafBelow (id + e.nodeCount - 1) p ↔ e.HasPosition start p := by
  rw [HasPosition]
  induction e generalizing id start with
  | leaf letter =>
      rw [Tree.leafBelow_iff_of_leaf (shape_root_of_block h), leafCount]
      omega
  | unary op e ih =>
      rw [Tree.leafBelow_iff_of_unary (shape_root_of_block h), ih (block_operand h), leafCount]
  | binary op l r ihl ihr =>
      rw [Tree.leafBelow_iff_of_binary (shape_root_of_block h), ihl (block_left h),
        ihr (block_right h), leafCount]
      omega

/-- Every leaf lies under the root. -/
theorem hasPosition_of_leafBelow_layout (h : (e.layout follow attributes).LeafBelow k p) :
    e.HasPosition 1 p := by
  obtain ⟨i, node, -, hi, hp⟩ := h
  exact hasPosition_of_mem_layoutFrom (List.mem_toArray.mp (Array.mem_of_getElem? hi)) hp

/-- The attributes of an expression stay within its positions. -/
theorem within_attributesFrom (start : Nat) (e : Expr) :
    (e.attributesFrom start).Within start (start + e.leafCount - 1) := by
  have hfirst : ∀ p ∈ (e.attributesFrom start).first, start ≤ p ∧ p ≤ start + e.leafCount - 1 :=
    fun p hp => by
      have := range_of_mem_first hp
      omega
  have hlast : ∀ p ∈ (e.attributesFrom start).last, start ≤ p ∧ p ≤ start + e.leafCount - 1 :=
    fun p hp => by
      have := range_of_mem_last hp
      omega
  exact ⟨hfirst, hlast, ⟨start_mem_first start e, fun p hp => (hfirst p hp).1⟩,
    ⟨stop_mem_last start e, fun p hp => (hlast p hp).2⟩⟩

/-- A link that does not lead on to the right is that of a repetition around both positions. -/
theorem exists_repetition_of_linked
    (h : Block tree.nodes id (e.layoutFrom follow attributes id start))
    (hlinked : e.Linked start p q) (hle : q ≤ p) : tree.ShareRepetition p q := by
  induction e generalizing id start with
  | leaf letter => exact absurd hlinked not_linked_leaf
  | unary op e ih =>
      rcases linked_unary.mp hlinked with hlinked | ⟨hop, hp, hq⟩
      · exact ih (block_operand h) hlinked
      · refine ⟨_, op, _, shape_root_of_block h, UnaryOp.repeats_eq_true_iff.mp hop, ?_, ?_⟩
        · exact (leafBelow_root_iff_of_block h).mpr (range_of_mem_first hp)
        · exact (leafBelow_root_iff_of_block h).mpr (range_of_mem_last hq)
  | binary op l r ihl ihr =>
      cases op with
      | concat =>
          rcases linked_concat.mp hlinked with hlinked | hlinked | ⟨hp, hq⟩
          · exact ihl (block_left h) hlinked
          · exact ihr (block_right h) hlinked
          · -- The link of a concatenation leads on to the right.
            have := (range_of_mem_last hp).2
            have := (range_of_mem_first hq).1
            omega
      | union =>
          rcases linked_union.mp hlinked with hlinked | hlinked
          · exact ihl (block_left h) hlinked
          · exact ihr (block_right h) hlinked

/-- After any passes, the attributes are on record if the tree was decorated, and nothing follows
a position that the expression does not link to it. -/
theorem exists_run_toTree_linked (e : Expr) (passes : List Pass) :
    ∃ follow attributes, e.toTree.run passes = e.layout follow attributes ∧
      (.decorate ∈ passes → attributes = attributesFrom) ∧
      ∀ p q, q ∈ follow p → e.Linked 1 p q := by
  have hstages := e.stages_toTree
  have hempty : ∀ p q, q ∈ (∅ : PositionSet) → e.Linked 1 p q :=
    fun p q hq => absurd hq (PositionSet.not_mem_empty q)
  by_cases hmem : .decorate ∈ passes
  · by_cases hsub : [.decorate, .recordFollow].Sublist passes
    · exact ⟨_, _, (hstages.run_of_sublist hsub).trans e.recordFollow_decorate_toTree,
        fun _ => rfl, fun p q => mem_follow.mp⟩
    · exact ⟨_, _, (hstages.run_of_mem hmem hsub).trans e.decorate_toTree, fun _ => rfl, hempty⟩
  · exact ⟨_, _, (hstages.run_of_not_mem hmem).trans e.toTree_eq_layout,
      fun h => absurd h hmem, hempty⟩

end Expr

/-! ### Trees after any passes -/

namespace Tree

/-- **Nothing leaves its subtree.** After any passes over the tree of an expression, decorated nodes
have on record positions of their own leaves, from the leftmost to the rightmost one. What follows
a position is a position of the tree, and lies to the right of it or with it under a repetition.
Each of the passes finds every node and every entry that it looks up, and so does the follow
table. -/
theorem bounds_of_ofExpression {expression : String} {tree : Tree}
    (h : Tree.ofExpression expression = .ok tree) (passes : List Pass) :
    (.decorate ∈ passes → ∀ k node, (tree.run passes).get? k = some node →
      ∃ lo hi, 1 ≤ lo ∧ hi ≤ tree.leafCount ∧
        (∀ p, (tree.run passes).LeafBelow k p ↔ lo ≤ p ∧ p ≤ hi) ∧
        node.attributes.Within lo hi) ∧
    (∀ i, 1 ≤ i → i ≤ tree.leafCount → ∃ follow,
      ((tree.run passes).leaf? i).bind Node.follow? = some follow ∧
      ∀ j ∈ follow, 1 ≤ j ∧ j ≤ tree.leafCount ∧
        (j ≤ i → (tree.run passes).ShareRepetition i j)) ∧
    (∀ pass : Pass, pass.applyChecked (tree.run passes) =
      .ok (pass.apply (tree.run passes)).nodes) ∧
    (tree.run passes).followTableChecked = .ok (tree.run passes).followTable := by
  obtain ⟨e, -, rfl⟩ := Tree.ofExpression_eq_ok_iff.mp h
  have hcount : e.toTree.leafCount = e.leafCount := by
    rw [Expr.toTree_eq_layout, Expr.leafCount_layout]
  obtain ⟨hpasses, htable⟩ := e.applyChecked_run passes
  refine ⟨fun hmem k node hnode => ?_, fun i h1 h2 => ?_, hpasses, htable⟩
  · obtain ⟨follow, attributes, hrun, hattributes, -⟩ := e.exists_run_toTree_linked passes
    rw [hattributes hmem] at hrun
    rw [hrun] at hnode ⊢
    obtain ⟨hlt, -⟩ := Array.getElem?_eq_some_iff.mp hnode
    obtain ⟨id, start, e', hblock, rfl⟩ := Expr.exists_block_layout hlt
    have hleaf := fun p => @Expr.leafBelow_root_iff_of_block _ _ _ _ _ p _ hblock
    have hpos := e'.leafCount_pos
    have hlo := Expr.hasPosition_of_leafBelow_layout
      ((hleaf start).mpr ⟨Nat.le_refl start, by omega⟩)
    have hhi := Expr.hasPosition_of_leafBelow_layout
      ((hleaf (start + e'.leafCount - 1)).mpr ⟨by omega, by omega⟩)
    refine ⟨start, start + e'.leafCount - 1, hlo.1, ?_, fun p => ?_, ?_⟩
    · have := hhi.2
      omega
    · rw [hleaf, Expr.HasPosition]
      omega
    · rw [Expr.attributes_of_block hblock hnode]
      exact Expr.within_attributesFrom start e'
  · obtain ⟨follow, attributes, hrun, -, hfollow⟩ := e.exists_run_toTree_linked passes
    rw [hcount] at h2 ⊢
    rw [hrun]
    refine ⟨_, Expr.follow?_leaf?_layout h1 h2, fun j hj => ?_⟩
    have hlinked := hfollow i j hj
    have hrange := (Expr.range_of_linked hlinked).2
    refine ⟨hrange.1, ?_, fun hle => ?_⟩
    · have := hrange.2
      omega
    · exact Expr.exists_repetition_of_linked (Expr.block_layout follow attributes e) hlinked hle

/-- In `ab|*c.`, the repetition is node 3. Its leaves are those at positions 1 and 2, and it is the
node under which position 1 comes after position 2. -/
theorem bounds_of_ofExpression_star_concat :
    ∃ tree node, Tree.ofExpression "ab|*c." = .ok tree ∧
      (tree.run [.decorate, .recordFollow]).get? 3 = some node ∧ node.attributes.Within 1 2 ∧
      (∀ p, (tree.run [.decorate, .recordFollow]).LeafBelow 3 p ↔ 1 ≤ p ∧ p ≤ 2) ∧
      (tree.run [.decorate, .recordFollow]).ShareRepetition 2 1 ∧
      tree.decorate.recordFollowChecked = .ok tree.decorate.recordFollow.nodes := by
  let e : Expr := .binary .concat
    (.unary .star (.binary .union (.leaf (.operand 'a')) (.leaf (.operand 'b'))))
    (.leaf (.operand 'c'))
  have hbuild : Tree.ofExpression "ab|*c." = .ok e.toTree :=
    Tree.ofExpression_eq_ok_iff.mpr ⟨e, .binary .concat
      (.unary .star (.binary .union (.plain rfl) (.plain rfl))) (.plain rfl), rfl⟩
  have hnode : (e.toTree.run [.decorate, .recordFollow]).get? 3 =
      some ⟨.unary .star 2, ⟨true, .ofList [1, 2], .ofList [1, 2]⟩⟩ := by decide +kernel
  have hfollow : ((e.toTree.run [.decorate, .recordFollow]).leaf? 2).bind Node.follow? =
      some (.ofList [1, 2, 3]) := by decide +kernel
  obtain ⟨hnodes, hpositions, -, -⟩ :=
    bounds_of_ofExpression hbuild [.decorate, .recordFollow]
  obtain ⟨-, -, hchecked, -⟩ := bounds_of_ofExpression hbuild [.decorate]
  obtain ⟨lo, hi, hlo, -, hleaves, hwithin⟩ := hnodes (by decide) 3 _ hnode
  obtain ⟨follow, hfollow', hnext⟩ := hpositions 2 (by decide) (by decide)
  obtain rfl := Option.some.inj (hfollow.symm.trans hfollow')
  have hone : lo ≤ 1 := hwithin.isLeast_first.2 (by decide : 1 ∈ PositionSet.ofList [1, 2])
  have htwo : 2 ≤ hi := hwithin.isGreatest_last.2 (by decide : 2 ∈ PositionSet.ofList [1, 2])
  have hle : hi ≤ 2 := by
    have hmem := PositionSet.mem_ofList.mp hwithin.isGreatest_last.1
    simp only [List.mem_cons, List.not_mem_nil, or_false] at hmem
    omega
  obtain rfl : lo = 1 := by omega
  obtain rfl : hi = 2 := by omega
  exact ⟨_, _, hbuild, hnode, hwithin, hleaves, (hnext 1 (by decide)).2.2 (by decide),
    hchecked .recordFollow⟩

end Tree

end RegexPositions
