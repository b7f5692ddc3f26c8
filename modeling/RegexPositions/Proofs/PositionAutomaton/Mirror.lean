import RegexPositions.Proofs.Expr.Mirror
import RegexPositions.Proofs.PositionAutomaton.Marked
import RegexPositions.Proofs.Tree.Arena

/-!
# Mirror Images of Trees

Two trees are mirror images if one becomes the other when the operands of every operator with two
operands change places (`Tree.Mirrors`). Their nodes correspond to each other: from one root the
steps lead left where from the other they lead right (`Tree.Opposite`). Follow sets, attributes and
positions play no part in either relation, so what is on record in one automaton says nothing yet
about the other.

* `Tree.Mirrors.eq_reverse` — a mirror image stands for the expression read from right to left;
* `PositionAutomaton.mirror_of_ofExpression` — what is on record for corresponding nodes is mirrored
  too, and every step between positions is taken backwards.
-/

namespace RegexPositions

/-! ### Trees -/

namespace Tree

variable {tree other : Tree} {k k' i start start' : Nat} {e e' : Expr}

/-- The subtree of node `k` and that of node `k'` of the other tree are **mirror images**: the same
letters and operators stand at their nodes, and where there are two operands, these have changed
places. -/
inductive Mirrors (tree other : Tree) : Nat → Nat → Prop
  /-- A letter is its own image. -/
  | leaf {k k' position position' : Nat} {letter : Letter} {follow follow' : PositionSet}
      (h : (tree.get? k).map Node.shape = some (.leaf letter position follow))
      (h' : (other.get? k').map Node.shape = some (.leaf letter position' follow')) :
      Mirrors tree other k k'
  /-- The only operand stays where it is. -/
  | unary {k k' operand operand' : Nat} {op : UnaryOp}
      (h : (tree.get? k).map Node.shape = some (.unary op operand))
      (h' : (other.get? k').map Node.shape = some (.unary op operand')) :
      Mirrors tree other operand operand' → Mirrors tree other k k'
  /-- Two operands change places. -/
  | binary {k k' left right left' right' : Nat} {op : BinaryOp}
      (h : (tree.get? k).map Node.shape = some (.binary op left right))
      (h' : (other.get? k').map Node.shape = some (.binary op left' right')) :
      Mirrors tree other left right' → Mirrors tree other right left' → Mirrors tree other k k'

/-- Node `k` lies **opposite** node `k'` of the other tree: the steps that lead to them from the two
roots go to opposite sides wherever there are two. -/
inductive Opposite (tree other : Tree) : Nat → Nat → Prop
  /-- The roots lie opposite each other. -/
  | root : Opposite tree other tree.root other.root
  /-- The only operands of such nodes. -/
  | operand {k k' operand operand' : Nat} {op op' : UnaryOp} :
      Opposite tree other k k' →
      (tree.get? k).map Node.shape = some (.unary op operand) →
      (other.get? k').map Node.shape = some (.unary op' operand') →
      Opposite tree other operand operand'
  /-- The left operand of the one node and the right operand of the other. -/
  | left {k k' left right left' right' : Nat} {op op' : BinaryOp} :
      Opposite tree other k k' →
      (tree.get? k).map Node.shape = some (.binary op left right) →
      (other.get? k').map Node.shape = some (.binary op' left' right') →
      Opposite tree other left right'
  /-- The right operand of the one node and the left operand of the other. -/
  | right {k k' left right left' right' : Nat} {op op' : BinaryOp} :
      Opposite tree other k k' →
      (tree.get? k).map Node.shape = some (.binary op left right) →
      (other.get? k').map Node.shape = some (.binary op' left' right') →
      Opposite tree other right left'

/-- Mirror images are mirror images of each other. -/
theorem Mirrors.symm (h : tree.Mirrors other k k') : other.Mirrors tree k' k := by
  induction h with
  | leaf hshape hshape' => exact .leaf hshape' hshape
  | unary hshape hshape' _ ih => exact .unary hshape' hshape ih
  | binary hshape hshape' _ _ ihl ihr => exact .binary hshape' hshape ihr ihl

/-- Opposite nodes lie opposite each other. -/
theorem Opposite.symm (h : tree.Opposite other k k') : other.Opposite tree k' k := by
  induction h with
  | root => exact .root
  | operand _ hshape hshape' ih => exact ih.operand hshape' hshape
  | left _ hshape hshape' ih => exact ih.right hshape' hshape
  | right _ hshape hshape' ih => exact ih.left hshape' hshape

/-- A mirror image stands for the expression read from right to left. -/
theorem Mirrors.eq_reverse (h : tree.Mirrors other k k') (he : tree.HasSubtree k start e)
    (he' : other.HasSubtree k' start' e') : e' = e.reverse := by
  induction h generalizing start start' e e' with
  | leaf hshape hshape' =>
      obtain ⟨rfl, -⟩ := he.of_leaf hshape
      obtain ⟨rfl, -⟩ := he'.of_leaf hshape'
      rfl
  | unary hshape hshape' _ ih =>
      obtain ⟨f, rfl, hf⟩ := he.of_unary hshape
      obtain ⟨f', rfl, hf'⟩ := he'.of_unary hshape'
      rw [ih hf hf', Expr.reverse]
  | binary hshape hshape' _ _ ihl ihr =>
      obtain ⟨l, r, rfl, hl, hr⟩ := he.of_binary hshape
      obtain ⟨l', r', rfl, hl', hr'⟩ := he'.of_binary hshape'
      rw [ihl hl hr', ihr hr hl', Expr.reverse]

/-- A node with a mirror image is mirrored by a node. -/
theorem Mirrors.exists_get? (h : tree.Mirrors other k k') :
    ∃ node', other.get? k' = some node' := by
  cases h with
  | leaf _ hshape' | unary _ hshape' _ | binary _ hshape' _ _ =>
      obtain ⟨node', hnode', -⟩ := Option.map_eq_some_iff.mp hshape'
      exact ⟨node', hnode'⟩

/-- Below opposite nodes that are mirror images, every node lies opposite its mirror image. -/
theorem Mirrors.exists_opposite_of_below (h : tree.Mirrors other k k')
    (hopposite : tree.Opposite other k k') (hbelow : tree.Below k i) :
    ∃ i', tree.Opposite other i i' ∧ tree.Mirrors other i i' := by
  induction h with
  | leaf hshape hshape' =>
      obtain rfl := (below_iff_of_leaf hshape).mp hbelow
      exact ⟨_, hopposite, .leaf hshape hshape'⟩
  | unary hshape hshape' hoperand ih =>
      rcases (below_iff_of_unary hshape).mp hbelow with rfl | hbelow
      · exact ⟨_, hopposite, .unary hshape hshape' hoperand⟩
      · exact ih (hopposite.operand hshape hshape') hbelow
  | binary hshape hshape' hleft hright ihl ihr =>
      rcases (below_iff_of_binary hshape).mp hbelow with rfl | hbelow | hbelow
      · exact ⟨_, hopposite, .binary hshape hshape' hleft hright⟩
      · exact ihl (hopposite.left hshape hshape') hbelow
      · exact ihr (hopposite.right hshape hshape') hbelow

/-- Every node of a tree that has a mirror image lies opposite a node of the image. -/
theorem Mirrors.exists_opposite (h : tree.Mirrors other tree.root other.root)
    (hpostorder : tree.Postorder) {node : Node} (hnode : tree.get? k = some node) :
    ∃ k' node', tree.Opposite other k k' ∧ other.get? k' = some node' := by
  obtain ⟨hlt, -⟩ := Array.getElem?_eq_some_iff.mp hnode
  obtain ⟨k', hopposite, hmirrors⟩ :=
    h.exists_opposite_of_below .root (hpostorder.below_root k hlt)
  obtain ⟨node', hnode'⟩ := hmirrors.exists_get?
  exact ⟨k', node', hopposite, hnode'⟩

/-- In the trees of an expression and of its reverse, opposite nodes stand for a subexpression and
its reverse, as far from one end as from the other. -/
theorem Opposite.exists_hasSubtree (h : tree.Opposite other k k')
    (he : tree.HasSubtree tree.root 1 e) (he' : other.HasSubtree other.root 1 e.reverse) :
    ∃ start start' f, tree.HasSubtree k start f ∧ other.HasSubtree k' start' f.reverse ∧
      start + start' + f.leafCount = e.leafCount + 2 := by
  induction h with
  | root => exact ⟨1, 1, e, he, he', by omega⟩
  | operand _ hshape hshape' ih =>
      obtain ⟨start, start', f, hf, hf', hends⟩ := ih
      obtain ⟨g, rfl, hg⟩ := hf.of_unary hshape
      obtain ⟨g', heq, hg'⟩ := hf'.of_unary hshape'
      cases heq
      exact ⟨start, start', g, hg, hg', hends⟩
  | left _ hshape hshape' ih =>
      obtain ⟨start, start', f, hf, hf', hends⟩ := ih
      obtain ⟨l, r, rfl, hl, -⟩ := hf.of_binary hshape
      obtain ⟨l', r', heq, -, hr'⟩ := hf'.of_binary hshape'
      cases heq
      rw [Expr.leafCount] at hends
      refine ⟨_, _, l, hl, hr', ?_⟩
      rw [Expr.leafCount_reverse]
      omega
  | right _ hshape hshape' ih =>
      obtain ⟨start, start', f, hf, hf', hends⟩ := ih
      obtain ⟨l, r, rfl, -, hr⟩ := hf.of_binary hshape
      obtain ⟨l', r', heq, hl', -⟩ := hf'.of_binary hshape'
      cases heq
      rw [Expr.leafCount] at hends
      exact ⟨_, _, r, hr, hl', by omega⟩

end Tree

/-! ### Automata -/

namespace PositionAutomaton

/-- **What is mirrored in shape is mirrored in all that is computed from it.** If the tree of one
automaton is the mirror image of that of another one with `n` positions, every node of either lies
opposite a node of the other, and nodes that lie opposite each other have mirrored attributes on
record. Position `p` is opposite position `n + 1 - p`, and a step leads from one position to another
exactly if a step leads back between the opposite ones. -/
theorem mirror_of_ofExpression {x y : String} {a b : PositionAutomaton}
    (hx : PositionAutomaton.ofExpression x = .ok a) (hy : PositionAutomaton.ofExpression y = .ok b)
    (h : a.tree.Mirrors b.tree a.tree.root b.tree.root) :
    b.tree.leafCount = a.tree.leafCount ∧
    (∀ k node, a.tree.get? k = some node →
      ∃ k' node', a.tree.Opposite b.tree k k' ∧ b.tree.get? k' = some node') ∧
    (∀ k' node', b.tree.get? k' = some node' →
      ∃ k node, a.tree.Opposite b.tree k k' ∧ a.tree.get? k = some node) ∧
    (∀ k k' node node', a.tree.Opposite b.tree k k' → a.tree.get? k = some node →
      b.tree.get? k' = some node' →
      node'.attributes = node.attributes.mirror (a.tree.leafCount + 1) ∧
      ∀ p, node.position? = some p → node'.position? = some (a.tree.leafCount + 1 - p)) ∧
    ∀ i j, 1 ≤ i → i ≤ a.tree.leafCount → 1 ≤ j → j ≤ a.tree.leafCount →
      (b.Follows i j ↔ a.Follows (a.tree.leafCount + 1 - j) (a.tree.leafCount + 1 - i)) := by
  obtain ⟨e, -, rfl⟩ := ofExpression_eq_ok_iff.mp hx
  obtain ⟨e', -, rfl⟩ := ofExpression_eq_ok_iff.mp hy
  rw [Expr.tree_ofTree, Expr.tree_ofTree] at h
  have he := @Expr.hasSubtree_root_layout e.follow Expr.attributesFrom e
  obtain rfl : e' = e.reverse := h.eq_reverse he Expr.hasSubtree_root_layout
  have he' := @Expr.hasSubtree_root_layout e.reverse.follow Expr.attributesFrom e.reverse
  simp only [Expr.follows_ofTree_iff]
  rw [Expr.tree_ofTree, Expr.tree_ofTree, Expr.leafCount_layout, Expr.leafCount_layout]
  refine ⟨e.leafCount_reverse, fun k node => h.exists_opposite (e.postorder_layout _ _),
    fun k' node' hnode' => ?_, fun k k' node node' hopposite hnode hnode' => ?_,
    fun i j _ _ _ _ => Expr.linked_reverse_iff (by omega) (by omega)⟩
  · obtain ⟨k, node, hopposite, hnode⟩ :=
      h.symm.exists_opposite (e.reverse.postorder_layout _ _) hnode'
    exact ⟨k, node, hopposite.symm, hnode⟩
  · obtain ⟨start, start', f, hf, hf', hends⟩ := hopposite.exists_hasSubtree he he'
    obtain ⟨_, _, hsub, hattributes⟩ := Expr.exists_hasSubtree_layout hnode
    obtain ⟨rfl, rfl⟩ := hsub.unique hf
    obtain ⟨_, _, hsub', hattributes'⟩ := Expr.exists_hasSubtree_layout hnode'
    obtain ⟨rfl, rfl⟩ := hsub'.unique hf'
    refine ⟨?_, fun p hp => ?_⟩
    · rw [hattributes, hattributes', Expr.attributesFrom_reverse, hends]
      rfl
    · obtain ⟨⟨letter, rfl⟩, rfl⟩ := (hsub.position?_eq_some_iff hnode).mp hp
      refine (hsub'.position?_eq_some_iff hnode').mpr ⟨⟨letter, rfl⟩, ?_⟩
      rw [Expr.leafCount] at hends
      omega

/-- The mirror image of `ab?.*c.` is written `cb?a.*.`. The repetitions are node 4 of the one and
node 5 of the other; position 2 leads to position 3 in the image, as position 1 leads to position
2, but not back. -/
theorem mirror_of_ofExpression_star_optional :
    ∃ a b node node', PositionAutomaton.ofExpression "ab?.*c." = .ok a ∧
      PositionAutomaton.ofExpression "cb?a.*." = .ok b ∧
      a.tree.Mirrors b.tree a.tree.root b.tree.root ∧ a.tree.Opposite b.tree 4 5 ∧
      a.tree.get? 4 = some node ∧ b.tree.get? 5 = some node' ∧
      node.attributes = ⟨true, .singleton 1, .ofList [1, 2]⟩ ∧
      node'.attributes = node.attributes.mirror 4 ∧
      b.Follows 2 3 ∧ a.Follows 1 2 ∧ ¬b.Follows 3 2 ∧ ¬a.Follows 2 1 := by
  let e : Expr := .binary .concat (.unary .star (.binary .concat (.leaf (.operand 'a'))
    (.unary .optional (.leaf (.operand 'b'))))) (.leaf (.operand 'c'))
  have hx : PositionAutomaton.ofExpression "ab?.*c." = .ok (ofTree e.toTree) :=
    ofExpression_eq_ok_iff.mpr ⟨e, .binary .concat (.unary .star (.binary .concat (.plain rfl)
      (.unary .optional (.plain rfl)))) (.plain rfl), rfl⟩
  have hy : PositionAutomaton.ofExpression "cb?a.*." = .ok (ofTree e.reverse.toTree) :=
    ofExpression_eq_ok_iff.mpr ⟨e.reverse, .binary .concat (.plain rfl) (.unary .star
      (.binary .concat (.unary .optional (.plain rfl)) (.plain rfl))), rfl⟩
  have hmirrors : (ofTree e.toTree).tree.Mirrors (ofTree e.reverse.toTree).tree
      (ofTree e.toTree).tree.root (ofTree e.reverse.toTree).tree.root := by
    rw [Expr.tree_ofTree, Expr.tree_ofTree]
    exact .binary rfl rfl (.unary rfl rfl (.binary rfl rfl (.leaf rfl rfl)
      (.unary rfl rfl (.leaf rfl rfl)))) (.leaf rfl rfl)
  have hopposite : (ofTree e.toTree).tree.Opposite (ofTree e.reverse.toTree).tree 4 5 := by
    rw [Expr.tree_ofTree, Expr.tree_ofTree]
    exact .left .root rfl rfl
  have hcount : (ofTree e.toTree).tree.leafCount = 3 := by
    rw [Expr.tree_ofTree, Expr.leafCount_layout]
    rfl
  have hnode : (ofTree e.toTree).tree.get? 4 =
      some ⟨.unary .star 3, ⟨true, .singleton 1, .ofList [1, 2]⟩⟩ := by decide +kernel
  have hfollows : (ofTree e.toTree).Follows 1 2 ∧ ¬(ofTree e.toTree).Follows 2 1 := by
    rw [Expr.follows_ofTree_iff, Expr.follows_ofTree_iff]
    decide
  obtain ⟨node', hnode'⟩ : ∃ node', (ofTree e.reverse.toTree).tree.get? 5 = some node' := by
    rw [Expr.tree_ofTree]
    exact ⟨_, rfl⟩
  obtain ⟨-, -, -, hattributes, hsteps⟩ := mirror_of_ofExpression hx hy hmirrors
  rw [hcount] at hattributes hsteps
  have hforth := hsteps 2 3 (by decide) (by decide) (by decide) (by decide)
  have hback := hsteps 3 2 (by decide) (by decide) (by decide) (by decide)
  exact ⟨_, _, _, node', hx, hy, hmirrors, hopposite, hnode, hnode', rfl,
    (hattributes 4 5 _ node' hopposite hnode hnode').1, hforth.mpr hfollows.1, hfollows.1,
    hback.not.mpr hfollows.2, hfollows.2⟩

end PositionAutomaton

end RegexPositions
