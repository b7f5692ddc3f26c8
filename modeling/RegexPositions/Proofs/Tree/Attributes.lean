import RegexPositions.Proofs.Tree.Layout

/-!
# What the Attributes on Record Mean

Every node of a built tree is the root of a subexpression, and of one only
(`Tree.HasSubtree.unique`). Once the tree is decorated, the attributes on record for the node
tell how the words of that subexpression may begin and end, where a leaf stands for its position:
`Tree.attributes_iff_marked`.

A repetition is symmetric if its operand has the same first and last positions on record
(`Tree.SymmetricRepetitions`). In a decorated tree this is a property of the expression
(`Expr.symmetricRepetitions_layout`).
-/

namespace RegexPositions

/-- A node stands for one subexpression. -/
theorem Tree.HasSubtree.unique {tree : Tree} {id start start' : Nat} {e e' : Expr}
    (h : tree.HasSubtree id start e) (h' : tree.HasSubtree id start' e') :
    start = start' ∧ e = e' := by
  induction h generalizing start' e' with
  | leaf hshape =>
      obtain ⟨rfl, rfl⟩ := h'.of_leaf hshape
      exact ⟨rfl, rfl⟩
  | unary hshape _ ih =>
      obtain ⟨f, rfl, hf⟩ := h'.of_unary hshape
      obtain ⟨rfl, rfl⟩ := ih hf
      exact ⟨rfl, rfl⟩
  | binary hshape _ _ ihl ihr =>
      obtain ⟨l, r, rfl, hl, hr⟩ := h'.of_binary hshape
      obtain ⟨rfl, rfl⟩ := ihl hl
      obtain ⟨-, rfl⟩ := ihr hr
      exact ⟨rfl, rfl⟩

namespace Expr

variable {follow : Nat → PositionSet} {attributes : Nat → Expr → Attributes} {id start : Nat}

/-- Every node of a layout stands for a subexpression, and has on record what the layout has for
that. -/
theorem exists_hasSubtree_layout {e : Expr} {node : Node}
    (h : (e.layout follow attributes).get? id = some node) :
    ∃ start' e', (e.layout follow attributes).HasSubtree id start' e' ∧
      node.attributes = attributes start' e' := by
  have hlt : id < e.nodeCount := by
    obtain ⟨hlt, -⟩ := Array.getElem?_eq_some_iff.mp h
    simpa [layout] using hlt
  obtain ⟨id', start', e', hblock, hid⟩ := exists_block_of_lt (block_layout follow attributes e) hlt
  rw [Nat.zero_add] at hid
  subst hid
  exact ⟨start', e', hasSubtree_of_block hblock, attributes_of_block hblock h⟩

end Expr

/-- **Attributes mean what they say.** In a decorated tree, every node stands for a subexpression.
It is nullable if that matches the empty word, and its first and last positions are those with
which a word of the subexpression begins and ends, where a leaf stands for its position. -/
theorem Tree.attributes_iff_marked {expression : String} {tree : Tree}
    (hbuild : Tree.ofExpression expression = .ok tree) {id : Nat} {node : Node}
    (hnode : tree.decorate.get? id = some node) :
    (∃ start e, tree.decorate.HasSubtree id start e) ∧
      ∀ start e, tree.decorate.HasSubtree id start e →
        (node.attributes.nullable = true ↔ [] ∈ e.marked start) ∧
        (∀ p, p ∈ node.attributes.first ↔ ∃ w, p :: w ∈ e.marked start) ∧
        ∀ p, p ∈ node.attributes.last ↔ ∃ w, w ++ [p] ∈ e.marked start := by
  obtain ⟨e, -, rfl⟩ := Tree.ofExpression_eq_ok_iff.mp hbuild
  rw [Expr.toTree_eq_layout, Expr.decorate_layout] at hnode ⊢
  obtain ⟨start, e', hsub, hattributes⟩ := Expr.exists_hasSubtree_layout hnode
  refine ⟨⟨start, e', hsub⟩, fun start' e'' hsub' => ?_⟩
  obtain ⟨rfl, rfl⟩ := hsub.unique hsub'
  rw [hattributes]
  exact ⟨Expr.nullable_attributesFrom_iff, fun p => Expr.mem_first_attributesFrom_iff,
    fun p => Expr.mem_last_attributesFrom_iff⟩

/-- The root of `ab?.*` stands for the whole expression, which matches the empty word and words
that begin with position 1 and end with either. -/
theorem Tree.attributes_iff_marked_star_concat_optional :
    ∃ tree node start e, Tree.ofExpression "ab?.*" = .ok tree ∧ tree.decorate.get? 4 = some node ∧
      tree.decorate.HasSubtree 4 start e ∧
      node.attributes = ⟨true, .singleton 1, .ofList [1, 2]⟩ ∧ [] ∈ e.marked start ∧
      (∃ w, 1 :: w ∈ e.marked start) ∧ (¬∃ w, 2 :: w ∈ e.marked start) ∧
      ∃ w, w ++ [2] ∈ e.marked start := by
  let e : Expr := .unary .star (.binary .concat (.leaf (.operand 'a'))
    (.unary .optional (.leaf (.operand 'b'))))
  have hbuild : Tree.ofExpression "ab?.*" = .ok e.toTree :=
    Tree.ofExpression_eq_ok_iff.mpr ⟨e, .unary .star (.binary .concat (.plain rfl)
      (.unary .optional (.plain rfl))), rfl⟩
  have hnode : e.toTree.decorate.get? 4 =
      some ⟨.unary .star 3, ⟨true, .singleton 1, .ofList [1, 2]⟩⟩ := by decide
  have hsub : e.toTree.decorate.HasSubtree 4 1 e :=
    .unary rfl (.binary rfl (.leaf rfl) (.unary rfl (.leaf rfl)))
  obtain ⟨hnullable, hfirst, hlast⟩ := (Tree.attributes_iff_marked hbuild hnode).2 1 e hsub
  exact ⟨_, _, 1, e, hbuild, hnode, hsub, rfl, hnullable.mp rfl, (hfirst 1).mp (by decide),
    fun h => absurd ((hfirst 2).mpr h) (by decide), (hlast 2).mp (by decide)⟩

/-! ### Symmetric repetitions -/

/-- In every **symmetric** repetition, the operand has the same first and last positions on
record. -/
def Tree.SymmetricRepetitions (tree : Tree) : Prop :=
  ∀ node ∈ tree.nodes, ∀ op operand, node.shape = .unary op operand → op.repeats = true →
    ∀ p, p ∈ (attributesAt tree.nodes operand).first ↔
      p ∈ (attributesAt tree.nodes operand).last

namespace Expr

variable {follow : Nat → PositionSet} {id start : Nat}

/-- The repetitions of an expression are symmetric if those among its nodes have the same first and
last positions on record for their operands. -/
theorem symmetricFrom_iff_block {tree : Tree} {e : Expr}
    (h : Block tree.nodes id (e.layoutFrom follow attributesFrom id start)) :
    e.SymmetricFrom start ↔
      ∀ node ∈ e.layoutFrom follow attributesFrom id start, ∀ op operand,
        node.shape = .unary op operand → op.repeats = true →
          ∀ p, p ∈ (attributesAt tree.nodes operand).first ↔
            p ∈ (attributesAt tree.nodes operand).last := by
  induction e generalizing id start with
  | leaf letter => simp [SymmetricFrom, layoutFrom]
  | unary op e ih =>
      have hoperand := attributesAt_of_block (block_operand h)
      simp only [SymmetricFrom, layoutFrom, List.forall_mem_append, List.forall_mem_singleton,
        Shape.unary.injEq, ih (block_operand h)]
      refine and_congr_right fun _ => ?_
      constructor
      · rintro heq _ _ ⟨rfl, rfl⟩ hop p
        rw [hoperand, heq hop]
      · intro hall hop
        have hends := hall op _ ⟨rfl, rfl⟩ hop
        rw [hoperand] at hends
        exact PositionSet.ext hends
  | binary op l r ihl ihr =>
      simp only [SymmetricFrom, layoutFrom, List.forall_mem_append, List.forall_mem_singleton,
        ihl (block_left h), ihr (block_right h), reduceCtorEq, false_implies, implies_true,
        and_true]

/-- A decorated tree has symmetric repetitions if its expression has. -/
theorem symmetricRepetitions_layout {e : Expr} :
    (e.layout follow attributesFrom).SymmetricRepetitions ↔ e.SymmetricFrom 1 := by
  rw [symmetricFrom_iff_block (block_layout follow attributesFrom e), Tree.SymmetricRepetitions]
  simp only [layout, List.mem_toArray]

end Expr

end RegexPositions
