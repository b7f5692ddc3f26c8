import RegexPositions.PositionAutomaton.Run
import RegexPositions.Proofs.Tree.Attributes

/-!
# Walks Through the Positions

The automaton of an expression goes from position to position along the links of the expression
(`Expr.follows_ofTree_iff`). Its walks from a first position to a last one are sequences of
positions, and so are the words of the marked language.

* `PositionAutomaton.mem_marked_iff_isChain_follows` — if all repetitions are symmetric, these
  are the same sequences. There is no condition on the other operators; in particular, an
  optional operand needs no links of its own.
-/

namespace RegexPositions

/-- The automata of expressions. -/
theorem PositionAutomaton.ofExpression_eq_ok_iff {expression : String}
    {automaton : PositionAutomaton} :
    PositionAutomaton.ofExpression expression = .ok automaton ↔
      ∃ e : Expr, e.Spells expression.toList ∧ automaton = .ofTree e.toTree := by
  rw [ofExpression]
  constructor
  · intro h
    cases htree : Tree.ofExpression expression with
    | error cause => rw [htree] at h; cases h
    | ok tree =>
        rw [htree] at h
        obtain ⟨e, hs, rfl⟩ := Tree.ofExpression_eq_ok_iff.mp htree
        exact ⟨e, hs, (Except.ok.inj h).symm⟩
  · rintro ⟨e, hs, rfl⟩
    rw [Tree.ofExpression_eq_ok_iff.mpr ⟨e, hs, rfl⟩]
    rfl

namespace Expr

variable {e : Expr} {p q : Nat}

/-! ### The automaton of an expression -/

/-- The follow set of a position, as the links of the expression give it. -/
def follow (e : Expr) (p : Nat) : PositionSet :=
  (e.layout (fun _ => ∅) attributesFrom).followTable.entry p

/-- A follow set has the positions that are linked. -/
theorem mem_follow : q ∈ e.follow p ↔ e.Linked 1 p q :=
  mem_entry_followTable_layout

/-- The tree of the automaton has the attributes and the links of the expression on record. -/
theorem tree_ofTree (e : Expr) :
    (PositionAutomaton.ofTree e.toTree).tree = e.layout e.follow attributesFrom := by
  rw [PositionAutomaton.ofTree, toTree_eq_layout, decorate_layout, recordFollow_layout]
  simp only [PositionSet.empty_union]
  rfl

/-- A step of the automaton goes along a link. -/
theorem follows_ofTree_iff : (PositionAutomaton.ofTree e.toTree).Follows p q ↔ e.Linked 1 p q := by
  rw [PositionAutomaton.Follows, PositionAutomaton.follow?, tree_ofTree]
  have hrange : e.Linked 1 p q → 1 ≤ p ∧ p < 1 + e.leafCount := fun h => (range_of_linked h).1
  cases p with
  | zero =>
      refine iff_of_false ?_ fun h => absurd (hrange h).1 (by omega)
      rintro ⟨follow, hfollow, -⟩
      cases hfollow
  | succ k =>
      rw [leaf?_layout, ← mem_follow]
      cases hk : e.letters[k]? with
      | none =>
          refine iff_of_false (by simp) fun h => ?_
          have hlt := (hrange (mem_follow.mp h)).2
          have hlen := List.getElem?_eq_none_iff.mp hk
          rw [length_letters] at hlen
          omega
      | some letter => simp [Node.follow?]

/-- A walk begins with a first position of the expression. -/
theorem startPositions_ofTree (e : Expr) :
    (PositionAutomaton.ofTree e.toTree).startPositions = (e.attributesFrom 1).first := by
  rw [PositionAutomaton.startPositions, tree_ofTree, attributes_rootNode_layout]

end Expr

/-! ### Walks and marked words -/

/-- **Walks are marked words.** Where all repetitions of an expression are symmetric, a sequence
of positions is a word of the marked language exactly if it begins with a first position of the
root, ends with a last position of the root, and each of its positions follows the one before. -/
theorem PositionAutomaton.mem_marked_iff_isChain_follows {expression : String}
    {automaton : PositionAutomaton}
    (h : PositionAutomaton.ofExpression expression = .ok automaton)
    (hsymmetric : automaton.tree.SymmetricRepetitions) :
    ∃ e : Expr, e.Spells expression.toList ∧
      automaton.tree.HasSubtree automaton.tree.root 1 e ∧
      ∀ w : List Nat, w ≠ [] →
        (w ∈ e.marked 1 ↔
          (∃ p, w.head? = some p ∧ p ∈ automaton.startPositions) ∧
          (∃ p, w.getLast? = some p ∧ p ∈ automaton.tree.rootNode.attributes.last) ∧
          w.IsChain automaton.Follows) := by
  obtain ⟨e, hs, rfl⟩ := PositionAutomaton.ofExpression_eq_ok_iff.mp h
  rw [Expr.tree_ofTree, Expr.symmetricRepetitions_layout] at hsymmetric
  have hfollows : (ofTree e.toTree).Follows = e.Precedes 1 := by
    funext p q
    rw [Expr.follows_ofTree_iff, Expr.linked_iff_precedes hsymmetric]
  refine ⟨e, hs, ?_, fun w hw => ?_⟩
  · rw [Expr.tree_ofTree]
    exact Expr.hasSubtree_root_layout
  · rw [Expr.startPositions_ofTree, Expr.tree_ofTree, Expr.attributes_rootNode_layout, hfollows]
    exact (Expr.local_marked 1 e).mem_iff hw

/-- In `ab|*c?.`, an optional operand after a symmetric repetition, positions 1, 2 and 1 are a
word without the optional one. -/
theorem PositionAutomaton.mem_marked_iff_isChain_follows_star_optional :
    ∃ (e : Expr) (automaton : PositionAutomaton), e.Spells "ab|*c?.".toList ∧
      PositionAutomaton.ofExpression "ab|*c?." = .ok automaton ∧
      automaton.tree.SymmetricRepetitions ∧
      automaton.tree.HasSubtree automaton.tree.root 1 e ∧ [1, 2, 1] ∈ e.marked 1 ∧
      [1, 3, 1] ∉ e.marked 1 := by
  let e : Expr := .binary .concat
    (.unary .star (.binary .union (.leaf (.operand 'a')) (.leaf (.operand 'b'))))
    (.unary .optional (.leaf (.operand 'c')))
  have hs : e.Spells "ab|*c?.".toList :=
    .binary .concat (.unary .star (.binary .union (.plain rfl) (.plain rfl)))
      (.unary .optional (.plain rfl))
  have hautomaton : PositionAutomaton.ofExpression "ab|*c?." = .ok (.ofTree e.toTree) :=
    PositionAutomaton.ofExpression_eq_ok_iff.mpr ⟨e, hs, rfl⟩
  have hsymmetric : (ofTree e.toTree).tree.SymmetricRepetitions := by
    rw [Expr.tree_ofTree, Expr.symmetricRepetitions_layout]
    exact ⟨⟨⟨trivial, trivial⟩, fun _ => rfl⟩, trivial, fun h => absurd h (by decide)⟩
  obtain ⟨e', hs', hsub, hwords⟩ :=
    PositionAutomaton.mem_marked_iff_isChain_follows hautomaton hsymmetric
  have hstart : 1 ∈ (ofTree e.toTree).startPositions := by
    rw [Expr.startPositions_ofTree]
    decide
  have hlast : 1 ∈ (ofTree e.toTree).tree.rootNode.attributes.last := by
    rw [Expr.tree_ofTree, Expr.attributes_rootNode_layout]
    decide
  refine ⟨e', _, hs', hautomaton, hsymmetric, hsub, ?_, ?_⟩
  · refine (hwords _ (by decide)).mpr ⟨⟨1, rfl, hstart⟩, ⟨1, rfl, hlast⟩, ?_⟩
    simp only [List.isChain_cons_cons, List.IsChain.singleton, and_true, Expr.follows_ofTree_iff]
    decide
  · rw [hwords _ (by decide)]
    simp only [List.isChain_cons_cons, List.IsChain.singleton, and_true, Expr.follows_ofTree_iff]
    rintro ⟨-, -, -, hlinked⟩
    exact absurd hlinked (by decide)

end RegexPositions
