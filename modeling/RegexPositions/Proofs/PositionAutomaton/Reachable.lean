import Mathlib.Logic.Relation
import RegexPositions.Proofs.PositionAutomaton.Language

/-!
# Live Positions

No position of an automaton is there for nothing: it can be reached from a start position, and from
it a position can be reached with which the expression may end (`Expr.Live`). This holds whichever
way repetitions link, as it takes only the links of concatenations: a walk that ends the left
operand goes on with any walk that begins the right one (`Expr.Live.concat`).

* `Expr.live_of_hasPosition` — every position of an expression is live;
* `PositionAutomaton.reaches_of_ofExpression` — so is every position of its automaton, and with an
  end marker behind the expression every position lies on a walk from a start position to the end
  marker.
-/

namespace RegexPositions

open Relation (ReflTransGen)

namespace Expr

variable {start p q : Nat} {e l r : Expr}

/-- A **live** position lies on a walk along links from a first position to a last one. -/
structure Live (start : Nat) (e : Expr) (p : Nat) : Prop where
  /-- A walk from a first position leads to the position. -/
  from_first : ∃ s ∈ (e.attributesFrom start).first, ReflTransGen (e.Linked start) s p
  /-- A walk from the position leads to a last one. -/
  to_last : ∃ t ∈ (e.attributesFrom start).last, ReflTransGen (e.Linked start) p t

/-! A walk through an operand is a walk through the expression. -/

/-- A unary operator keeps the links of its operand. -/
theorem linked_le_unary (op : UnaryOp) : e.Linked start ≤ (unary op e).Linked start :=
  fun _ _ hlink => linked_unary.mpr (.inl hlink)

/-- A binary operator keeps the links of its left operand. -/
theorem linked_left_le_binary (op : BinaryOp) (l r : Expr) :
    l.Linked start ≤ (binary op l r).Linked start := by
  intro p q hlink
  cases op with
  | concat => exact linked_concat.mpr (.inl hlink)
  | union => exact linked_union.mpr (.inl hlink)

/-- A binary operator keeps the links of its right operand. -/
theorem linked_right_le_binary (op : BinaryOp) (l r : Expr) :
    r.Linked (start + l.leafCount) ≤ (binary op l r).Linked start := by
  intro p q hlink
  cases op with
  | concat => exact linked_concat.mpr (.inr (.inl hlink))
  | union => exact linked_union.mpr (.inr hlink)

/-- A position of the operand is as live as it was. -/
theorem Live.unary (op : UnaryOp) (h : e.Live start p) : (unary op e).Live start p := by
  obtain ⟨⟨s, hs, hfrom⟩, ⟨t, ht, hto⟩⟩ := h
  exact ⟨⟨s, hs, ReflTransGen.mono (linked_le_unary op) s p hfrom⟩,
    ⟨t, ht, ReflTransGen.mono (linked_le_unary op) p t hto⟩⟩

/-- In a union, the positions that are live on the left stay live. -/
theorem Live.union_left (r : Expr) (h : l.Live start p) : (binary .union l r).Live start p := by
  obtain ⟨⟨s, hs, hfrom⟩, ⟨t, ht, hto⟩⟩ := h
  have hwalk := ReflTransGen.mono (@linked_left_le_binary start .union l r)
  exact ⟨⟨s, PositionSet.mem_union.mpr (.inl hs), hwalk s p hfrom⟩,
    ⟨t, PositionSet.mem_union.mpr (.inl ht), hwalk p t hto⟩⟩

/-- In a union, the positions that are live on the right stay live. -/
theorem Live.union_right (l : Expr) (h : r.Live (start + l.leafCount) p) :
    (binary .union l r).Live start p := by
  obtain ⟨⟨s, hs, hfrom⟩, ⟨t, ht, hto⟩⟩ := h
  have hwalk := ReflTransGen.mono (@linked_right_le_binary start .union l r)
  exact ⟨⟨s, PositionSet.mem_union.mpr (.inr hs), hwalk s p hfrom⟩,
    ⟨t, PositionSet.mem_union.mpr (.inr ht), hwalk p t hto⟩⟩

/-- Position `p` of the left operand and position `q` of the right one are live in a concatenation:
the walk from `p` to the end of the left operand goes on with the walk from the beginning of the
right operand to `q`. -/
theorem Live.concat (hl : l.Live start p) (hr : r.Live (start + l.leafCount) q) :
    (binary .concat l r).Live start p ∧ (binary .concat l r).Live start q := by
  obtain ⟨⟨s, hs, hsp⟩, ⟨t, ht, hpt⟩⟩ := hl
  obtain ⟨⟨u, hu, huq⟩, ⟨v, hv, hqv⟩⟩ := hr
  have hleft := ReflTransGen.mono (@linked_left_le_binary start .concat l r)
  have hright := ReflTransGen.mono (@linked_right_le_binary start .concat l r)
  have hfirst : s ∈ ((binary .concat l r).attributesFrom start).first :=
    Attributes.mem_first_concat.mpr (.inl hs)
  have hlast : v ∈ ((binary .concat l r).attributesFrom start).last :=
    Attributes.mem_last_concat.mpr (.inl hv)
  have hjoint : (binary .concat l r).Linked start t u :=
    linked_concat.mpr (.inr (.inr ⟨ht, hu⟩))
  have hpq : ReflTransGen ((binary .concat l r).Linked start) p q :=
    ((hleft p t hpt).tail hjoint).trans (hright u q huq)
  exact ⟨⟨⟨s, hfirst, hleft s p hsp⟩, ⟨v, hlast, hpq.trans (hright q v hqv)⟩⟩,
    ⟨⟨s, hfirst, (hleft s p hsp).trans hpq⟩, ⟨v, hlast, hright q v hqv⟩⟩⟩

/-- **Every position is live.** -/
theorem live_of_hasPosition (h : e.HasPosition start p) : e.Live start p := by
  induction e generalizing start p with
  | leaf letter =>
      obtain rfl : p = start := by
        rw [HasPosition, leafCount] at h
        omega
      exact ⟨⟨p, start_mem_first p _, .refl⟩, ⟨p, stop_mem_last p (leaf letter), .refl⟩⟩
  | unary op e ih => exact (ih h).unary op
  | binary op l r ihl ihr =>
      have hsplit : l.HasPosition start p ∨ r.HasPosition (start + l.leafCount) p := by
        rw [HasPosition, leafCount] at h
        rw [HasPosition, HasPosition]
        omega
      cases op with
      | concat =>
          -- Each operand has a position, so there is a walk through it to go on with.
          have hl : l.HasPosition start start := ⟨Nat.le_refl _, by have := l.leafCount_pos; omega⟩
          have hr : r.HasPosition (start + l.leafCount) (start + l.leafCount) :=
            ⟨Nat.le_refl _, by have := r.leafCount_pos; omega⟩
          rcases hsplit with hp | hp
          · exact ((ihl hp).concat (ihr hr)).1
          · exact ((ihl hl).concat (ihr hp)).2
      | union =>
          rcases hsplit with hp | hp
          · exact (ihl hp).union_left r
          · exact (ihr hp).union_right l

/-- With an end marker behind it, an expression ends there. -/
theorem mem_last_closed_iff :
    p ∈ (e.closed.attributesFrom start).last ↔ p = start + e.leafCount := by
  rw [closed, attributesFrom, Attributes.binary, Attributes.mem_last_concat]
  simp [attributesFrom, Attributes.leaf]

end Expr

namespace PositionAutomaton

/-- From position `p`, zero or more steps lead to position `q`. -/
def Reaches (automaton : PositionAutomaton) : Nat → Nat → Prop :=
  ReflTransGen automaton.Follows

/-- The positions of an automaton are live. -/
theorem reaches_ofTree {e : Expr} {p : Nat} (h1 : 1 ≤ p) (h2 : p ≤ e.leafCount) :
    (∃ s ∈ (ofTree e.toTree).startPositions, (ofTree e.toTree).Reaches s p) ∧
      ∃ t ∈ (ofTree e.toTree).tree.rootNode.attributes.last, (ofTree e.toTree).Reaches p t := by
  have hfollows : (ofTree e.toTree).Follows = e.Linked 1 := by
    funext p q
    exact propext Expr.follows_ofTree_iff
  have hlive : e.Live 1 p := Expr.live_of_hasPosition ⟨h1, by omega⟩
  rw [Reaches, hfollows, Expr.startPositions_ofTree, Expr.tree_ofTree,
    Expr.attributes_rootNode_layout]
  exact ⟨hlive.from_first, hlive.to_last⟩

/-- **No position is dead.** Every position of an automaton is reached from a start position, and
reaches a last position of the root. With an end marker behind the expression, every position lies
on a walk from a start position to the end marker. -/
theorem reaches_of_ofExpression {expression : String} {automaton : PositionAutomaton}
    (h : PositionAutomaton.ofExpression expression = .ok automaton) :
    (∀ p, 1 ≤ p → p ≤ automaton.tree.leafCount →
      (∃ s ∈ automaton.startPositions, automaton.Reaches s p) ∧
        ∃ t ∈ automaton.tree.rootNode.attributes.last, automaton.Reaches p t) ∧
    ∃ closed stop, PositionAutomaton.ofExpression (expression ++ "#.") = .ok closed ∧
      closed.endMarker? = some stop ∧ stop = closed.tree.leafCount ∧
      stop = automaton.tree.leafCount + 1 ∧
      ∀ p, 1 ≤ p → p ≤ closed.tree.leafCount →
        ∃ s ∈ closed.startPositions, closed.Reaches s p ∧ closed.Reaches p stop := by
  obtain ⟨e, hs, rfl⟩ := PositionAutomaton.ofExpression_eq_ok_iff.mp h
  have hcount : (ofTree e.toTree).tree.leafCount = e.leafCount := by
    rw [Expr.tree_ofTree, Expr.leafCount_layout]
  rw [hcount]
  refine ⟨fun p h1 h2 => reaches_ofTree h1 h2, e.automaton, _,
    Expr.ofExpression_append_endMarker hs, e.endMarker?_automaton, rfl, e.leafCount_automaton,
    fun p h1 h2 => ?_⟩
  rw [e.leafCount_automaton] at h2 ⊢
  obtain ⟨⟨s, hs, hfrom⟩, ⟨t, ht, hto⟩⟩ := @reaches_ofTree e.closed p h1 h2
  rw [Expr.tree_ofTree, Expr.attributes_rootNode_layout, Expr.mem_last_closed_iff] at ht
  rw [Nat.add_comm, ← ht]
  exact ⟨s, hs, hfrom, hto⟩

/-- In `ab?.*`, position 2 is no start position, but it is reached from one; with the end marker
behind the expression, the walk goes on to position 3. -/
theorem reaches_of_ofExpression_optional_star :
    ∃ automaton closed, PositionAutomaton.ofExpression "ab?.*" = .ok automaton ∧
      2 ∉ automaton.startPositions ∧ (∃ s ∈ automaton.startPositions, automaton.Reaches s 2) ∧
      PositionAutomaton.ofExpression ("ab?.*" ++ "#.") = .ok closed ∧
      closed.endMarker? = some 3 ∧
      ∃ s ∈ closed.startPositions, closed.Reaches s 2 ∧ closed.Reaches 2 3 := by
  let e : Expr := .unary .star (.binary .concat (.leaf (.operand 'a'))
    (.unary .optional (.leaf (.operand 'b'))))
  have hautomaton : PositionAutomaton.ofExpression "ab?.*" = .ok (ofTree e.toTree) :=
    ofExpression_eq_ok_iff.mpr ⟨e, .unary .star (.binary .concat (.plain rfl)
      (.unary .optional (.plain rfl))), rfl⟩
  have hcount : (ofTree e.toTree).tree.leafCount = 2 := by
    rw [Expr.tree_ofTree, Expr.leafCount_layout]
    rfl
  have hstart : 2 ∉ (ofTree e.toTree).startPositions := by
    rw [Expr.startPositions_ofTree]
    decide
  obtain ⟨hlive, closed, stop, hclosed, hend, hstop, hsucc, hwalks⟩ :=
    reaches_of_ofExpression hautomaton
  rw [hcount] at hlive hsucc
  subst hsucc
  exact ⟨_, closed, hautomaton, hstart, (hlive 2 (by decide) (by decide)).1, hclosed, hend,
    hwalks 2 (by decide) (by omega)⟩

end PositionAutomaton

end RegexPositions
