import RegexPositions.Proofs.Expr.Shift
import RegexPositions.Proofs.Tree.Stages

/-!
# Composing Automata

The automaton of a composed expression is made of those of its operands. One of them stands in
front and is left as it is, another one behind it, with ids moved up by the number of nodes and
positions moved up by the number of leaves in front (`Node.shift`), and the operator comes last. No
follow set changes but those that the new operator links (`Node.addFollow`).

* `PositionAutomaton.Joins` — the automaton of an operator with two operands;
* `PositionAutomaton.Wraps` — the automaton of an operator with one;
* `PositionAutomaton.ofExpression_push` — an operator behind two expressions, or one, makes
  exactly that of their automata.
-/

namespace RegexPositions

/-- The shape with ids moved up by `m` and positions by `n`. -/
def Shape.shift (m n : Nat) : Shape → Shape
  | leaf letter position follow => leaf letter (position + n) (follow.shift n)
  | unary op operand => unary op (operand + m)
  | binary op left right => binary op (left + m) (right + m)

/-- The node with ids moved up by `m` and positions by `n`. -/
def Node.shift (m n : Nat) (node : Node) : Node :=
  ⟨node.shape.shift m n, node.attributes.shift n⟩

/-- The node with `extra p` added to its follow set, if it is the leaf at position `p`. -/
def Node.addFollow (extra : Nat → PositionSet) (node : Node) : Node :=
  match node.shape with
  | .leaf letter position follow =>
      { node with shape := .leaf letter position (follow ∪ extra position) }
  | .unary .. | .binary .. => node

/-- A set given on a condition has its positions if the condition holds. -/
theorem PositionSet.mem_ite {c : Prop} [Decidable c] {s : PositionSet} {p : Nat} :
    p ∈ (if c then s else ∅) ↔ c ∧ p ∈ s := by
  split
  · next h => exact (and_iff_right h).symm
  · next h => exact iff_of_false (not_mem_empty p) fun hp => h hp.1

namespace Expr

variable {follow follow' extra : Nat → PositionSet} {attributes : Nat → Expr → Attributes}
variable {id start m n p : Nat}

/-! ### Layouts -/

/-- Behind other nodes, an expression is laid out as it would be alone, and moved up. -/
theorem layoutFrom_add {e : Expr} (h : ∀ p, start ≤ p → follow' (p + n) = (follow p).shift n) :
    e.layoutFrom follow' attributesFrom (id + m) (start + n) =
      (e.layoutFrom follow attributesFrom id start).map (Node.shift m n) := by
  induction e generalizing id start with
  | leaf letter =>
      rw [layoutFrom, layoutFrom, h start (Nat.le_refl start), attributesFrom_add]
      rfl
  | unary op e ih =>
      have hid : id + m + e.nodeCount - 1 = id + e.nodeCount - 1 + m := by
        have := e.nodeCount_pos
        omega
      rw [layoutFrom, layoutFrom, List.map_append, ih h, attributesFrom_add, hid]
      rfl
  | binary op l r ihl ihr =>
      have hl : id + m + l.nodeCount - 1 = id + l.nodeCount - 1 + m := by
        have := l.nodeCount_pos
        omega
      have hr : id + m + l.nodeCount + r.nodeCount - 1 =
          id + l.nodeCount + r.nodeCount - 1 + m := by
        have := r.nodeCount_pos
        omega
      have hright := @ihr (id + l.nodeCount) (start + l.leafCount) fun p hp => h p (by omega)
      rw [Nat.add_right_comm id, Nat.add_right_comm start] at hright
      rw [layoutFrom, layoutFrom, List.map_append, List.map_append, ihl h, hright,
        attributesFrom_add, hl, hr]
      rfl

/-- Adding to the follow sets of an expression changes its leaves. -/
theorem layoutFrom_addFollow {e : Expr}
    (h : ∀ p < start + e.leafCount, follow' p = follow p ∪ extra p) :
    e.layoutFrom follow' attributes id start =
      (e.layoutFrom follow attributes id start).map (Node.addFollow extra) := by
  induction e generalizing id start with
  | leaf letter =>
      rw [layoutFrom, layoutFrom, h start (Nat.lt_succ_self start)]
      rfl
  | unary op e ih =>
      rw [layoutFrom, layoutFrom, List.map_append, ih h]
      rfl
  | binary op l r ihl ihr =>
      rw [leafCount] at h
      rw [layoutFrom, layoutFrom, List.map_append, List.map_append,
        ihl fun p hp => h p (by omega), ihr fun p hp => h p (by omega)]
      rfl

/-- Ids counted from further on are the ids, moved up. -/
theorem leafIdsFrom_add (id m : Nat) (e : Expr) :
    e.leafIdsFrom (id + m) = (e.leafIdsFrom id).map (· + m) := by
  induction e generalizing id with
  | leaf letter => rfl
  | unary op e ih => exact ih id
  | binary op l r ihl ihr =>
      rw [leafIdsFrom, leafIdsFrom, ihl, Nat.add_right_comm, ihr, List.map_append]

/-! ### Follow sets -/

/-- A repetition adds the last positions of its operand to the follow sets of the first ones. -/
theorem follow_unary (op : UnaryOp) (e : Expr) (p : Nat) :
    (unary op e).follow p = e.follow p ∪
      if (op = .star ∨ op = .plus) ∧ p ∈ (e.attributesFrom 1).first then
        (e.attributesFrom 1).last
      else ∅ := by
  ext q
  have hop : op.repeats = true ↔ op = .star ∨ op = .plus := by cases op <;> decide
  rw [mem_follow, linked_unary, PositionSet.mem_union, mem_follow, PositionSet.mem_ite, hop,
    and_assoc]

/-- A concatenation adds the first positions of its right operand to the follow sets of the last
ones of the left operand; a union adds nothing. -/
theorem follow_binary_left {op : BinaryOp} {l r : Expr} (hp : p ≤ l.leafCount) :
    (binary op l r).follow p = l.follow p ∪
      if op = .concat ∧ p ∈ (l.attributesFrom 1).last then
        (r.attributesFrom 1).first.shift l.leafCount
      else ∅ := by
  ext q
  have hr : ¬r.Linked (1 + l.leafCount) p q := fun hlink => by
    have := (range_of_linked hlink).1.1
    omega
  rw [mem_follow, PositionSet.mem_union, mem_follow, PositionSet.mem_ite]
  cases op with
  | concat =>
      rw [linked_concat, attributesFrom_add]
      simp only [hr, false_or, Attributes.shift, true_and]
  | union =>
      rw [linked_union]
      simp only [hr, or_false, reduceCtorEq, false_and]

/-- The follow sets of the right operand are as they were, and moved up. -/
theorem follow_binary_right {op : BinaryOp} {l r : Expr} (hp : 1 ≤ p) :
    (binary op l r).follow (p + l.leafCount) = (r.follow p).shift l.leafCount := by
  have hlinked : ∀ q, (binary op l r).Linked 1 (p + l.leafCount) q ↔
      r.Linked (1 + l.leafCount) (p + l.leafCount) q := by
    -- Links begin at a position of the left operand, unless they are those of the right one.
    intro q
    have hl : ¬l.Linked 1 (p + l.leafCount) q := fun hlink => by
      have := (range_of_linked hlink).1.2
      omega
    have hlast : p + l.leafCount ∉ (l.attributesFrom 1).last := fun hlast => by
      have := (range_of_mem_last hlast).2
      omega
    cases op with
    | concat =>
        rw [linked_concat]
        simp only [hl, hlast, false_or, false_and, or_false]
    | union => rw [linked_union, or_iff_right hl]
  refine (PositionSet.eq_shift_iff fun q hq => ?_).mpr fun q => ?_
  · have := (range_of_linked ((hlinked q).mp (mem_follow.mp hq))).2.1
    omega
  · rw [mem_follow, hlinked, linked_add_iff, mem_follow]

end Expr

/-! ### Automata -/

namespace PositionAutomaton

/-- What an operator between two automata adds to the follow set of position `p` of the left one:
what the right one starts with, if `p` may come last and the right one comes next. -/
def joinFollow (op : BinaryOp) (l r : PositionAutomaton) (p : Nat) : PositionSet :=
  if op = .concat ∧ p ∈ l.tree.rootNode.attributes.last then
    r.startPositions.shift l.tree.leafCount
  else ∅

/-- What an operator on one automaton adds to the follow set of position `p`: the last positions,
if `p` may come first and the operator repeats. -/
def wrapFollow (op : UnaryOp) (a : PositionAutomaton) (p : Nat) : PositionSet :=
  if (op = .star ∨ op = .plus) ∧ p ∈ a.startPositions then a.tree.rootNode.attributes.last else ∅

/-- The automaton `a` **joins** two automata by an operator. -/
structure Joins (op : BinaryOp) (l r a : PositionAutomaton) : Prop where
  /-- The nodes are those of the left automaton, those of the right one, and the operator. -/
  nodes_eq : a.tree.nodes =
    l.tree.nodes.map (Node.addFollow (joinFollow op l r)) ++
      r.tree.nodes.map (Node.shift l.tree.nodes.size l.tree.leafCount) ++
      #[⟨.binary op l.tree.root (r.tree.root + l.tree.nodes.size),
        .binary op l.tree.rootNode.attributes
          (r.tree.rootNode.attributes.shift l.tree.leafCount)⟩]
  /-- The leaves are those of the left automaton and those of the right one. -/
  leaves_eq : a.tree.leaves = l.tree.leaves ++ r.tree.leaves.map (· + l.tree.nodes.size)
  /-- The operator is the root. -/
  root_eq : a.tree.root = l.tree.nodes.size + r.tree.nodes.size
  /-- The positions of the left automaton are followed as before, and by what the operator adds. -/
  follow?_left : ∀ p, 1 ≤ p → p ≤ l.tree.leafCount → ∃ follow, l.follow? p = some follow ∧
    a.follow? p = some (follow ∪ joinFollow op l r p)
  /-- The positions of the right automaton are followed as before. -/
  follow?_right : ∀ p, 1 ≤ p → p ≤ r.tree.leafCount → ∃ follow, r.follow? p = some follow ∧
    a.follow? (l.tree.leafCount + p) = some (follow.shift l.tree.leafCount)

/-- The automaton `b` **wraps** an automaton in an operator. -/
structure Wraps (op : UnaryOp) (a b : PositionAutomaton) : Prop where
  /-- The nodes are those of the automaton, and the operator. -/
  nodes_eq : b.tree.nodes =
    a.tree.nodes.map (Node.addFollow (wrapFollow op a)) ++
      #[⟨.unary op a.tree.root, .unary op a.tree.rootNode.attributes⟩]
  /-- The leaves are those of the automaton. -/
  leaves_eq : b.tree.leaves = a.tree.leaves
  /-- The operator is the root. -/
  root_eq : b.tree.root = a.tree.nodes.size
  /-- The positions are followed as before, and by what the operator adds. -/
  follow?_eq : ∀ p, 1 ≤ p → p ≤ a.tree.leafCount → ∃ follow, a.follow? p = some follow ∧
    b.follow? p = some (follow ∪ wrapFollow op a p)

section Layout

variable {e : Expr} {p : Nat}

/-- The automaton of an expression has its follow set for every position. -/
theorem follow?_ofTree (h1 : 1 ≤ p) (h2 : p ≤ e.leafCount) :
    (ofTree e.toTree).follow? p = some (e.follow p) := by
  rw [follow?, Expr.tree_ofTree]
  exact Expr.follow?_leaf?_layout h1 h2

/-- The automaton of an expression has as many leaves. -/
theorem leafCount_ofTree (e : Expr) : (ofTree e.toTree).tree.leafCount = e.leafCount := by
  rw [Expr.tree_ofTree, Expr.leafCount_layout]

/-- The nodes of the automaton are those of the expression, with attributes and follow sets. -/
theorem nodes_ofTree (e : Expr) : (ofTree e.toTree).tree.nodes =
    (e.layoutFrom e.follow Expr.attributesFrom 0 1).toArray := by
  rw [Expr.tree_ofTree]
  rfl

/-- The automaton of an expression has as many nodes. -/
theorem size_nodes_ofTree (e : Expr) : (ofTree e.toTree).tree.nodes.size = e.nodeCount := by
  rw [nodes_ofTree, List.size_toArray, Expr.length_layoutFrom]

/-- The leaf list of the automaton has the ids of the leaves. -/
theorem leaves_ofTree (e : Expr) :
    (ofTree e.toTree).tree.leaves = (e.leafIdsFrom 0).toArray := by
  rw [Expr.tree_ofTree]
  rfl

/-- The root of the automaton is the last node. -/
theorem root_ofTree (e : Expr) : (ofTree e.toTree).tree.root = e.nodeCount - 1 := by
  rw [Expr.tree_ofTree]
  rfl

/-- On record at the root are the attributes of the expression. -/
theorem attributes_rootNode_ofTree (e : Expr) :
    (ofTree e.toTree).tree.rootNode.attributes = e.attributesFrom 1 := by
  rw [Expr.tree_ofTree, Expr.attributes_rootNode_layout]

end Layout

/-- The automaton of an operator joins those of its operands. -/
theorem joins_ofTree (op : BinaryOp) (l r : Expr) :
    Joins op (ofTree l.toTree) (ofTree r.toTree) (ofTree (Expr.binary op l r).toTree) := by
  have hleft : ∀ p < 1 + l.leafCount, (Expr.binary op l r).follow p =
      l.follow p ∪ joinFollow op (ofTree l.toTree) (ofTree r.toTree) p := by
    intro p hp
    rw [Expr.follow_binary_left (by omega), joinFollow, attributes_rootNode_ofTree,
      Expr.startPositions_ofTree, leafCount_ofTree]
  have hright : ∀ p, 1 ≤ p → (Expr.binary op l r).follow (p + l.leafCount) =
      (r.follow p).shift l.leafCount := fun p hp => Expr.follow_binary_right hp
  constructor
  · have hroot : 0 + l.nodeCount + r.nodeCount - 1 = r.nodeCount - 1 + l.nodeCount := by
      have := r.nodeCount_pos
      omega
    rw [nodes_ofTree, Expr.layoutFrom, Expr.layoutFrom_addFollow hleft,
      Expr.layoutFrom_add hright, hroot, nodes_ofTree, nodes_ofTree, List.size_toArray,
      Expr.length_layoutFrom, leafCount_ofTree, root_ofTree, root_ofTree,
      attributes_rootNode_ofTree, attributes_rootNode_ofTree, Expr.attributesFrom,
      Expr.attributesFrom_add, Nat.zero_add]
    simp only [List.map_toArray, List.append_toArray]
  · rw [leaves_ofTree, Expr.leafIdsFrom, Expr.leafIdsFrom_add, leaves_ofTree, leaves_ofTree,
      size_nodes_ofTree]
    simp only [List.map_toArray, List.append_toArray]
  · rw [root_ofTree, size_nodes_ofTree, size_nodes_ofTree, Expr.nodeCount, Nat.add_sub_cancel]
  · intro p h1 h2
    rw [leafCount_ofTree] at h2
    refine ⟨_, follow?_ofTree h1 h2, ?_⟩
    rw [follow?_ofTree h1 (by rw [Expr.leafCount]; omega), hleft p (by omega)]
  · intro p h1 h2
    rw [leafCount_ofTree] at h2
    refine ⟨_, follow?_ofTree h1 h2, ?_⟩
    rw [leafCount_ofTree, Nat.add_comm,
      follow?_ofTree (by omega) (by rw [Expr.leafCount]; omega), hright p h1]

/-- The automaton of an operator wraps that of its operand. -/
theorem wraps_ofTree (op : UnaryOp) (e : Expr) :
    Wraps op (ofTree e.toTree) (ofTree (Expr.unary op e).toTree) := by
  have hfollow : ∀ p, (Expr.unary op e).follow p =
      e.follow p ∪ wrapFollow op (ofTree e.toTree) p := by
    intro p
    rw [Expr.follow_unary, wrapFollow, attributes_rootNode_ofTree, Expr.startPositions_ofTree]
  constructor
  · rw [nodes_ofTree, Expr.layoutFrom, Expr.layoutFrom_addFollow fun p _ => hfollow p,
      nodes_ofTree, root_ofTree, attributes_rootNode_ofTree, Expr.attributesFrom, Nat.zero_add]
    simp only [List.map_toArray, List.append_toArray]
  · rw [leaves_ofTree, leaves_ofTree, Expr.leafIdsFrom]
  · rw [root_ofTree, size_nodes_ofTree, Expr.nodeCount, Nat.add_sub_cancel]
  · intro p h1 h2
    rw [leafCount_ofTree] at h2
    refine ⟨_, follow?_ofTree h1 h2, ?_⟩
    rw [← hfollow]
    exact follow?_ofTree h1 h2

/-- What an operator between two automata puts on record at the root follows from what is on record
at their roots. -/
theorem Joins.attributes_rootNode {op : BinaryOp} {l r a : PositionAutomaton}
    (h : Joins op l r a) : a.tree.rootNode.attributes =
      .binary op l.tree.rootNode.attributes
        (r.tree.rootNode.attributes.shift l.tree.leafCount) := by
  have hroot : a.tree.nodes[a.tree.root]? = some a.tree.rootNode :=
    Array.getElem?_eq_getElem a.tree.root_lt
  rw [h.nodes_eq, h.root_eq, Array.getElem?_append_right (by simp)] at hroot
  simp only [Array.size_append, Array.size_map, Nat.sub_self] at hroot
  rw [← Option.some.inj hroot]
  rfl

/-- **Composing expressions composes automata.** An operator behind two expressions joins their
automata, and an operator behind one expression wraps its automaton. -/
theorem ofExpression_push {x y : String} {l r : PositionAutomaton}
    (hx : PositionAutomaton.ofExpression x = .ok l)
    (hy : PositionAutomaton.ofExpression y = .ok r) :
    (∀ op : BinaryOp, ∃ a, PositionAutomaton.ofExpression ((x ++ y).push op.symbol) = .ok a ∧
      Joins op l r a) ∧
    ∀ op : UnaryOp, ∃ a, PositionAutomaton.ofExpression (x.push op.symbol) = .ok a ∧
      Wraps op l a := by
  obtain ⟨e, he, rfl⟩ := PositionAutomaton.ofExpression_eq_ok_iff.mp hx
  obtain ⟨e', he', rfl⟩ := PositionAutomaton.ofExpression_eq_ok_iff.mp hy
  constructor
  · intro op
    refine ⟨_, ofExpression_eq_ok_iff.mpr ⟨.binary op e e', ?_, rfl⟩, joins_ofTree op e e'⟩
    rw [String.toList_push, String.toList_append]
    exact .binary op he he'
  · intro op
    refine ⟨_, ofExpression_eq_ok_iff.mpr ⟨.unary op e, ?_, rfl⟩, wraps_ofTree op e⟩
    rw [String.toList_push]
    exact .unary op he

/-- In `ab|c*.`, the repetition comes as position 3 after either letter. It may be left out, so the
letters may come last as well, while it may not come first. In `ab|+`, each of the two letters comes
after each. -/
theorem ofExpression_push_union_star :
    ∃ l r a b, PositionAutomaton.ofExpression "ab|" = .ok l ∧
      PositionAutomaton.ofExpression "c*" = .ok r ∧
      PositionAutomaton.ofExpression (("ab|" ++ "c*").push '.') = .ok a ∧ Joins .concat l r a ∧
      PositionAutomaton.ofExpression ("ab|".push '+') = .ok b ∧ Wraps .plus l b ∧
      a.follow? 2 = some (.singleton 3) ∧ a.follow? 3 = some (.singleton 3) ∧
      a.tree.rootNode.attributes = ⟨false, .ofList [1, 2], .ofList [1, 2, 3]⟩ ∧
      b.follow? 2 = some (.ofList [1, 2]) := by
  let e : Expr := .binary .union (.leaf (.operand 'a')) (.leaf (.operand 'b'))
  let e' : Expr := .unary .star (.leaf (.operand 'c'))
  have hx : PositionAutomaton.ofExpression "ab|" = .ok (ofTree e.toTree) :=
    ofExpression_eq_ok_iff.mpr ⟨e, .binary .union (.plain rfl) (.plain rfl), rfl⟩
  have hy : PositionAutomaton.ofExpression "c*" = .ok (ofTree e'.toTree) :=
    ofExpression_eq_ok_iff.mpr ⟨e', .unary .star (.plain rfl), rfl⟩
  obtain ⟨hbinary, hunary⟩ := ofExpression_push hx hy
  obtain ⟨a, ha, hjoins⟩ := hbinary .concat
  obtain ⟨b, hb, hwraps⟩ := hunary .plus
  obtain ⟨f, hf, haf⟩ := hjoins.follow?_left 2 (by decide) (by decide)
  obtain ⟨g, hg, hag⟩ := hjoins.follow?_right 1 (by decide) (by decide)
  obtain ⟨k, hk, hbk⟩ := hwraps.follow?_eq 2 (by decide) (by decide)
  refine ⟨_, _, a, b, hx, hy, ha, hjoins, hb, hwraps, ?_, ?_, ?_, ?_⟩
  · rw [follow?_ofTree (by decide) (by decide)] at hf
    obtain rfl := Option.some.inj hf
    rw [haf]
    decide +kernel
  · rw [follow?_ofTree (by decide) (by decide)] at hg
    obtain rfl := Option.some.inj hg
    rw [leafCount_ofTree] at hag
    refine hag.trans ?_
    decide +kernel
  · rw [hjoins.attributes_rootNode, attributes_rootNode_ofTree, attributes_rootNode_ofTree,
      leafCount_ofTree]
    decide +kernel
  · rw [follow?_ofTree (by decide) (by decide)] at hk
    obtain rfl := Option.some.inj hk
    rw [hbk]
    decide +kernel

end PositionAutomaton

end RegexPositions
