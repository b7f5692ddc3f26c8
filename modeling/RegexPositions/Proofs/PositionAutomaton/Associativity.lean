import RegexPositions.Proofs.PositionAutomaton.Composition
import RegexPositions.Proofs.Tree.Stack

/-!
# Bracketing Makes No Difference

Three operands can be joined by two equal operators in two ways, `x y op z op` and `x y z op op`.
The trees differ: other nodes stand at other ids, and another operator contributes some of the
links. Nobody who uses the automaton can tell (`PositionAutomaton.Alike`), and this remains so when
the operators and operands around it are added, and even when there are too few of them or too many.

* `PositionAutomaton.alike_ofTree` — alike expressions have alike automata;
* `PositionAutomaton.ofExpression_assoc` — the two ways of joining three operands, between any two
  texts.
-/

namespace RegexPositions

open TokenReader

namespace PositionAutomaton

/-- **Alike** automata have the same symbols at the same positions, start with the same positions,
may end with the same ones, and step from each position to the same ones. -/
structure Alike (a b : PositionAutomaton) : Prop where
  /-- There are as many positions. -/
  leafCount_eq : a.tree.leafCount = b.tree.leafCount
  /-- The same symbol stands at each position. -/
  symbol_eq : ∀ p, (a.tree.leaf? p).map Node.symbol = (b.tree.leaf? p).map Node.symbol
  /-- The end marker has the same position, if there is one. -/
  endMarker?_eq : a.endMarker? = b.endMarker?
  /-- The same positions may come first. -/
  startPositions_eq : a.startPositions = b.startPositions
  /-- The empty word is matched by both or by neither. -/
  nullable_eq : a.tree.rootNode.attributes.nullable = b.tree.rootNode.attributes.nullable
  /-- The same positions may come last. -/
  last_eq : a.tree.rootNode.attributes.last = b.tree.rootNode.attributes.last
  /-- The same positions follow each position. -/
  follow?_eq : ∀ p, a.follow? p = b.follow? p

section Alike

variable {e e' : Expr}

/-- The leaves of alike expressions have the same on record. -/
theorem leaf?_ofTree_of_alike (h : e.Alike e') (p : Nat) :
    (ofTree e.toTree).tree.leaf? p = (ofTree e'.toTree).tree.leaf? p := by
  have hfollow : ∀ q, e.follow q = e'.follow q := by
    intro q
    ext r
    rw [Expr.mem_follow, Expr.mem_follow, h.linked_iff]
  rw [Expr.tree_ofTree, Expr.tree_ofTree]
  cases p with
  | zero => rfl
  | succ k => rw [Expr.leaf?_layout, Expr.leaf?_layout, h.letters_eq, hfollow]

/-- Alike expressions have alike automata. -/
theorem alike_ofTree (h : e.Alike e') : (ofTree e.toTree).Alike (ofTree e'.toTree) := by
  have hcount : (ofTree e.toTree).tree.leafCount = (ofTree e'.toTree).tree.leafCount := by
    rw [leafCount_ofTree, leafCount_ofTree, h.leafCount_eq]
  have hroot : (ofTree e.toTree).tree.rootNode.attributes =
      (ofTree e'.toTree).tree.rootNode.attributes := by
    rw [attributes_rootNode_ofTree, attributes_rootNode_ofTree, h.attributes_eq]
  have hleaf := leaf?_ofTree_of_alike h
  exact {
    leafCount_eq := hcount
    symbol_eq p := by rw [hleaf]
    endMarker?_eq := by rw [endMarker?, endMarker?, hcount, hleaf]
    startPositions_eq := by rw [startPositions, startPositions, hroot]
    nullable_eq := by rw [hroot]
    last_eq := by rw [hroot]
    follow?_eq p := by rw [follow?, follow?, hleaf] }

end Alike

/-- **Bracketing makes no difference.** Between any two texts, three operands may be joined by two
equal operators in either way: both expressions fail for the same cause, or both have automata,
which are alike and have equally many nodes and the same root. The first text must not end within a
token. -/
theorem ofExpression_assoc {x y z p : String} {a b c : PositionAutomaton}
    (hx : PositionAutomaton.ofExpression x = .ok a) (hy : PositionAutomaton.ofExpression y = .ok b)
    (hz : PositionAutomaton.ofExpression z = .ok c)
    (hp : ∀ index, .error (.danglingEscape index) ∉ itemsOf p) (op : BinaryOp) (s : String) :
    Agree (fun l r => l.Alike r ∧ l.tree.nodes.size = r.tree.nodes.size ∧ l.tree.root = r.tree.root)
      (PositionAutomaton.ofExpression (p ++ ((x ++ y).push op.symbol ++ z).push op.symbol ++ s))
      (PositionAutomaton.ofExpression
        (p ++ ((x ++ y ++ z).push op.symbol).push op.symbol ++ s)) := by
  obtain ⟨ex, hex, -⟩ := ofExpression_eq_ok_iff.mp hx
  obtain ⟨ey, hey, -⟩ := ofExpression_eq_ok_iff.mp hy
  obtain ⟨ez, hez, -⟩ := ofExpression_eq_ok_iff.mp hz
  have hleft : (Expr.binary op (.binary op ex ey) ez).Spells
      (((x ++ y).push op.symbol ++ z).push op.symbol).toList := by
    simp only [String.toList_push, String.toList_append]
    exact .binary op (.binary op hex hey) hez
  have hright : (Expr.binary op ex (.binary op ey ez)).Spells
      (((x ++ y ++ z).push op.symbol).push op.symbol).toList := by
    have hspells := Expr.Spells.binary op hex (.binary op hey hez)
    simpa only [String.toList_push, String.toList_append, List.append_assoc] using hspells
  have hlength : (((x ++ y).push op.symbol ++ z).push op.symbol).toList.length =
      (((x ++ y ++ z).push op.symbol).push op.symbol).toList.length := by
    simp only [String.toList_push, String.toList_append, List.length_append, List.length_singleton]
    omega
  have hcount : (Expr.binary op (.binary op ex ey) ez).nodeCount =
      (Expr.binary op ex (.binary op ey ez)).nodeCount := by
    simp only [Expr.nodeCount]
    omega
  have hagree := Tree.agree_ofExpression_append
    (Expr.congruence_alike.and Expr.congruence_nodeCount) hp hleft hright hlength
    ⟨Expr.alike_assoc op ex ey ez, hcount⟩ s
  refine hagree.map fun t t' => ?_
  rintro ⟨f, f', ⟨halike, hnodes⟩, rfl, rfl⟩
  exact ⟨alike_ofTree halike, by rw [size_nodes_ofTree, size_nodes_ofTree, hnodes],
    by rw [root_ofTree, root_ofTree, hnodes]⟩

/-- In `\*a?b*.c.|*` and `\*a?b*c..|*`, the middle operand matches the empty word, and
either way position 2 is followed by positions 1, 3 and 4. With a bracket in place of the last two
operators, both fail for it. -/
theorem ofExpression_assoc_nullable_middle :
    (∃ l r, PositionAutomaton.ofExpression "\\*a?b*.c.|*" = .ok l ∧
      PositionAutomaton.ofExpression "\\*a?b*c..|*" = .ok r ∧ l.Alike r ∧
      l.tree.root = r.tree.root ∧ r.follow? 2 = some (.ofList [1, 3, 4])) ∧
    PositionAutomaton.ofExpression "\\*a?b*.c.)" = .error (.unresolvedMetacharacter 9 ')') ∧
      PositionAutomaton.ofExpression "\\*a?b*c..)" = .error (.unresolvedMetacharacter 9 ')') := by
  have hx : PositionAutomaton.ofExpression "a?" = .ok _ :=
    ofExpression_eq_ok_iff.mpr ⟨.unary .optional (.leaf (.operand 'a')),
      .unary .optional (.plain rfl), rfl⟩
  have hy : PositionAutomaton.ofExpression "b*" = .ok _ :=
    ofExpression_eq_ok_iff.mpr ⟨.unary .star (.leaf (.operand 'b')), .unary .star (.plain rfl), rfl⟩
  have hz : PositionAutomaton.ofExpression "c" = .ok _ :=
    ofExpression_eq_ok_iff.mpr ⟨.leaf (.operand 'c'), .plain rfl, rfl⟩
  have hp : ∀ index, .error (.danglingEscape index) ∉ itemsOf "\\*" := by
    have hitems : itemsOf "\\*" = [.ok ⟨0, .escaped '*'⟩] := by cbv
    rw [hitems]
    simp
  have hassoc := ofExpression_assoc hx hy hz hp .concat
  constructor
  · let e : Expr := .unary .star (.binary .union (.leaf (.operand '*'))
      (.binary .concat (.binary .concat (.unary .optional (.leaf (.operand 'a')))
        (.unary .star (.leaf (.operand 'b')))) (.leaf (.operand 'c'))))
    have hl : PositionAutomaton.ofExpression "\\*a?b*.c.|*" = .ok (ofTree e.toTree) :=
      ofExpression_eq_ok_iff.mpr ⟨e, .unary .star (.binary .union (.escaped '*')
        (.binary .concat (.binary .concat (.unary .optional (.plain rfl))
          (.unary .star (.plain rfl))) (.plain rfl))), rfl⟩
    have hfollow : (ofTree e.toTree).follow? 2 = some (.ofList [1, 3, 4]) := by
      rw [follow?_ofTree (by decide) (by decide)]
      decide +kernel
    have hagree := hassoc "|*"
    have hleft : "\\*" ++ (("a?" ++ "b*").push '.' ++ "c").push '.' ++ "|*" = "\\*a?b*.c.|*" := rfl
    have hright : "\\*" ++ (("a?" ++ "b*" ++ "c").push '.').push '.' ++ "|*" = "\\*a?b*c..|*" := rfl
    rw [BinaryOp.symbol, hleft, hright, hl] at hagree
    obtain ⟨r, hr, halike, -, hroot⟩ := hagree.exists_eq_ok
    exact ⟨_, r, hl, hr, halike, hroot, halike.follow?_eq 2 ▸ hfollow⟩
  · have herror : PositionAutomaton.ofExpression "\\*a?b*.c.)" =
        .error (.unresolvedMetacharacter 9 ')') := by cbv
    have hagree := hassoc ")"
    have hleft : "\\*" ++ (("a?" ++ "b*").push '.' ++ "c").push '.' ++ ")" = "\\*a?b*.c.)" := rfl
    have hright : "\\*" ++ (("a?" ++ "b*" ++ "c").push '.').push '.' ++ ")" = "\\*a?b*c..)" := rfl
    rw [BinaryOp.symbol, hleft, hright, herror] at hagree
    exact ⟨herror, hagree.eq_error⟩

end PositionAutomaton

end RegexPositions
