import RegexPositions.Proofs.Expr.Collapse
import RegexPositions.Proofs.PositionAutomaton.Associativity
import RegexPositions.Proofs.Tree.Exchange

/-!
# Operators on Top of Each Other

An expression under several operators with one operand has a larger tree than under the one operator
that they come down to (`UnaryOp.collapse`), but an automaton that is alike, and so it is with
whatever stands around them (`PositionAutomaton.ofExpression_unaries`).
-/

namespace RegexPositions

open TokenReader

namespace PositionAutomaton

/-- **Operators on top of each other come down to one.** Between any two texts, several operators
behind an expression may be replaced by the one that they come down to: both texts have an automaton
or neither has, and the automata are alike. The first text must not end within a token. -/
theorem ofExpression_unaries {x p : String} {a : PositionAutomaton} {ops : List UnaryOp}
    (hx : PositionAutomaton.ofExpression x = .ok a) (hops : ops ≠ [])
    (hp : ∀ index, .error (.danglingEscape index) ∉ itemsOf p) (s : String) :
    ((∃ l, PositionAutomaton.ofExpression
        (p ++ (x ++ String.ofList (ops.map UnaryOp.symbol)) ++ s) = .ok l) ↔
      ∃ r, PositionAutomaton.ofExpression
        (p ++ x.push (UnaryOp.collapse ops).symbol ++ s) = .ok r) ∧
    ∀ l r,
      PositionAutomaton.ofExpression
        (p ++ (x ++ String.ofList (ops.map UnaryOp.symbol)) ++ s) = .ok l →
      PositionAutomaton.ofExpression (p ++ x.push (UnaryOp.collapse ops).symbol ++ s) = .ok r →
        l.Alike r := by
  obtain ⟨e, he, -⟩ := ofExpression_eq_ok_iff.mp hx
  have hunaries : (e.unaries ops).Spells
      (x ++ String.ofList (ops.map UnaryOp.symbol)).toList := by
    rw [String.toList_append, String.toList_ofList]
    exact he.unaries ops
  have hunary : (Expr.unary (UnaryOp.collapse ops) e).Spells
      (x.push (UnaryOp.collapse ops).symbol).toList := by
    rw [String.toList_push]
    exact .unary _ he
  have hrel := Tree.rel_ofExpression_append Expr.congruence_alike hp hunaries hunary
    (Expr.alike_unaries hops e) s
  refine exists_ok_iff_of_rel ?_
  change Option.Rel Alike ((Tree.ofExpression _).map ofTree).toOption
    ((Tree.ofExpression _).map ofTree).toOption
  rw [toOption_map, toOption_map]
  refine rel_map hrel ?_
  rintro _ _ ⟨f, f', halike, rfl, rfl⟩
  exact alike_ofTree halike

/-- In `\*ab?.+?+.#.`, the operators `+?+` come down to the `*` of `\*ab?.*.#.`, and either way
position 2 is followed by positions 2, 3 and 4. With one operator more at the end, neither text has
an automaton. -/
theorem ofExpression_unaries_plus_optional_plus :
    (∃ l r, PositionAutomaton.ofExpression "\\*ab?.+?+.#." = .ok l ∧
      PositionAutomaton.ofExpression "\\*ab?.*.#." = .ok r ∧ l.Alike r ∧
      l.follow? 2 = some (.ofList [2, 3, 4])) ∧
    (¬∃ r, PositionAutomaton.ofExpression "\\*ab?.*.#.." = .ok r) ∧
      ¬∃ l, PositionAutomaton.ofExpression "\\*ab?.+?+.#.." = .ok l := by
  have hx : PositionAutomaton.ofExpression "ab?." = .ok _ :=
    ofExpression_eq_ok_iff.mpr ⟨.binary .concat (.leaf (.operand 'a'))
      (.unary .optional (.leaf (.operand 'b'))),
      .binary .concat (.plain rfl) (.unary .optional (.plain rfl)), rfl⟩
  have hp : ∀ index, .error (.danglingEscape index) ∉ itemsOf "\\*" := by
    have hitems : itemsOf "\\*" = [.ok ⟨0, .escaped '*'⟩] := by cbv
    rw [hitems]
    simp
  have hops : [UnaryOp.plus, .optional, .plus] ≠ [] := List.cons_ne_nil _ _
  have hcollapse := ofExpression_unaries hx hops hp
  constructor
  · let e : Expr := .binary .concat (.binary .concat (.leaf (.operand '*'))
      (.unary .star (.binary .concat (.leaf (.operand 'a'))
        (.unary .optional (.leaf (.operand 'b')))))) (.leaf .endMarker)
    have hr : PositionAutomaton.ofExpression "\\*ab?.*.#." = .ok (ofTree e.toTree) :=
      ofExpression_eq_ok_iff.mpr ⟨e, .binary .concat (.binary .concat (.escaped '*')
        (.unary .star (.binary .concat (.plain rfl) (.unary .optional (.plain rfl)))))
          .endMarker, rfl⟩
    have hfollow : (ofTree e.toTree).follow? 2 = some (.ofList [2, 3, 4]) := by
      rw [follow?_ofTree (by decide) (by decide)]
      decide +kernel
    obtain ⟨haccepted, halike⟩ := hcollapse ".#."
    obtain ⟨l, hl⟩ := haccepted.mpr ⟨_, hr⟩
    exact ⟨l, _, hl, hr, halike l _ hl hr, (halike l _ hl hr).follow?_eq 2 ▸ hfollow⟩
  · have herror : ¬∃ r, PositionAutomaton.ofExpression "\\*ab?.*.#.." = .ok r := by
      have hcause : PositionAutomaton.ofExpression "\\*ab?.*.#.." =
          .error (.missingOperand 10 '.') := by cbv
      rw [hcause]
      rintro ⟨r, hr⟩
      cases hr
    exact ⟨herror, mt (hcollapse ".#..").1.mp herror⟩

end PositionAutomaton

end RegexPositions
