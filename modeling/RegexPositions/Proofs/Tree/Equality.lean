import RegexPositions.Proofs.Tree.Exchange

/-!
# Which Texts Have the Same Tree

A tree keeps all of its expression but one thing, whether an operand was escaped. So two
expressions have equal trees exactly if their tokens agree one by one (`Token.Agrees`): the nodes
tell the tokens that have made them, and from tokens that agree the same nodes are made
(`Tree.eq_of_map_unescaped_eq`). What the passes put on record tells trees apart neither better nor
worse.

* `Tree.ofExpression_beq_iff` — equality of trees, before and after the passes.
-/

namespace RegexPositions

open TokenReader

/-- Tokens **agree** if they are the same, or are one operand, escaped in the one and plain in the
other. -/
inductive Token.Agrees : Token → Token → Prop
  /-- A token agrees with itself. -/
  | refl (token : Token) : Agrees token token
  /-- An operand may be escaped in the first. -/
  | escaped_operand (c : Char) : Agrees (escaped c) (operand c)
  /-- An operand may be escaped in the second. -/
  | operand_escaped (c : Char) : Agrees (operand c) (escaped c)

/-- Tokens agree exactly if they are the same once escapes are dropped. -/
theorem Token.unescaped_eq_iff {t u : Token} : t.unescaped = u.unescaped ↔ t.Agrees u := by
  constructor
  · intro h
    cases t <;> cases u <;> cases h <;> constructor
  · rintro (_ | _ | _) <;> rfl

/-- An escaped operand agrees with that operand, and with nothing else. -/
theorem Token.agrees_escaped_iff {token : Token} {c : Char} :
    token.Agrees (.escaped c) ↔ token = .operand c ∨ token = .escaped c := by
  constructor
  · rintro (_ | _ | _)
    · exact .inr rfl
    · exact .inl rfl
  · rintro (rfl | rfl)
    · exact .operand_escaped c
    · exact .refl _

namespace Tree

variable {a b : String} {s t : Tree}

/-- The tree of an expression is that of the only expression that the stack is left with. -/
theorem ofExpression_eq_stack (expression : String) :
    Tree.ofExpression expression =
      ((Stack.addAll [] (.ofExpression expression)).bind Stack.finish).map Expr.toTree := by
  have hempty : Assembly.empty.addAll (.ofExpression expression) =
      (Stack.addAll [] (.ofExpression expression)).map Assembly.ofExprs :=
    Assembly.addAll_ofExprs [] _
  rw [Tree.ofExpression, hempty]
  cases Stack.addAll [] (.ofExpression expression) with
  | error cause => rfl
  | ok es => exact Assembly.finish_ofExprs es

/-- **Tokens decide the tree.** From tokens that agree, the same tree is made. -/
theorem eq_of_map_unescaped_eq {us vs : List PlacedToken} (ha : Tree.ofExpression a = .ok s)
    (hb : Tree.ofExpression b = .ok t) (hus : itemsOf a = us.map .ok) (hvs : itemsOf b = vs.map .ok)
    (h : us.map (·.token.unescaped) = vs.map (·.token.unescaped)) : s = t := by
  have hstack : (Stack.addAll [] (.ofExpression a)).toOption =
      (Stack.addAll [] (.ofExpression b)).toOption := by
    have hnil : ∀ es, (List.foldlM Stack.addItem es []).toOption =
        (List.foldlM Stack.addItem es []).toOption := fun es => rfl
    have hfold := Stack.toOption_foldlM h hnil []
    rw [List.append_nil, List.append_nil, ← hus, ← hvs] at hfold
    exact hfold
  have htree : (Tree.ofExpression a).toOption = (Tree.ofExpression b).toOption := by
    rw [ofExpression_eq_stack, ofExpression_eq_stack, toOption_map, toOption_map, toOption_bind,
      toOption_bind, hstack]
  rw [ha, hb] at htree
  exact Option.some.inj htree

/-- **The tree decides the tokens**, up to escaping. Trees that have been made into automata are as
good. -/
theorem map_unescaped_eq_of_ofTree_eq {us vs : List PlacedToken}
    (hus : s.nodes.toList.map (·.shape.token) = us.map (·.token.unescaped))
    (hvs : t.nodes.toList.map (·.shape.token) = vs.map (·.token.unescaped))
    (h : PositionAutomaton.ofTree s = PositionAutomaton.ofTree t) :
    us.map (·.token.unescaped) = vs.map (·.token.unescaped) := by
  have hfinished : s.run [.decorate, .recordFollow] = t.run [.decorate, .recordFollow] :=
    congrArg PositionAutomaton.tree h
  have hnodes := congrArg (fun tree => (tree.nodes.map (·.shape.token)).toList) hfinished
  simp only [map_token_run, Array.toList_map] at hnodes
  rw [← hus, ← hvs, hnodes]

/-- Tokens agree one by one if they are equal up to escaping. -/
theorem map_unescaped_eq_iff {us vs : List PlacedToken} :
    us.map (·.token.unescaped) = vs.map (·.token.unescaped) ↔
      us.length = vs.length ∧
        ∀ (k : Nat) (u v : PlacedToken),
          us[k]? = some u → vs[k]? = some v → u.token.Agrees v.token := by
  constructor
  · intro h
    refine ⟨by simpa using congrArg List.length h, fun k u v hu hv => ?_⟩
    have hk := congrArg (·[k]?) h
    simp only [List.getElem?_map, hu, hv, Option.map_some, Option.some.injEq] at hk
    exact Token.unescaped_eq_iff.mp hk
  · rintro ⟨hlength, hagree⟩
    refine List.ext_getElem (by simpa using hlength) fun k hk hk' => ?_
    rw [List.length_map] at hk hk'
    rw [List.getElem_map, List.getElem_map]
    exact Token.unescaped_eq_iff.mpr
      (hagree k _ _ (List.getElem?_eq_getElem hk) (List.getElem?_eq_getElem hk'))

/-- **Trees are equal as their tokens are.** The trees of two expressions are equal exactly if the
expressions have equally many tokens, and each token agrees with the one in its place. The automata
are equal exactly if the trees are. An escaped operand agrees with that operand, and with no end
marker and no operator, even if it is written by the same character. -/
theorem ofExpression_beq_iff (ha : Tree.ofExpression a = .ok s) (hb : Tree.ofExpression b = .ok t) :
    (∃ us vs : Array PlacedToken,
      (TokenReader.ofExpression a).tokens.1 = .ok us ∧
      (TokenReader.ofExpression b).tokens.1 = .ok vs ∧
      ((s == t) = true ↔ us.size = vs.size ∧
        ∀ (k : Nat) (u v : PlacedToken),
          us[k]? = some u → vs[k]? = some v → u.token.Agrees v.token)) ∧
    (∃ l r, PositionAutomaton.ofExpression a = .ok l ∧ PositionAutomaton.ofExpression b = .ok r ∧
      ((l == r) = true ↔ (s == t) = true)) ∧
    ∀ token c, Token.Agrees token (.escaped c) ↔ token = .operand c ∨ token = .escaped c := by
  obtain ⟨us, hus, husnodes⟩ := exists_itemsOf_of_ofExpression ha
  obtain ⟨vs, hvs, hvsnodes⟩ := exists_itemsOf_of_ofExpression hb
  have htree := eq_of_map_unescaped_eq ha hb hus hvs
  have htokens := map_unescaped_eq_of_ofTree_eq husnodes hvsnodes
  refine ⟨⟨us.toArray, vs.toArray, tokens_of_itemsOf hus, tokens_of_itemsOf hvs, ?_⟩,
    ⟨.ofTree s, .ofTree t, ?_, ?_, ?_⟩, fun token c => Token.agrees_escaped_iff⟩
  · simp only [beq_iff_eq, List.size_toArray, List.getElem?_toArray]
    exact Iff.trans ⟨fun h => htokens (congrArg _ h), htree⟩ map_unescaped_eq_iff
  · rw [PositionAutomaton.ofExpression, ha]
    rfl
  · rw [PositionAutomaton.ofExpression, hb]
    rfl
  · rw [beq_iff_eq, beq_iff_eq]
    exact ⟨fun h => htree (htokens h), congrArg _⟩

/-- The expressions `\a#.` and `a#.` have equal trees and automata, though their tokens stand at
other places. The trees of `a#.` and `a\#.` differ, since an end marker is no operand. -/
theorem ofExpression_beq_iff_escapes :
    (∃ s t l r, Tree.ofExpression "\\a#." = .ok s ∧ Tree.ofExpression "a#." = .ok t ∧
      (s == t) = true ∧ PositionAutomaton.ofExpression "\\a#." = .ok l ∧
      PositionAutomaton.ofExpression "a#." = .ok r ∧ (l == r) = true) ∧
    ∃ s t, Tree.ofExpression "a#." = .ok s ∧ Tree.ofExpression "a\\#." = .ok t ∧ s ≠ t := by
  have hescaped : Tree.ofExpression "\\a#." = .ok _ :=
    ofExpression_eq_ok_iff.mpr ⟨.binary .concat (.leaf (.operand 'a')) (.leaf .endMarker),
      .binary .concat (.escaped 'a') .endMarker, rfl⟩
  have hplain : Tree.ofExpression "a#." = .ok _ :=
    ofExpression_eq_ok_iff.mpr ⟨.binary .concat (.leaf (.operand 'a')) (.leaf .endMarker),
      .binary .concat (.plain rfl) .endMarker, rfl⟩
  have hoperand : Tree.ofExpression "a\\#." = .ok _ :=
    ofExpression_eq_ok_iff.mpr ⟨.binary .concat (.leaf (.operand 'a')) (.leaf (.operand '#')),
      .binary .concat (.plain rfl) (.escaped '#'), rfl⟩
  have hescapedItems : itemsOf "\\a#." =
      [⟨0, .escaped 'a'⟩, ⟨2, .endMarker⟩, ⟨3, .binary .concat⟩].map .ok := by cbv
  have hplainItems : itemsOf "a#." =
      [⟨0, .operand 'a'⟩, ⟨1, .endMarker⟩, ⟨2, .binary .concat⟩].map .ok := by cbv
  have hoperandItems : itemsOf "a\\#." =
      [⟨0, .operand 'a'⟩, ⟨1, .escaped '#'⟩, ⟨3, .binary .concat⟩].map .ok := by cbv
  constructor
  · obtain ⟨⟨us, vs, hus, hvs, hiff⟩, ⟨l, r, hl, hr, hautomata⟩, -⟩ :=
      ofExpression_beq_iff hescaped hplain
    obtain rfl := Except.ok.inj ((tokens_of_itemsOf hescapedItems).symm.trans hus)
    obtain rfl := Except.ok.inj ((tokens_of_itemsOf hplainItems).symm.trans hvs)
    have hequal := hiff.mpr ⟨rfl, fun k u v hu hv => by
      rcases k with _ | _ | _ | k
      · cases hu
        cases hv
        exact .escaped_operand 'a'
      · cases hu
        cases hv
        exact .refl _
      · cases hu
        cases hv
        exact .refl _
      · simp at hu⟩
    exact ⟨_, _, l, r, hescaped, hplain, hequal, hl, hr, hautomata.mpr hequal⟩
  · obtain ⟨⟨us, vs, hus, hvs, hiff⟩, -, hagrees⟩ := ofExpression_beq_iff hplain hoperand
    obtain rfl := Except.ok.inj ((tokens_of_itemsOf hplainItems).symm.trans hus)
    obtain rfl := Except.ok.inj ((tokens_of_itemsOf hoperandItems).symm.trans hvs)
    refine ⟨_, _, hplain, hoperand, fun hequal => ?_⟩
    have hmarker := (hiff.mp (beq_iff_eq.mpr hequal)).2 1 _ _ rfl rfl
    rcases (hagrees _ _).mp hmarker with h | h <;> cases h

end Tree

end RegexPositions
