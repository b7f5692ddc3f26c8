import RegexPositions.Proofs.Tree.Stack
import RegexPositions.Proofs.Tree.Tokens

/-!
# Exchanging Texts of Different Length

Where a text is replaced by a longer or a shorter one, the tokens behind it stand at other places.
The place of a token is told by its fault and makes no other difference. Nor does it make one
whether an operand is escaped. So as far as success goes, nothing depends on either
(`Stack.toOption_foldlM`, `Stack.toOption_addAll`).

* `Tree.rel_ofExpression_append` — related expressions may stand for each other between any two
  texts, however long they are written: both texts have a tree or neither has, and the trees are
  those of related expressions.
-/

namespace RegexPositions

open TokenReader

variable {α β : Type}

/-- Forgetting causes goes past one step after another. -/
theorem toOption_bind (x : Except Malformed α) (f : α → Except Malformed β) :
    (x.bind f).toOption = x.toOption.bind fun a => (f a).toOption := by
  cases x <;> rfl

/-- Forgetting causes goes past a function of the result. -/
theorem toOption_map (x : Except Malformed α) (f : α → β) :
    (x.map f).toOption = x.toOption.map f := by
  cases x <;> rfl

/-- Outcomes that agree are both failures or both successes. -/
theorem Agree.rel_toOption {R : α → α → Prop} {x y : Except Malformed α} (h : Agree R x y) :
    Option.Rel R x.toOption y.toOption := by
  cases h with
  | error cause => exact .none
  | ok h => exact .some h

/-- Related results stay related under functions that keep them so. -/
theorem rel_map {γ δ : Type} {R : α → β → Prop} {S : γ → δ → Prop} {f : α → γ} {g : β → δ}
    {x : Option α} {y : Option β} (h : Option.Rel R x y) (hfg : ∀ a b, R a b → S (f a) (g b)) :
    Option.Rel S (x.map f) (y.map g) := by
  cases h with
  | none => exact .none
  | some h => exact .some (hfg _ _ h)

/-- Outcomes that are related but for the causes of failure both succeed or both fail, and in the
first case the results are related. -/
theorem exists_ok_iff_of_rel {R : α → β → Prop} {x : Except Malformed α} {y : Except Malformed β}
    (h : Option.Rel R x.toOption y.toOption) :
    ((∃ a, x = .ok a) ↔ ∃ b, y = .ok b) ∧ ∀ a b, x = .ok a → y = .ok b → R a b := by
  cases x with
  | error cause =>
      cases y with
      | error other => exact ⟨iff_of_false nofun nofun, nofun⟩
      | ok b => cases h
  | ok a =>
      cases y with
      | error cause => cases h
      | ok b =>
          refine ⟨iff_of_true ⟨a, rfl⟩ ⟨b, rfl⟩, ?_⟩
          rintro _ _ ⟨⟩ ⟨⟩
          exact Option.rel_some_some.mp h

namespace Stack

/-- The place of a token is told by its fault alone, and whether an operand is escaped makes no
difference. -/
theorem toOption_add {placed other : PlacedToken}
    (h : placed.token.unescaped = other.token.unescaped) (es : Stack) :
    (add es placed).toOption = (add es other).toOption := by
  have hunescaped : ∀ placed : PlacedToken,
      (add es placed).toOption = (add es ⟨0, placed.token.unescaped⟩).toOption := by
    rintro ⟨index, token⟩
    cases token with
    | operand c => rfl
    | escaped c => rfl
    | endMarker => rfl
    | unary op =>
        match es with
        | [] => rfl
        | e :: es => rfl
    | binary op =>
        match es with
        | [] => rfl
        | [e] => rfl
        | r :: l :: es => rfl
    | grouping c => rfl
  rw [hunescaped placed, hunescaped other, h]

/-- So it is with many tokens, if it is with what comes after them. -/
theorem toOption_foldlM {placed others : List PlacedToken} {rest rest' : List Item}
    (h : placed.map (·.token.unescaped) = others.map (·.token.unescaped))
    (hrest : ∀ es, (rest.foldlM addItem es).toOption = (rest'.foldlM addItem es).toOption)
    (es : Stack) :
    ((placed.map Except.ok ++ rest).foldlM addItem es).toOption =
      ((others.map Except.ok ++ rest').foldlM addItem es).toOption := by
  induction placed generalizing others es with
  | nil =>
      obtain rfl := List.map_eq_nil_iff.mp h.symm
      exact hrest es
  | cons p placed ih =>
      obtain ⟨q, others, rfl, hq, hothers⟩ := List.map_eq_cons_iff.mp h.symm
      change ((add es p).bind _).toOption = ((add es q).bind _).toOption
      rw [toOption_bind, toOption_bind, toOption_add hq.symm]
      exact congrArg _ (funext fun es => ih hothers.symm es)

/-- Tokens may be placed anywhere. -/
theorem map_unescaped_placeFrom (tokens : List Token) (i : Nat) :
    (placeFrom i tokens).map (·.token.unescaped) = tokens.map Token.unescaped := by
  have hmap := congrArg (List.map Token.unescaped) (map_token_placeFrom i tokens)
  rwa [List.map_map] at hmap

/-- Where a text stands makes no difference to whether its items can be added, and what they
leave. -/
theorem toOption_addAll (es : Stack) (i j : Nat) (text : List Char) :
    (addAll es ⟨i, text⟩).toOption = (addAll es ⟨j, text⟩).toOption := by
  obtain ⟨tokens, hreadable, htext⟩ := exists_readable_spelling text
  have hread := toList_readAll_flatMap_spell hreadable
  have hplace := (map_unescaped_placeFrom tokens i).trans (map_unescaped_placeFrom tokens j).symm
  rw [addAll, addAll]
  rcases htext with rfl | rfl
  · have hend : ∀ index, (TokenReader.mk index []).readAll.1.toList = [] := fun index =>
      toList_readAll_of_next_none (next_nil index)
    have hi := hread i []
    have hj := hread j []
    rw [List.append_nil, hend] at hi hj
    rw [hi, hj]
    exact toOption_foldlM hplace (fun es => rfl) es
  · -- The escape character at the end escapes nothing, and both fail for it at the latest.
    have hend : ∀ index, (TokenReader.mk index [escape]).readAll.1.toList =
        [.error (.danglingEscape index)] := fun index => by
      rw [toList_readAll_of_next_some (next_escape index),
        toList_readAll_of_next_none (next_nil _)]
    rw [hread i [escape], hread j [escape], hend, hend]
    refine toOption_foldlM hplace (fun es => ?_) es
    rfl

end Stack

/-- **Related expressions may stand for each other.** If two texts write related expressions, the
one may be replaced by the other between any two texts: this neither makes nor mends a fault, and
the trees are those of related expressions. -/
theorem Tree.rel_ofExpression_append {R : Expr → Expr → Prop} {p w w' : String} {e e' : Expr}
    (hR : Expr.Congruence R) (hp : ∀ index, .error (.danglingEscape index) ∉ itemsOf p)
    (hw : e.Spells w.toList) (hw' : e'.Spells w'.toList) (h : R e e') (s : String) :
    Option.Rel (fun t t' => ∃ f f', R f f' ∧ t = f.toTree ∧ t' = f'.toTree)
      (Tree.ofExpression (p ++ w ++ s)).toOption (Tree.ofExpression (p ++ w' ++ s)).toOption := by
  have hagree := Stack.agree_between hR h (Stack.addAll [] (.ofExpression p))
    ⟨p.toList.length + w.toList.length, s.toList⟩
  have hmove : ∀ es, (Stack.addAll (e' :: es)
      ⟨p.toList.length + w'.toList.length, s.toList⟩).toOption =
        (Stack.addAll (e' :: es) ⟨p.toList.length + w.toList.length, s.toList⟩).toOption :=
    fun es => Stack.toOption_addAll _ _ _ _
  have hrel := hagree.rel_toOption
  simp only [toOption_bind] at hrel
  simp only [ofExpression_append hp hw, ofExpression_append hp hw', toOption_map, toOption_bind,
    hmove]
  exact rel_map hrel fun f f' hf => ⟨f, f', hf, rfl, rfl⟩

end RegexPositions
