import Mathlib.Data.List.Forall2
import RegexPositions.Expr.Layout
import RegexPositions.Proofs.Expr.Alike
import RegexPositions.Proofs.Token.Spelling
import RegexPositions.Proofs.Tree.Malformed

/-!
# Assembling as a Stack Machine

An assembly is the layout of a stack of expressions (`Assembly.ofExprs`), and an item changes it as
it changes the stack (`Assembly.addItem_ofExprs`). There are no ids and no positions in a stack, so
an expression on it can be replaced by another one.

Whether an item is at fault depends on the number of expressions on the stack, so it is the same for
stacks that are related expression by expression (`Stack.agree_addItem`).

* `Tree.ofExpression_append` — the tree of a text with an expression written in the midst of it;
* `Tree.agree_ofExpression_append` — what becomes of it when another expression is written there.
-/

namespace RegexPositions

open TokenReader

/-! ### The machine -/

/-- A **stack** of expressions that no operator has taken, the latest one on top. -/
abbrev Stack := List Expr

namespace Stack

/-- The stack after one more token. -/
def add (es : Stack) (placed : PlacedToken) : Except Malformed Stack :=
  match placed.token, es with
  | .operand c, es | .escaped c, es => .ok (.leaf (.operand c) :: es)
  | .endMarker, es => .ok (.leaf .endMarker :: es)
  | .unary op, e :: es => .ok (.unary op e :: es)
  | .binary op, r :: l :: es => .ok (.binary op l r :: es)
  | .unary op, _ => .error (.missingOperand placed.index op.symbol)
  | .binary op, _ => .error (.missingOperand placed.index op.symbol)
  | .grouping c, _ => .error (.unresolvedMetacharacter placed.index c)

/-- The stack after one more item, which may itself be a fault. -/
def addItem (es : Stack) (item : Item) : Except Malformed Stack :=
  item.bind (add es)

/-- The stack after all items that a reader has ahead. -/
def addAll (es : Stack) (reader : TokenReader) : Except Malformed Stack :=
  reader.readAll.1.toList.foldlM addItem es

/-- The only expression on the stack. -/
def finish : Stack → Except Malformed Expr
  | [] => .error .emptyExpression
  | [e] => .ok e
  | es => .error (.unconsumedOperands es.length)

end Stack

namespace Assembly

/-- An assembly of expressions takes a token as the stack of the expressions does. -/
theorem add_ofExprs (es : Stack) (placed : PlacedToken) :
    (ofExprs es).add placed = (Stack.add es placed).map ofExprs := by
  obtain ⟨index, token⟩ := placed
  cases token with
  | operand c => exact congrArg Except.ok (addLeaf_eq _ _)
  | escaped c => exact congrArg Except.ok (addLeaf_eq _ _)
  | endMarker => exact congrArg Except.ok (addLeaf_eq _ _)
  | unary op =>
      match es with
      | [] => rfl
      | e :: es => exact add_unary (ofExprs es) e op index
  | binary op =>
      match es with
      | [] => rfl
      | [e] => rfl
      | r :: l :: es => exact add_binary (ofExprs es) l r op index
  | grouping c => rfl

/-- An item changes an assembly as it changes the stack. -/
theorem addItem_ofExprs (es : Stack) (item : Item) :
    (ofExprs es).addItem item = (Stack.addItem es item).map ofExprs := by
  cases item with
  | error cause => rfl
  | ok placed => exact add_ofExprs es placed

/-- So do all items together. -/
theorem addAll_ofExprs (es : Stack) (reader : TokenReader) :
    (ofExprs es).addAll reader = (Stack.addAll es reader).map ofExprs := by
  rw [addAll, ← Array.foldlM_toList, Stack.addAll]
  induction reader.readAll.1.toList generalizing es with
  | nil => rfl
  | cons item items ih =>
      rw [List.foldlM_cons, List.foldlM_cons, addItem_ofExprs]
      cases Stack.addItem es item with
      | error cause => rfl
      | ok es => exact ih es

/-- An assembly of expressions finishes as the stack does, with the tree of the expression left. -/
theorem finish_ofExprs (es : Stack) : (ofExprs es).finish = (Stack.finish es).map Expr.toTree := by
  match es with
  | [] => rfl
  | [e] => exact finish_ofExprs_eq_ok_iff.mpr ⟨e, rfl, rfl⟩
  | e :: e' :: es =>
      refine finish_eq_unconsumedOperands_iff.mpr ⟨?_, length_pending_ofExprs _⟩
      rw [List.length_cons, List.length_cons]
      omega

end Assembly

/-! ### Related stacks -/

/-- Two outcomes **agree** up to a relation if both are failures, for the same cause, or neither is
and the results are related. -/
inductive Agree {α : Type} (R : α → α → Prop) : Except Malformed α → Except Malformed α → Prop
  /-- Both fail for the same cause. -/
  | error (cause : Malformed) : Agree R (.error cause) (.error cause)
  /-- Both succeed with related results. -/
  | ok {a b : α} (h : R a b) : Agree R (.ok a) (.ok b)

namespace Agree

variable {α β : Type} {R : α → α → Prop} {S : β → β → Prop} {x y : Except Malformed α}

/-- What agrees with a failure is the same failure. -/
theorem eq_error {cause : Malformed} (h : Agree R (.error cause) y) : y = .error cause := by
  cases h
  rfl

/-- What agrees with a success is a success with a related result. -/
theorem exists_eq_ok {a : α} (h : Agree R (.ok a) y) : ∃ b, y = .ok b ∧ R a b := by
  cases h with
  | ok h => exact ⟨_, rfl, h⟩

/-- Outcomes that agree, followed by steps that agree, agree. -/
theorem bind {f : α → Except Malformed β} (h : Agree R x y)
    (hf : ∀ a b, R a b → Agree S (f a) (f b)) : Agree S (x.bind f) (y.bind f) := by
  cases h with
  | error cause => exact .error cause
  | ok h => exact hf _ _ h

/-- Outcomes that agree still do under functions that keep results related. -/
theorem map {f : α → β} (h : Agree R x y) (hf : ∀ a b, R a b → S (f a) (f b)) :
    Agree S (x.map f) (y.map f) := by
  cases h with
  | error cause => exact .error cause
  | ok h => exact .ok (hf _ _ h)

end Agree

namespace Stack

variable {R : Expr → Expr → Prop} {es es' : Stack}

/-- **One item.** An item changes related stacks into related ones, or is at fault with both. -/
theorem agree_addItem (hR : Expr.Congruence R) (h : List.Forall₂ R es es') (item : Item) :
    Agree (List.Forall₂ R) (addItem es item) (addItem es' item) := by
  cases item with
  | error cause => exact .error cause
  | ok placed =>
      obtain ⟨index, token⟩ := placed
      cases token with
      | operand c => exact .ok (.cons (hR.leaf _) h)
      | escaped c => exact .ok (.cons (hR.leaf _) h)
      | endMarker => exact .ok (.cons (hR.leaf _) h)
      | unary op =>
          cases h with
          | nil => exact .error _
          | cons he h => exact .ok (.cons (hR.unary op he) h)
      | binary op =>
          cases h with
          | nil => exact .error _
          | cons hr h =>
              cases h with
              | nil => exact .error _
              | cons hl h => exact .ok (.cons (hR.binary op hl hr) h)
      | grouping c => exact .error _

/-- **All items.** -/
theorem agree_addAll (hR : Expr.Congruence R) (h : List.Forall₂ R es es') (reader : TokenReader) :
    Agree (List.Forall₂ R) (addAll es reader) (addAll es' reader) := by
  rw [addAll, addAll]
  induction reader.readAll.1.toList generalizing es es' with
  | nil => exact .ok h
  | cons item items ih => exact (agree_addItem hR h item).bind fun _ _ => ih

/-- Related stacks finish alike. -/
theorem agree_finish (h : List.Forall₂ R es es') : Agree R (finish es) (finish es') := by
  cases h with
  | nil => exact .error _
  | cons he h =>
      cases h with
      | nil => exact .ok he
      | cons he' h =>
          have hlength := (List.Forall₂.cons he (.cons he' h)).length_eq
          change Agree R (.error (.unconsumedOperands _)) (.error (.unconsumedOperands _))
          rw [hlength]
          exact .error _

/-- **One expression in place of another.** Related expressions that come on top of one stack leave
related expressions at the end. -/
theorem agree_between {e e' : Expr} (hR : Expr.Congruence R) (h : R e e')
    (before : Except Malformed Stack) (reader : TokenReader) :
    Agree R (before.bind fun es => (addAll (e :: es) reader).bind finish)
      (before.bind fun es => (addAll (e' :: es) reader).bind finish) := by
  cases before with
  | error cause => exact .error cause
  | ok es =>
      have hes : List.Forall₂ R es es := List.forall₂_same.mpr fun e _ => hR.refl e
      exact (agree_addAll hR (.cons h hes) reader).bind fun _ _ => agree_finish

end Stack

/-! ### A text between two others -/

/-- The items of a text that leaves no escape character open are read whatever comes after it. -/
theorem TokenReader.toList_readAll_append {s : String}
    (h : ∀ index, .error (.danglingEscape index) ∉ itemsOf s) (rest : List Char) :
    (TokenReader.mk 0 (s.toList ++ rest)).readAll.1.toList =
      itemsOf s ++ (TokenReader.mk s.toList.length rest).readAll.1.toList := by
  obtain ⟨tokens, hreadable, ⟨hs, hitems⟩ | ⟨-, hitems⟩⟩ := exists_itemsOf_eq s
  · rw [hs, toList_readAll_flatMap_spell hreadable, hitems, Nat.zero_add]
  · refine absurd ?_ (h (tokens.flatMap Token.spell).length)
    rw [hitems]
    exact List.mem_append_right _ List.mem_cons_self

namespace Tree

variable {p w w' : String} {e e' : Expr}

/-- An expression that is written between two texts comes on top of the stack that the first text
leaves, before the items of the second text are added. -/
theorem ofExpression_append (hp : ∀ index, .error (.danglingEscape index) ∉ itemsOf p)
    (hw : e.Spells w.toList) (s : String) :
    Tree.ofExpression (p ++ w ++ s) = ((Stack.addAll [] (.ofExpression p)).bind fun es =>
      (Stack.addAll (e :: es) ⟨p.toList.length + w.toList.length, s.toList⟩).bind
        Stack.finish).map Expr.toTree := by
  have hread : Assembly.empty.addAll (.ofExpression (p ++ w ++ s)) =
      (Assembly.empty.addAll (.ofExpression p)).bind
        (·.addAll ⟨p.toList.length, w.toList ++ s.toList⟩) := by
    simp only [Assembly.addAll, ← Array.foldlM_toList]
    rw [TokenReader.ofExpression, String.toList_append, String.toList_append, List.append_assoc,
      toList_readAll_append hp, List.foldlM_append]
    rfl
  have hempty : Assembly.empty.addAll (.ofExpression p) =
      (Stack.addAll [] (.ofExpression p)).map Assembly.ofExprs :=
    Assembly.addAll_ofExprs [] _
  rw [Tree.ofExpression, hread, hempty]
  cases Stack.addAll [] (.ofExpression p) with
  | error cause => rfl
  | ok es =>
      have hrest := Assembly.addAll_of_spells hw (Assembly.ofExprs es) p.toList.length s.toList
      rw [← Assembly.ofExprs, Assembly.addAll_ofExprs (e :: es)] at hrest
      change (Assembly.addAll _ _).bind _ = Except.map _ ((Stack.addAll (e :: es) _).bind _)
      rw [hrest]
      cases Stack.addAll (e :: es) ⟨p.toList.length + w.toList.length, s.toList⟩ with
      | error cause => rfl
      | ok es => exact Assembly.finish_ofExprs es

/-- **Related expressions may stand for each other.** If two texts of the same length write related
expressions, the one may be replaced by the other between any two texts: what is built agrees up to
the relation. -/
theorem agree_ofExpression_append {R : Expr → Expr → Prop} (hR : Expr.Congruence R)
    (hp : ∀ index, .error (.danglingEscape index) ∉ itemsOf p)
    (hw : e.Spells w.toList) (hw' : e'.Spells w'.toList)
    (hlength : w.toList.length = w'.toList.length) (h : R e e') (s : String) :
    Agree (fun t t' => ∃ f f', R f f' ∧ t = f.toTree ∧ t' = f'.toTree)
      (Tree.ofExpression (p ++ w ++ s)) (Tree.ofExpression (p ++ w' ++ s)) := by
  rw [ofExpression_append hp hw, ofExpression_append hp hw', hlength]
  exact (Stack.agree_between hR h _ _).map fun f f' hf => ⟨f, f', hf, rfl, rfl⟩

end Tree

end RegexPositions
