import RegexPositions.Proofs.Expr.Neighbours

/-!
# Expressions That Do Alike

All that an expression contributes to one around it are its letters, its attributes and its links.
Expressions that agree in these, whatever the position of their first leaf, are **alike**
(`Expr.Alike`), and one may stand for the other as an operand of any operator: being alike is a
congruence (`Expr.congruence_alike`).

* `Expr.alike_assoc` — both operators with two operands are associative up to being alike. Where the
  middle operand of two concatenations matches the empty word, what ends the first operand is linked
  to what begins the last one in either case, but not by the same operator.
-/

namespace RegexPositions

/-! ### Associative rules -/

namespace Attributes

/-- Two operands one after the other match the empty word if both of them do. -/
theorem nullable_concat (a b : Attributes) : (concat a b).nullable = (a.nullable && b.nullable) :=
  rfl

/-- The attributes of a concatenation of three do not depend on how they are grouped. -/
theorem concat_assoc (a b c : Attributes) : concat (concat a b) c = concat a (concat b c) := by
  refine ext (Bool.and_assoc _ _ _) (fun p => ?_) fun p => ?_
  · simp only [mem_first_concat, nullable_concat, Bool.and_eq_true, and_or_left, or_assoc,
      and_assoc]
  · simp only [mem_last_concat, nullable_concat, Bool.and_eq_true, and_or_left, or_assoc,
      and_assoc, and_left_comm]

/-- The attributes of a union of three do not depend on how they are grouped. -/
theorem union_assoc (a b c : Attributes) : union (union a b) c = union a (union b c) := by
  refine ext (Bool.or_assoc _ _ _) (fun p => ?_) fun p => ?_
  · simp only [union, PositionSet.mem_union, or_assoc]
  · simp only [union, PositionSet.mem_union, or_assoc]

/-- The same holds of either binary operator. -/
theorem binary_assoc (op : BinaryOp) (a b c : Attributes) :
    binary op (binary op a b) c = binary op a (binary op b c) := by
  cases op with
  | concat => exact concat_assoc a b c
  | union => exact union_assoc a b c

end Attributes

namespace Expr

/-! ### Congruences -/

/-- A relation between expressions is a **congruence** if every letter is related to itself and
related operands make related expressions. -/
structure Congruence (R : Expr → Expr → Prop) : Prop where
  /-- A letter is related to itself. -/
  leaf : ∀ letter, R (leaf letter) (leaf letter)
  /-- Related operands may stand for each other. -/
  unary : ∀ op {e e'}, R e e' → R (unary op e) (unary op e')
  /-- So may pairs of related operands. -/
  binary : ∀ op {l l' r r'}, R l l' → R r r' → R (binary op l r) (binary op l' r')

variable {R S : Expr → Expr → Prop}

/-- Every expression is related to itself. -/
theorem Congruence.refl (h : Congruence R) (e : Expr) : R e e := by
  induction e with
  | leaf letter => exact h.leaf letter
  | unary op e ih => exact h.unary op ih
  | binary op l r ihl ihr => exact h.binary op ihl ihr

/-- Two congruences at once are a congruence. -/
theorem Congruence.and (hR : Congruence R) (hS : Congruence S) :
    Congruence fun e e' => R e e' ∧ S e e' where
  leaf letter := ⟨hR.leaf letter, hS.leaf letter⟩
  unary op _ _ h := ⟨hR.unary op h.1, hS.unary op h.2⟩
  binary op _ _ _ _ hl hr := ⟨hR.binary op hl.1 hr.1, hS.binary op hl.2 hr.2⟩

/-- Having as many nodes is a congruence. -/
theorem congruence_nodeCount : Congruence fun e e' => e.nodeCount = e'.nodeCount where
  leaf _ := rfl
  unary _ _ _ h := congrArg (· + 1) h
  binary _ _ _ _ _ hl hr := congrArg₂ (· + · + 1) hl hr

/-! ### Alike expressions -/

/-- **Alike** expressions have the same letters, the same attributes and the same links. -/
structure Alike (e e' : Expr) : Prop where
  /-- The letters are the same. -/
  letters_eq : e.letters = e'.letters
  /-- The attributes are the same. -/
  attributes_eq : ∀ start, e.attributesFrom start = e'.attributesFrom start
  /-- The same positions are linked. -/
  linked_iff : ∀ start p q, e.Linked start p q ↔ e'.Linked start p q

variable {e e' l l' r r' : Expr}

/-- Alike expressions have as many leaves. -/
theorem Alike.leafCount_eq (h : e.Alike e') : e.leafCount = e'.leafCount := by
  rw [← length_letters, h.letters_eq, length_letters]

/-- Alike operands make alike expressions under a unary operator. -/
theorem Alike.unary (op : UnaryOp) (h : e.Alike e') : (unary op e).Alike (unary op e') where
  letters_eq := h.letters_eq
  attributes_eq start := congrArg (Attributes.unary op) (h.attributes_eq start)
  linked_iff start p q := by
    rw [linked_unary, linked_unary, h.linked_iff, h.attributes_eq]

/-- Alike operands make alike expressions under a binary operator. -/
theorem Alike.binary (op : BinaryOp) (hl : l.Alike l') (hr : r.Alike r') :
    (binary op l r).Alike (binary op l' r') where
  letters_eq := congrArg₂ (· ++ ·) hl.letters_eq hr.letters_eq
  attributes_eq start := by
    rw [attributesFrom, attributesFrom, hl.attributes_eq, hl.leafCount_eq, hr.attributes_eq]
  linked_iff start p q := by
    cases op with
    | concat =>
        rw [linked_concat, linked_concat, hl.linked_iff, hl.leafCount_eq, hr.linked_iff,
          hl.attributes_eq, hr.attributes_eq]
    | union =>
        rw [linked_union, linked_union, hl.linked_iff, hl.leafCount_eq, hr.linked_iff]

/-- Alike operands may stand for each other. -/
theorem congruence_alike : Congruence Alike where
  leaf _ := ⟨rfl, fun _ => rfl, fun _ _ _ => Iff.rfl⟩
  unary op _ _ := Alike.unary op
  binary op _ _ _ _ := Alike.binary op

/-- **Both operators with two operands are associative.** -/
theorem alike_assoc (op : BinaryOp) (x y z : Expr) :
    (binary op (binary op x y) z).Alike (binary op x (binary op y z)) where
  letters_eq := List.append_assoc x.letters y.letters z.letters
  attributes_eq start := by
    simp only [attributesFrom, leafCount, ← Nat.add_assoc]
    exact Attributes.binary_assoc op _ _ _
  linked_iff start p q := by
    cases op with
    | concat =>
        -- On both sides, `p` and `q` are linked in one operand, or by what ends one operand and
        -- begins the next, or by what ends `x` and begins `z` where `y` matches the empty word.
        simp only [linked_concat, attributesFrom, leafCount, ← Nat.add_assoc, Attributes.binary,
          Attributes.mem_first_concat, Attributes.mem_last_concat]
        tauto
    | union => simp only [linked_union, leafCount, ← Nat.add_assoc, or_assoc]

end Expr

end RegexPositions
