import RegexPositions.Expr.Language
import RegexPositions.PositionSet.Lemmas
import RegexPositions.Proofs.LocalLanguage
import RegexPositions.Tree.Attributes

/-!
# The Ends of a Word

The attributes of an expression say how its words may begin and end. `Expr.attributesFrom`
computes them by recursion on the expression, with the same rule for each operator that
`Tree.decorate` applies to a node.

They mean what they are meant to mean, for the language in which each leaf stands for its
position:

* `nullable_attributesFrom_iff` — the empty word is in the language;
* `mem_first_attributesFrom_iff` — the position begins a word (`Language.Begins`);
* `mem_last_attributesFrom_iff` — the position ends a word (`Language.Ends`).
-/

open scoped Computability

namespace RegexPositions

/-! ### Rules -/

namespace Attributes

/-- First in a concatenation is what is first on the left, or, past an empty left side, on the
right. -/
@[simp] theorem mem_first_concat {left right : Attributes} {p : Nat} :
    p ∈ (concat left right).first ↔
      p ∈ left.first ∨ left.nullable = true ∧ p ∈ right.first := by
  cases h : left.nullable <;> simp [concat, h]

/-- Last in a concatenation is what is last on the right, or, before an empty right side, on the
left. -/
@[simp] theorem mem_last_concat {left right : Attributes} {p : Nat} :
    p ∈ (concat left right).last ↔
      p ∈ right.last ∨ right.nullable = true ∧ p ∈ left.last := by
  cases h : right.nullable <;> simp [concat, h, or_comm]

/-- Attributes are equal if they have the same positions. -/
theorem ext {a b : Attributes} (hnullable : a.nullable = b.nullable)
    (hfirst : ∀ p, p ∈ a.first ↔ p ∈ b.first) (hlast : ∀ p, p ∈ a.last ↔ p ∈ b.last) : a = b := by
  cases a
  cases b
  rw [mk.injEq]
  exact ⟨hnullable, PositionSet.ext hfirst, PositionSet.ext hlast⟩

end Attributes

namespace Expr

/-! ### Attributes of an expression -/

/-- The attributes of an expression whose first leaf has position `start`. -/
def attributesFrom (start : Nat) : Expr → Attributes
  | leaf _ => .leaf start
  | unary op e => .unary op (e.attributesFrom start)
  | binary op l r => .binary op (l.attributesFrom start) (r.attributesFrom (start + l.leafCount))

/-- Every expression has a word, with every reading of its letters. -/
theorem exists_mem_denote {α : Type} (word : Nat → Letter → α) (start : Nat) (e : Expr) :
    ∃ w, w ∈ e.denote word start := by
  induction e generalizing start with
  | leaf letter => exact ⟨[word start letter], rfl⟩
  | unary op e ih =>
      obtain ⟨w, hw⟩ := ih start
      cases op with
      | star => exact ⟨[], Language.nil_mem_kstar _⟩
      | plus => exact ⟨w ++ [], Language.append_mem_mul hw (Language.nil_mem_kstar _)⟩
      | optional => exact ⟨[], .inl Language.nil_mem_one⟩
  | binary op l r ihl ihr =>
      obtain ⟨u, hu⟩ := ihl start
      obtain ⟨v, hv⟩ := ihr (start + l.leafCount)
      cases op with
      | concat => exact ⟨u ++ v, Language.append_mem_mul hu hv⟩
      | union => exact ⟨u, .inl hu⟩

/-! ### The marked language

One equation for each operator. -/

section Marked

variable (start : Nat) (e l r : Expr)

/-- A leaf matches its own position. -/
theorem marked_leaf (letter : Letter) : (leaf letter).marked start = {[start]} := rfl

/-- The operator `*` matches the operand any number of times. -/
theorem marked_star : (unary .star e).marked start = (e.marked start)∗ := rfl

/-- The operator `+` matches the operand at least once. -/
theorem marked_plus : (unary .plus e).marked start = e.marked start * (e.marked start)∗ := rfl

/-- The operator `?` matches the operand or nothing. -/
theorem marked_optional : (unary .optional e).marked start = 1 + e.marked start := rfl

/-- The operator `.` matches the operands one after the other, on positions of their own. -/
theorem marked_concat :
    (binary .concat l r).marked start = l.marked start * r.marked (start + l.leafCount) := rfl

/-- The operator `|` matches either operand, on positions of their own. -/
theorem marked_union :
    (binary .union l r).marked start = l.marked start + r.marked (start + l.leafCount) := rfl

/-- Every expression matches some word. -/
theorem exists_mem_marked : ∃ w, w ∈ e.marked start :=
  exists_mem_denote _ start e

end Marked

/-! ### What the attributes mean -/

variable {start p : Nat}

/-- **Nullable** expressions match the empty word. -/
theorem nullable_attributesFrom_iff {e : Expr} :
    (e.attributesFrom start).nullable = true ↔ [] ∈ e.marked start := by
  induction e generalizing start with
  | leaf letter => exact iff_of_false Bool.false_ne_true (List.cons_ne_nil _ _).symm
  | unary op e ih =>
      rw [attributesFrom, Attributes.unary, Bool.or_eq_true, ih]
      have hstar : [] ∈ (e.marked start)∗ := Language.nil_mem_kstar _
      cases op with
      | star => simp [UnaryOp.vanishes, marked_star, hstar]
      | plus => simp [UnaryOp.vanishes, marked_plus, Language.nil_mem_mul_iff, hstar]
      | optional => exact iff_of_true (.inl rfl) (.inl Language.nil_mem_one)
  | binary op l r ihl ihr =>
      cases op with
      | concat =>
          rw [attributesFrom, Attributes.binary, Attributes.concat, Bool.and_eq_true, ihl, ihr,
            marked_concat, Language.nil_mem_mul_iff]
      | union =>
          rw [attributesFrom, Attributes.binary, Attributes.union, Bool.or_eq_true, ihl, ihr,
            marked_union, Language.mem_add]

/-- The **first** positions are those that begin a word. -/
theorem mem_first_attributesFrom_iff {e : Expr} :
    p ∈ (e.attributesFrom start).first ↔ (e.marked start).Begins p := by
  induction e generalizing start with
  | leaf letter =>
      rw [attributesFrom, Attributes.leaf, PositionSet.mem_singleton, marked_leaf]
      constructor
      · rintro rfl
        exact ⟨[], rfl⟩
      · rintro ⟨w, hw⟩
        exact (List.cons.inj hw).1
  | unary op e ih =>
      rw [attributesFrom, Attributes.unary, ih]
      cases op with
      | star => rw [marked_star, Language.begins_kstar]
      | plus =>
          rw [marked_plus, Language.begins_mul ⟨[], Language.nil_mem_kstar _⟩,
            Language.begins_kstar]
          exact (or_iff_left_of_imp And.right).symm
      | optional =>
          rw [marked_optional, Language.begins_add]
          exact (or_iff_right Language.begins_one).symm
  | binary op l r ihl ihr =>
      cases op with
      | concat =>
          rw [attributesFrom, Attributes.binary, Attributes.mem_first_concat, ihl, ihr,
            nullable_attributesFrom_iff, marked_concat,
            Language.begins_mul (exists_mem_marked _ r)]
      | union =>
          rw [attributesFrom, Attributes.binary, Attributes.union, PositionSet.mem_union, ihl, ihr,
            marked_union, Language.begins_add]

/-- The **last** positions are those that end a word. -/
theorem mem_last_attributesFrom_iff {e : Expr} :
    p ∈ (e.attributesFrom start).last ↔ (e.marked start).Ends p := by
  induction e generalizing start with
  | leaf letter =>
      rw [attributesFrom, Attributes.leaf, PositionSet.mem_singleton, marked_leaf]
      constructor
      · rintro rfl
        exact ⟨[], rfl⟩
      · rintro ⟨w, hw⟩
        have hmem : p ∈ [start] := hw ▸ List.mem_append_right w List.mem_cons_self
        exact List.mem_singleton.mp hmem
  | unary op e ih =>
      rw [attributesFrom, Attributes.unary, ih]
      cases op with
      | star => rw [marked_star, Language.ends_kstar]
      | plus =>
          rw [marked_plus, Language.ends_mul (exists_mem_marked _ e), Language.ends_kstar]
          exact (or_iff_left_of_imp And.right).symm
      | optional =>
          rw [marked_optional, Language.ends_add]
          exact (or_iff_right Language.ends_one).symm
  | binary op l r ihl ihr =>
      cases op with
      | concat =>
          rw [attributesFrom, Attributes.binary, Attributes.mem_last_concat, ihl, ihr,
            nullable_attributesFrom_iff, marked_concat, Language.ends_mul (exists_mem_marked _ l)]
      | union =>
          rw [attributesFrom, Attributes.binary, Attributes.union, PositionSet.mem_union, ihl, ihr,
            marked_union, Language.ends_add]

/-! ### Where positions lie -/

/-- The positions of an expression are those from its first leaf on, one for each leaf. -/
theorem mem_range_of_mem_marked {e : Expr} {w : List Nat} (hw : w ∈ e.marked start)
    (hp : p ∈ w) : start ≤ p ∧ p < start + e.leafCount := by
  induction e generalizing start w with
  | leaf letter =>
      rw [marked_leaf] at hw
      obtain rfl : w = [start] := hw
      obtain rfl := List.mem_singleton.mp hp
      exact ⟨Nat.le_refl _, Nat.lt_succ_self _⟩
  | unary op e ih =>
      have hstar : ∀ {v}, v ∈ (e.marked start)∗ → p ∈ v →
          start ≤ p ∧ p < start + e.leafCount := by
        intro v hv hpv
        obtain ⟨us, rfl, hus⟩ := Language.mem_kstar.mp hv
        obtain ⟨u, hu, hpu⟩ := List.mem_flatten.mp hpv
        exact ih (hus u hu) hpu
      cases op with
      | star => exact hstar hw hp
      | plus =>
          obtain ⟨u, hu, v, hv, rfl⟩ := Language.mem_mul.mp hw
          rcases List.mem_append.mp hp with hp | hp
          · exact ih hu hp
          · exact hstar hv hp
      | optional =>
          rcases (Language.mem_add _ _ _).mp hw with hw | hw
          · rw [(Language.mem_one _).mp hw] at hp
            cases hp
          · exact ih hw hp
  | binary op l r ihl ihr =>
      rw [leafCount]
      cases op with
      | concat =>
          obtain ⟨u, hu, v, hv, rfl⟩ := Language.mem_mul.mp hw
          rcases List.mem_append.mp hp with hp | hp
          · have := ihl hu hp
            omega
          · have := ihr hv hp
            omega
      | union =>
          rcases (Language.mem_add _ _ _).mp hw with hw | hw
          · have := ihl hw hp
            omega
          · have := ihr hw hp
            omega

/-- First positions are positions of the expression. -/
theorem range_of_mem_first {e : Expr} (h : p ∈ (e.attributesFrom start).first) :
    start ≤ p ∧ p < start + e.leafCount := by
  obtain ⟨w, hw⟩ := mem_first_attributesFrom_iff.mp h
  exact mem_range_of_mem_marked hw List.mem_cons_self

/-- Last positions are positions of the expression. -/
theorem range_of_mem_last {e : Expr} (h : p ∈ (e.attributesFrom start).last) :
    start ≤ p ∧ p < start + e.leafCount := by
  obtain ⟨w, hw⟩ := mem_last_attributesFrom_iff.mp h
  exact mem_range_of_mem_marked hw (List.mem_append_right w List.mem_cons_self)

end Expr

end RegexPositions
