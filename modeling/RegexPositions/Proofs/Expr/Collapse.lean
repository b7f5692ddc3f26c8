import RegexPositions.Proofs.Expr.Alike

/-!
# Several Operators on One Operand

Operators with one operand say two things about it: it may be repeated, it may be left out. What
several of them say, one on top of the other, is what one of them says (`UnaryOp.collapse`), in
whatever order they come and however often.

* `Expr.attributesFrom_unaries`, `Expr.linked_unaries` — what the operators contribute. Each of
  those that repeat contributes the same link, and it makes no difference how many they are;
* `Expr.alike_unaries` — hence an expression under several operators is alike to the expression
  under the one that they come down to.
-/

namespace RegexPositions

namespace UnaryOp

/-- What several operators on one operand come down to: `*` if one of them repeats and one of them
vanishes, `+` if there are only `+`, and `?` if there are only `?`. -/
def collapse (ops : List UnaryOp) : UnaryOp :=
  if ops.any repeats && ops.any vanishes then star
  else if ops.all (· = plus) then plus
  else optional

variable {ops : List UnaryOp}

/-- An operator that does not vanish is `+`. -/
theorem vanishes_eq_false_iff {op : UnaryOp} : op.vanishes = false ↔ op = plus := by
  cases op <;> decide

/-- An operator that does not repeat is `?`. -/
theorem repeats_eq_false_iff {op : UnaryOp} : op.repeats = false ↔ op = optional := by
  cases op <;> decide

/-- There is no fourth case. -/
theorem collapse_cases (ops : List UnaryOp) :
    (ops.any repeats = true ∧ ops.any vanishes = true ∧ collapse ops = star) ∨
    ((∀ op ∈ ops, op = plus) ∧ collapse ops = plus) ∨
    ((∀ op ∈ ops, op = optional) ∧ collapse ops = optional) := by
  by_cases hplus : ∀ op ∈ ops, op = plus
  · have hvanishes : ops.any vanishes = false := by
      simpa only [List.any_eq_false, Bool.not_eq_true, vanishes_eq_false_iff] using hplus
    have hall : ops.all (· = plus) = true := by simpa using hplus
    exact .inr (.inl ⟨hplus, by simp [collapse, hvanishes, hall]⟩)
  have hvanishes : ops.any vanishes = true := by
    rw [← Bool.not_eq_false, List.any_eq_false]
    simpa only [Bool.not_eq_true, vanishes_eq_false_iff] using hplus
  by_cases hoptional : ∀ op ∈ ops, op = optional
  · have hrepeats : ops.any repeats = false := by
      simpa only [List.any_eq_false, Bool.not_eq_true, repeats_eq_false_iff] using hoptional
    have hall : ops.all (· = plus) = false := by simpa using hplus
    exact .inr (.inr ⟨hoptional, by simp [collapse, hrepeats, hall]⟩)
  · have hrepeats : ops.any repeats = true := by
      rw [← Bool.not_eq_false, List.any_eq_false]
      simpa only [Bool.not_eq_true, repeats_eq_false_iff] using hoptional
    exact .inl ⟨hrepeats, hvanishes, by simp [collapse, hrepeats, hvanishes]⟩

/-- What several operators come down to repeats if one of them does. -/
theorem repeats_collapse (h : ops ≠ []) : (collapse ops).repeats = ops.any repeats := by
  obtain ⟨op, hop⟩ := List.exists_mem_of_ne_nil ops h
  rcases collapse_cases ops with ⟨hrepeats, -, heq⟩ | ⟨hall, heq⟩ | ⟨hall, heq⟩
  · rw [heq, hrepeats]
    rfl
  · rw [heq]
    exact (List.any_eq_true.mpr ⟨op, hop, by rw [hall op hop]; rfl⟩).symm
  · rw [heq]
    exact (List.any_eq_false.mpr fun other hother => by rw [hall other hother]; decide).symm

/-- What several operators come down to vanishes if one of them does. -/
theorem vanishes_collapse (h : ops ≠ []) : (collapse ops).vanishes = ops.any vanishes := by
  obtain ⟨op, hop⟩ := List.exists_mem_of_ne_nil ops h
  rcases collapse_cases ops with ⟨-, hvanishes, heq⟩ | ⟨hall, heq⟩ | ⟨hall, heq⟩
  · rw [heq, hvanishes]
    rfl
  · rw [heq]
    exact (List.any_eq_false.mpr fun other hother => by rw [hall other hother]; decide).symm
  · rw [heq]
    exact (List.any_eq_true.mpr ⟨op, hop, by rw [hall op hop]; rfl⟩).symm

end UnaryOp

namespace Expr

variable {e : Expr} {ops : List UnaryOp} {start p q : Nat}

/-- The expression under several operators, the first of them next to it. -/
def unaries (e : Expr) : List UnaryOp → Expr
  | [] => e
  | op :: ops => (unary op e).unaries ops

/-- The operators are written behind the expression, in their order. -/
theorem Spells.unaries {s : List Char} (h : e.Spells s) (ops : List UnaryOp) :
    (e.unaries ops).Spells (s ++ ops.map UnaryOp.symbol) := by
  induction ops generalizing e s with
  | nil => rwa [List.map_nil, List.append_nil]
  | cons op ops ih =>
      rw [List.map_cons, List.append_cons]
      exact ih (.unary op h)

/-- Unary operators add no letters. -/
theorem letters_unaries (e : Expr) (ops : List UnaryOp) : (e.unaries ops).letters = e.letters := by
  induction ops generalizing e with
  | nil => rfl
  | cons op ops ih => exact ih (unary op e)

/-- Operators leave the ends of a word as they are. The empty word is matched if one of them says
so. -/
theorem attributesFrom_unaries (e : Expr) (ops : List UnaryOp) (start : Nat) :
    (e.unaries ops).attributesFrom start =
      { e.attributesFrom start with
        nullable := ops.any UnaryOp.vanishes || (e.attributesFrom start).nullable } := by
  induction ops generalizing e with
  | nil => rfl
  | cons op ops ih =>
      rw [unaries, ih, attributesFrom, Attributes.unary, List.any_cons, Bool.or_left_comm,
        Bool.or_assoc]

/-- Operators link what begins a word to what ends one if one of them repeats, and nothing else. -/
theorem linked_unaries :
    (e.unaries ops).Linked start p q ↔
      e.Linked start p q ∨ ops.any UnaryOp.repeats = true ∧
        p ∈ (e.attributesFrom start).first ∧ q ∈ (e.attributesFrom start).last := by
  induction ops generalizing e with
  | nil => simp [unaries]
  | cons op ops ih =>
      rw [unaries, ih, linked_unary, attributesFrom, List.any_cons, Bool.or_eq_true, or_and_right,
        or_assoc]
      rfl

/-- **Several operators collapse to one.** -/
theorem alike_unaries (h : ops ≠ []) (e : Expr) :
    (e.unaries ops).Alike (unary (UnaryOp.collapse ops) e) where
  letters_eq := letters_unaries e ops
  attributes_eq start := by
    rw [attributesFrom_unaries, attributesFrom, Attributes.unary, UnaryOp.vanishes_collapse h]
  linked_iff start p q := by
    rw [linked_unaries, linked_unary, UnaryOp.repeats_collapse h]

end Expr

end RegexPositions
