import RegexPositions.Proofs.Expr.Neighbours

/-!
# Moving Positions Up

An expression within another one does not begin with position 1. Everything that is computed for
it is what would be computed for it alone, with all positions moved up by the number of leaves
before it: its attributes (`Expr.attributesFrom_add`) and its links (`Expr.linksFrom_add`,
`Expr.linked_add_iff`).

`PositionSet.shift` moves the positions of a set. The words of the set are made anew, as the
positions come to lie in other words of the window.
-/

namespace RegexPositions

/-! ### Sets -/

namespace PositionSet

variable {s t : PositionSet} {n p q : Nat}

/-- The set with every position moved up by `n`. -/
def shift (n : Nat) (s : PositionSet) : PositionSet :=
  ofList (s.toList.map (· + n))

/-- The shifted set has the positions of the set, each moved up by `n`. -/
theorem mem_shift_iff : q ∈ s.shift n ↔ ∃ p ∈ s, p + n = q := by
  rw [shift, mem_ofList, List.mem_map]
  simp only [mem_toList]

/-- A position moved up is in the shifted set if it was in the set. -/
@[simp] theorem add_mem_shift_iff : p + n ∈ s.shift n ↔ p ∈ s := by
  rw [mem_shift_iff]
  constructor
  · rintro ⟨r, hr, heq⟩
    obtain rfl : r = p := by omega
    exact hr
  · exact fun hp => ⟨p, hp, rfl⟩

/-- Sets of positions from `n` on are equal if they are when moved down. -/
theorem eq_shift_iff (hs : ∀ q ∈ s, n ≤ q) : s = t.shift n ↔ ∀ p, p + n ∈ s ↔ p ∈ t := by
  constructor
  · rintro rfl p
    exact add_mem_shift_iff
  · intro h
    ext q
    rw [mem_shift_iff]
    constructor
    · intro hq
      obtain ⟨p, rfl⟩ := Nat.exists_eq_add_of_le' (hs q hq)
      exact ⟨p, (h p).mp hq, rfl⟩
    · rintro ⟨p, hp, rfl⟩
      exact (h p).mpr hp

/-- The set of one position is shifted by moving this position. -/
theorem shift_singleton (n p : Nat) : (singleton p).shift n = singleton (p + n) := by
  ext q
  simp [mem_shift_iff, eq_comm]

/-- A union is shifted by shifting both sets. -/
theorem shift_union (n : Nat) (s t : PositionSet) : (s ∪ t).shift n = s.shift n ∪ t.shift n := by
  ext q
  simp only [mem_union, mem_shift_iff, or_and_right, exists_or]

end PositionSet

/-! ### Attributes -/

namespace Attributes

/-- The attributes with every position moved up by `n`. -/
def shift (n : Nat) (a : Attributes) : Attributes :=
  ⟨a.nullable, a.first.shift n, a.last.shift n⟩

/-- The attributes of a leaf are shifted by moving its position. -/
theorem shift_leaf (n p : Nat) : (leaf p).shift n = leaf (p + n) := by
  rw [leaf, shift, PositionSet.shift_singleton, leaf]

/-- Shifting goes past a unary operator. -/
theorem shift_unary (n : Nat) (op : UnaryOp) (a : Attributes) :
    (unary op a).shift n = unary op (a.shift n) := rfl

/-- Shifting goes past a binary operator. -/
theorem shift_binary (n : Nat) (op : BinaryOp) (a b : Attributes) :
    (binary op a b).shift n = binary op (a.shift n) (b.shift n) := by
  cases op with
  | concat =>
      cases ha : a.nullable <;> cases hb : b.nullable <;>
        simp [binary, concat, shift, ha, hb, PositionSet.shift_union]
  | union => simp only [binary, union, shift, PositionSet.shift_union]

end Attributes

/-- The link with every position moved up by `n`. -/
def Link.shift (n : Nat) (link : Link) : Link :=
  ⟨link.sources.shift n, link.targets.shift n⟩

/-! ### Expressions -/

namespace Expr

variable {start p q : Nat} {e : Expr}

/-- Counting positions from further on shifts the attributes. -/
theorem attributesFrom_add (start n : Nat) (e : Expr) :
    e.attributesFrom (start + n) = (e.attributesFrom start).shift n := by
  induction e generalizing start with
  | leaf letter => exact (Attributes.shift_leaf n start).symm
  | unary op e ih => rw [attributesFrom, ih, attributesFrom, Attributes.shift_unary]
  | binary op l r ihl ihr =>
      rw [attributesFrom, ihl, Nat.add_right_comm, ihr, attributesFrom, Attributes.shift_binary]

/-- Counting positions from further on shifts the links. -/
theorem linksFrom_add (start n : Nat) (e : Expr) :
    e.linksFrom (start + n) = (e.linksFrom start).map (Link.shift n) := by
  induction e generalizing start with
  | leaf letter => rfl
  | unary op e ih =>
      rw [linksFrom, ih, attributesFrom_add, linksFrom, List.map_append]
      cases op.repeats <;> rfl
  | binary op l r ihl ihr =>
      have hr := ihr (start + l.leafCount)
      rw [Nat.add_right_comm] at hr
      cases op with
      | concat =>
          rw [linksFrom, ihl, hr, attributesFrom_add, Nat.add_right_comm, attributesFrom_add,
            linksFrom, List.map_append, List.map_append]
          rfl
      | union => rw [linksFrom, ihl, hr, linksFrom, List.map_append]

/-- Positions that are moved up are linked as before. -/
theorem linked_add_iff {n : Nat} :
    e.Linked (start + n) (p + n) (q + n) ↔ e.Linked start p q := by
  simp only [Linked, linksFrom_add, List.mem_map, exists_exists_and_eq_and, Link.shift,
    PositionSet.add_mem_shift_iff]

end Expr

end RegexPositions
