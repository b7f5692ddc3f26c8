import RegexPositions.Proofs.Expr.Neighbours

/-!
# Reading From Right to Left

No rule prefers a direction. Read from right to left (`Expr.reverse`), an expression begins with
what it ended with, and every link leads the other way (`Expr.mem_first_reverse_iff`,
`Expr.linked_reverse_iff`). A repetition needs no rule of its own: the mirror image of a link from
the first to the last positions is again one from the first to the last positions.

Positions are counted from the other end. Where the leaves of `e` have positions from `start` on and
those of `e.reverse` from `start'` on, positions `p` and `q` are of the same leaf if `p + q + 1` is
`start + start' + e.leafCount`. `PositionSet.mirror` and `Attributes.mirror` replace all positions
of a record at once.
-/

namespace RegexPositions

/-! ### Sets -/

namespace PositionSet

variable {s t : PositionSet} {c p q : Nat}

/-- The set with every position `p` replaced by `c - p`. -/
def mirror (c : Nat) (s : PositionSet) : PositionSet :=
  ofList (s.toList.map (c - ·))

/-- The mirror image of a set has the positions counted down from `c`. -/
theorem mem_mirror_iff : q ∈ s.mirror c ↔ ∃ p ∈ s, c - p = q := by
  rw [mirror, mem_ofList, List.mem_map]
  simp only [mem_toList]

/-- Sets of positions up to `c` are mirror images if opposite positions belong to them together. -/
theorem eq_mirror_of_forall (hs : ∀ p ∈ s, p ≤ c) (ht : ∀ q ∈ t, q ≤ c)
    (h : ∀ p q, p + q = c → (p ∈ s ↔ q ∈ t)) : s = t.mirror c := by
  ext p
  rw [mem_mirror_iff]
  constructor
  · intro hp
    have hle := hs p hp
    exact ⟨c - p, (h p (c - p) (by omega)).mp hp, by omega⟩
  · rintro ⟨q, hq, rfl⟩
    have hle := ht q hq
    exact (h (c - q) q (by omega)).mpr hq

end PositionSet

/-- The attributes of the mirror image: first and last positions change places, and every position
`p` is replaced by `c - p`. -/
def Attributes.mirror (c : Nat) (a : Attributes) : Attributes :=
  ⟨a.nullable, a.last.mirror c, a.first.mirror c⟩

/-! ### Expressions -/

namespace Expr

variable {start start' p p' q q' : Nat} {e : Expr}

/-- An expression read backwards has as many leaves. -/
@[simp] theorem leafCount_reverse (e : Expr) : e.reverse.leafCount = e.leafCount := by
  induction e with
  | leaf letter => rfl
  | unary op e ih => exact ih
  | binary op l r ihl ihr => rw [reverse, leafCount, ihl, ihr, leafCount, Nat.add_comm]

/-- An expression read backwards matches the empty word if the expression does. -/
theorem nullable_reverse (start start' : Nat) (e : Expr) :
    (e.reverse.attributesFrom start').nullable = (e.attributesFrom start).nullable := by
  induction e generalizing start start' with
  | leaf letter => rfl
  | unary op e ih => exact congrArg (op.vanishes || ·) (ih start start')
  | binary op l r ihl ihr =>
      have hl := ihl start (start' + r.reverse.leafCount)
      have hr := ihr (start + l.leafCount) start'
      cases op with
      | concat => exact (congrArg₂ and hr hl).trans (Bool.and_comm _ _)
      | union => exact (congrArg₂ or hr hl).trans (Bool.or_comm _ _)

/-- The reverse begins with what the expression ends with. -/
theorem mem_first_reverse_iff (h : p + q + 1 = start + start' + e.leafCount) :
    p ∈ (e.reverse.attributesFrom start').first ↔ q ∈ (e.attributesFrom start).last := by
  induction e generalizing start start' with
  | leaf letter =>
      rw [leafCount] at h
      refine PositionSet.mem_singleton.trans (Iff.trans ?_ PositionSet.mem_singleton.symm)
      omega
  | unary op e ih => exact ih h
  | binary op l r ihl ihr =>
      -- In the reverse, the leaves of `r` come before those of `l`.
      rw [leafCount] at h
      have hl := @ihl start (start' + r.reverse.leafCount) (by rw [leafCount_reverse]; omega)
      have hr := @ihr (start + l.leafCount) start' (by omega)
      have hnullable := nullable_reverse (start + l.leafCount) start' r
      cases op with
      | concat =>
          refine Attributes.mem_first_concat.trans (Iff.trans ?_ Attributes.mem_last_concat.symm)
          rw [hr, hnullable, hl]
      | union =>
          refine PositionSet.mem_union.trans (Iff.trans ?_ PositionSet.mem_union.symm)
          rw [hr, hl, or_comm]

/-- The reverse ends with what the expression begins with. -/
theorem mem_last_reverse_iff (h : p + q + 1 = start + start' + e.leafCount) :
    p ∈ (e.reverse.attributesFrom start').last ↔ q ∈ (e.attributesFrom start).first := by
  have hreverse := @mem_first_reverse_iff start' start q p e.reverse
    (by rw [leafCount_reverse]; omega)
  rw [reverse_reverse] at hreverse
  exact hreverse.symm

/-- A set of positions of the reverse is the mirror image of a set of positions of the expression if
the same leaves belong to both. -/
theorem eq_mirror_of_positions {s t : PositionSet}
    (hs : ∀ p ∈ s, e.reverse.HasPosition start' p) (ht : ∀ q ∈ t, e.HasPosition start q)
    (h : ∀ p q, p + q + 1 = start + start' + e.leafCount → (p ∈ s ↔ q ∈ t)) :
    s = t.mirror (start + start' + e.leafCount - 1) := by
  have hpos := e.leafCount_pos
  refine PositionSet.eq_mirror_of_forall (fun p hp => ?_) (fun q hq => ?_) fun p q heq => ?_
  · have := (hs p hp).2
    rw [leafCount_reverse] at this
    omega
  · have := (ht q hq).2
    omega
  · exact h p q (by omega)

/-- The attributes of the reverse are the mirror image. -/
theorem attributesFrom_reverse (start start' : Nat) (e : Expr) :
    e.reverse.attributesFrom start' =
      (e.attributesFrom start).mirror (start + start' + e.leafCount - 1) := by
  have hfirst : (e.reverse.attributesFrom start').first = _ :=
    eq_mirror_of_positions (fun _ => range_of_mem_first) (fun _ => range_of_mem_last)
      fun p q => @mem_first_reverse_iff start start' p q e
  have hlast : (e.reverse.attributesFrom start').last = _ :=
    eq_mirror_of_positions (fun _ => range_of_mem_last) (fun _ => range_of_mem_first)
      fun p q => @mem_last_reverse_iff start start' p q e
  rw [Attributes.mirror, ← nullable_reverse start start' e, ← hfirst, ← hlast]

/-- Every link of the reverse is one of the expression, read backwards. -/
theorem linked_reverse_iff (hp : p + p' + 1 = start + start' + e.leafCount)
    (hq : q + q' + 1 = start + start' + e.leafCount) :
    e.reverse.Linked start' p q ↔ e.Linked start q' p' := by
  induction e generalizing start start' with
  | leaf letter => exact iff_of_false not_linked_leaf not_linked_leaf
  | unary op e ih =>
      rw [leafCount] at hp hq
      refine linked_unary.trans (Iff.trans ?_ linked_unary.symm)
      -- The link of a repetition leads from first to last positions, and so does its mirror image.
      rw [ih hp hq, mem_first_reverse_iff hp, mem_last_reverse_iff hq, and_comm (a := p' ∈ _)]
  | binary op l r ihl ihr =>
      rw [leafCount] at hp hq
      have hpl : p + p' + 1 = start + (start' + r.reverse.leafCount) + l.leafCount := by
        rw [leafCount_reverse]
        omega
      have hql : q + q' + 1 = start + (start' + r.reverse.leafCount) + l.leafCount := by
        rw [leafCount_reverse]
        omega
      have hpr : p + p' + 1 = start + l.leafCount + start' + r.leafCount := by omega
      have hqr : q + q' + 1 = start + l.leafCount + start' + r.leafCount := by omega
      cases op with
      | concat =>
          refine linked_concat.trans (Iff.trans ?_ linked_concat.symm)
          rw [ihr hpr hqr, ihl hpl hql, mem_last_reverse_iff hpr, mem_first_reverse_iff hql,
            or_left_comm, and_comm (a := p' ∈ _)]
      | union =>
          refine linked_union.trans (Iff.trans ?_ linked_union.symm)
          rw [ihr hpr hqr, ihl hpl hql, or_comm]

end Expr

end RegexPositions
