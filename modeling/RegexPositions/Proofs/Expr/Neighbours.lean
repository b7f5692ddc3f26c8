import RegexPositions.Proofs.Expr.Ends
import RegexPositions.Tree.Follow.Basic

/-!
# Neighbours in a Word

Which positions may stand side by side in a word of an expression? `Expr.Precedes` gives the
rule for each operator: what may end the left operand of a concatenation precedes what may begin
the right one, and what may end the operand of a repetition precedes what may begin it. With
these neighbours the marked language is local (`Expr.local_marked`).

A follow table goes by links (`Expr.linksFrom`), and the link of a repetition leads from what may
begin the operand to what may end it. The two agree where they can:

* `linked_iff_precedes` — if the operand of every repetition begins and ends with the same
  positions (`Expr.SymmetricFrom`), linked positions are neighbours and neighbours are linked;
* `exists_unlinked` — otherwise two positions are neighbours in some word and not linked.
-/

open scoped Computability

namespace RegexPositions

namespace Expr

variable {start p q : Nat} {e : Expr}

/-! ### Neighbours -/

/-- Position `p` may stand directly before position `q` in a word of an expression whose first
leaf has position `start`. -/
def Precedes (start : Nat) : Expr → Nat → Nat → Prop
  | leaf _, _, _ => False
  | unary op e, p, q =>
      e.Precedes start p q ∨ op.repeats = true ∧
        p ∈ (e.attributesFrom start).last ∧ q ∈ (e.attributesFrom start).first
  | binary .concat l r, p, q =>
      l.Precedes start p q ∨ r.Precedes (start + l.leafCount) p q ∨
        p ∈ (l.attributesFrom start).last ∧ q ∈ (r.attributesFrom (start + l.leafCount)).first
  | binary .union l r, p, q =>
      l.Precedes start p q ∨ r.Precedes (start + l.leafCount) p q

/-- The positions of an expression whose first leaf has position `start`. -/
def HasPosition (start : Nat) (e : Expr) (p : Nat) : Prop :=
  start ≤ p ∧ p < start + e.leafCount

/-- The left and the right operand have no position in common. -/
theorem not_hasPosition_of_left {l r : Expr} (p : Nat) (h : l.HasPosition start p) :
    ¬r.HasPosition (start + l.leafCount) p := by
  rintro ⟨hle, -⟩
  have := h.2
  omega

/-- A position of either operand is a position of the compound expression. -/
theorem hasPosition_binary {op : BinaryOp} {l r : Expr} (p : Nat)
    (h : l.HasPosition start p ∨ r.HasPosition (start + l.leafCount) p) :
    (binary op l r).HasPosition start p := by
  rw [HasPosition, leafCount]
  rcases h with ⟨hle, hlt⟩ | ⟨hle, hlt⟩ <;> constructor <;> omega

/-- **The marked language is local**: its words go from neighbour to neighbour. -/
theorem local_marked (start : Nat) (e : Expr) :
    (e.marked start).Local (e.HasPosition start) (· ∈ (e.attributesFrom start).first)
      (· ∈ (e.attributesFrom start).last) (e.Precedes start) := by
  induction e generalizing start with
  | leaf letter =>
      refine (Language.Local.singleton start).of_iff ?_ ?_ ?_ ?_
      · rintro p rfl
        exact ⟨Nat.le_refl _, Nat.lt_succ_self _⟩
      · exact fun p => PositionSet.mem_singleton
      · exact fun p => PositionSet.mem_singleton
      · exact fun p q => Iff.rfl
  | unary op e ih =>
      cases op with
      | star =>
          refine (ih start).kstar.of_iff (fun _ => id) (fun _ => Iff.rfl) (fun _ => Iff.rfl) ?_
          exact fun p q => or_congr_right (and_iff_right rfl)
      | plus =>
          refine (ih start).mul_kstar.of_iff (fun _ => id) (fun _ => Iff.rfl) (fun _ => Iff.rfl) ?_
          exact fun p q => or_congr_right (and_iff_right rfl)
      | optional =>
          refine (ih start).one_add.of_iff (fun _ => id) (fun _ => Iff.rfl) (fun _ => Iff.rfl) ?_
          exact fun p q => or_iff_left fun h => Bool.false_ne_true h.1
  | binary op l r ihl ihr =>
      have hl := ihl start
      have hr := ihr (start + l.leafCount)
      cases op with
      | concat =>
          refine (hl.mul hr not_hasPosition_of_left).of_iff hasPosition_binary ?_ ?_ ?_
          · intro p
            rw [← nullable_attributesFrom_iff]
            exact Attributes.mem_first_concat
          · intro p
            rw [← nullable_attributesFrom_iff]
            exact Attributes.mem_last_concat
          · exact fun p q => Iff.rfl
      | union =>
          refine (hl.add hr not_hasPosition_of_left).of_iff hasPosition_binary ?_ ?_ ?_
          · exact fun p => PositionSet.mem_union
          · exact fun p => PositionSet.mem_union
          · exact fun p q => Iff.rfl

/-- Neighbours do stand side by side in some word. -/
theorem exists_mem_marked_of_precedes (h : e.Precedes start p q) :
    ∃ u v, u ++ p :: q :: v ∈ e.marked start := by
  induction e generalizing start with
  | leaf letter => exact h.elim
  | unary op e ih =>
      have hstar : ∀ {w}, w ∈ e.marked start → w ∈ (e.marked start)∗ := fun hw => by
        simpa using Language.append_mem_kstar hw (Language.nil_mem_kstar _)
      rcases h with h | ⟨hop, hp, hq⟩
      · obtain ⟨u, v, huv⟩ := ih h
        cases op with
        | star => exact ⟨u, v, hstar huv⟩
        | plus =>
            refine ⟨u, v, ?_⟩
            simpa [marked_plus] using
              Language.append_mem_mul huv (Language.nil_mem_kstar (e.marked start))
        | optional => exact ⟨u, v, .inr huv⟩
      · obtain ⟨u, hu⟩ := mem_last_attributesFrom_iff.mp hp
        obtain ⟨v, hv⟩ := mem_first_attributesFrom_iff.mp hq
        refine ⟨u, v, ?_⟩
        have hsplit : u ++ p :: q :: v = (u ++ [p]) ++ q :: v := by simp
        rw [hsplit]
        cases op with
        | star => exact Language.append_mem_kstar hu (hstar hv)
        | plus => exact Language.append_mem_mul hu (hstar hv)
        | optional => exact absurd hop Bool.false_ne_true
  | binary op l r ihl ihr =>
      obtain ⟨x, hx⟩ := exists_mem_marked start l
      obtain ⟨y, hy⟩ := exists_mem_marked (start + l.leafCount) r
      cases op with
      | concat =>
          rcases h with h | h | ⟨hp, hq⟩
          · obtain ⟨u, v, huv⟩ := ihl h
            exact ⟨u, v ++ y, by simpa [marked_concat] using Language.append_mem_mul huv hy⟩
          · obtain ⟨u, v, huv⟩ := ihr h
            exact ⟨x ++ u, v, by simpa [marked_concat] using Language.append_mem_mul hx huv⟩
          · obtain ⟨u, hu⟩ := mem_last_attributesFrom_iff.mp hp
            obtain ⟨v, hv⟩ := mem_first_attributesFrom_iff.mp hq
            exact ⟨u, v, by simpa [marked_concat] using Language.append_mem_mul hu hv⟩
      | union =>
          rcases h with h | h
          · obtain ⟨u, v, huv⟩ := ihl h
            exact ⟨u, v, .inl huv⟩
          · obtain ⟨u, v, huv⟩ := ihr h
            exact ⟨u, v, .inr huv⟩

/-! ### Links -/

/-- The links that the operators of an expression contribute, in the order in which the operators
are written. -/
def linksFrom (start : Nat) : Expr → List Link
  | leaf _ => []
  | unary op e =>
      e.linksFrom start ++
        if op.repeats then [⟨(e.attributesFrom start).first, (e.attributesFrom start).last⟩] else []
  | binary .concat l r =>
      l.linksFrom start ++ r.linksFrom (start + l.leafCount) ++
        [⟨(l.attributesFrom start).last, (r.attributesFrom (start + l.leafCount)).first⟩]
  | binary .union l r => l.linksFrom start ++ r.linksFrom (start + l.leafCount)

/-- Some link of the expression leads from `p` to `q`. -/
def Linked (start : Nat) (e : Expr) (p q : Nat) : Prop :=
  ∃ link ∈ e.linksFrom start, p ∈ link.sources ∧ q ∈ link.targets

instance : Decidable (e.Linked start p q) :=
  inferInstanceAs (Decidable (∃ link ∈ e.linksFrom start, p ∈ link.sources ∧ q ∈ link.targets))

/-- A leaf links nothing. -/
theorem not_linked_leaf {letter : Letter} : ¬(leaf letter).Linked start p q := by
  simp [Linked, linksFrom]

/-- A unary operator links what its operand does, and a repetition also first to last positions. -/
theorem linked_unary {op : UnaryOp} :
    (unary op e).Linked start p q ↔
      e.Linked start p q ∨ op.repeats = true ∧
        p ∈ (e.attributesFrom start).first ∧ q ∈ (e.attributesFrom start).last := by
  cases h : op.repeats <;> simp [Linked, linksFrom, h, or_and_right, exists_or]

/-- A concatenation links what its operands do, and last positions on the left to first ones on the
right. -/
theorem linked_concat {l r : Expr} :
    (binary .concat l r).Linked start p q ↔
      l.Linked start p q ∨ r.Linked (start + l.leafCount) p q ∨
        p ∈ (l.attributesFrom start).last ∧ q ∈ (r.attributesFrom (start + l.leafCount)).first := by
  simp [Linked, linksFrom, or_and_right, exists_or]

/-- A union links what its operands do. -/
theorem linked_union {l r : Expr} :
    (binary .union l r).Linked start p q ↔
      l.Linked start p q ∨ r.Linked (start + l.leafCount) p q := by
  simp [Linked, linksFrom, or_and_right, exists_or]

/-- Every repetition is **symmetric**: its operand begins and ends with the same positions. -/
def SymmetricFrom (start : Nat) : Expr → Prop
  | leaf _ => True
  | unary op e =>
      e.SymmetricFrom start ∧
        (op.repeats = true → (e.attributesFrom start).first = (e.attributesFrom start).last)
  | binary _ l r => l.SymmetricFrom start ∧ r.SymmetricFrom (start + l.leafCount)

/-- Where repetitions are symmetric, it makes no difference in which direction they link. -/
theorem linked_iff_precedes (h : e.SymmetricFrom start) :
    e.Linked start p q ↔ e.Precedes start p q := by
  induction e generalizing start with
  | leaf letter => exact iff_of_false not_linked_leaf id
  | unary op e ih =>
      rw [linked_unary, Precedes, ih h.1]
      refine or_congr_right (and_congr_right fun hop => ?_)
      rw [h.2 hop]
  | binary op l r ihl ihr =>
      cases op with
      | concat => rw [linked_concat, Precedes, ihl h.1, ihr h.2]
      | union => rw [linked_union, Precedes, ihl h.1, ihr h.2]

/-! ### Where links fall short -/

/-- Links join positions of the expression. -/
theorem range_of_linked (h : e.Linked start p q) :
    e.HasPosition start p ∧ e.HasPosition start q := by
  induction e generalizing start with
  | leaf letter => exact absurd h not_linked_leaf
  | unary op e ih =>
      rcases linked_unary.mp h with h | ⟨-, hp, hq⟩
      · exact ih h
      · exact ⟨range_of_mem_first hp, range_of_mem_last hq⟩
  | binary op l r ihl ihr =>
      cases op with
      | concat =>
          rcases linked_concat.mp h with h | h | ⟨hp, hq⟩
          · exact (ihl h).imp (hasPosition_binary p ∘ .inl) (hasPosition_binary q ∘ .inl)
          · exact (ihr h).imp (hasPosition_binary p ∘ .inr) (hasPosition_binary q ∘ .inr)
          · exact ⟨hasPosition_binary p (.inl (range_of_mem_last hp)),
              hasPosition_binary q (.inr (range_of_mem_first hq))⟩
      | union =>
          rcases linked_union.mp h with h | h
          · exact (ihl h).imp (hasPosition_binary p ∘ .inl) (hasPosition_binary q ∘ .inl)
          · exact (ihr h).imp (hasPosition_binary p ∘ .inr) (hasPosition_binary q ∘ .inr)

/-- The first leaf may begin a word. -/
theorem start_mem_first (start : Nat) (e : Expr) : start ∈ (e.attributesFrom start).first := by
  induction e generalizing start with
  | leaf letter => exact PositionSet.mem_singleton.mpr rfl
  | unary op e ih => exact ih start
  | binary op l r ihl _ =>
      cases op with
      | concat => exact Attributes.mem_first_concat.mpr (.inl (ihl start))
      | union => exact PositionSet.mem_union.mpr (.inl (ihl start))

/-- The last leaf may end a word. -/
theorem stop_mem_last (start : Nat) (e : Expr) :
    start + e.leafCount - 1 ∈ (e.attributesFrom start).last := by
  induction e generalizing start with
  | leaf letter => exact PositionSet.mem_singleton.mpr rfl
  | unary op e ih => exact ih start
  | binary op l r _ ihr =>
      have hr := ihr (start + l.leafCount)
      rw [Nat.add_assoc] at hr
      cases op with
      | concat => exact Attributes.mem_last_concat.mpr (.inl hr)
      | union => exact PositionSet.mem_union.mpr (.inr hr)

/-- A link that leads back to the first leaf comes from a position that may begin a word. -/
theorem mem_first_of_linked_start (h : e.Linked start p start) :
    p ∈ (e.attributesFrom start).first := by
  induction e with
  | leaf letter => exact absurd h not_linked_leaf
  | unary op e ih =>
      rcases linked_unary.mp h with h | ⟨-, hp, -⟩
      · exact ih h
      · exact hp
  | binary op l r ihl _ =>
      have hl := l.leafCount_pos
      cases op with
      | concat =>
          rcases linked_concat.mp h with h | h | ⟨-, hq⟩
          · exact Attributes.mem_first_concat.mpr (.inl (ihl h))
          · have := (range_of_linked h).2.1
            omega
          · have := (range_of_mem_first hq).1
            omega
      | union =>
          rcases linked_union.mp h with h | h
          · exact PositionSet.mem_union.mpr (.inl (ihl h))
          · have := (range_of_linked h).2.1
            omega

/-- A link from the last leaf leads to a position that may end a word. -/
theorem mem_last_of_linked_stop (h : e.Linked start (start + e.leafCount - 1) q) :
    q ∈ (e.attributesFrom start).last := by
  induction e generalizing start with
  | leaf letter => exact absurd h not_linked_leaf
  | unary op e ih =>
      rcases linked_unary.mp h with h | ⟨-, -, hq⟩
      · exact ih h
      · exact hq
  | binary op l r _ ihr =>
      have hr := r.leafCount_pos
      have hstop : start + (binary op l r).leafCount - 1 =
          start + l.leafCount + r.leafCount - 1 := by
        rw [leafCount, Nat.add_assoc]
      rw [hstop] at h
      cases op with
      | concat =>
          rcases linked_concat.mp h with h | h | ⟨hp, -⟩
          · have := (range_of_linked h).1.2
            omega
          · exact Attributes.mem_last_concat.mpr (.inl (ihr h))
          · have := (range_of_mem_last hp).2
            omega
      | union =>
          rcases linked_union.mp h with h | h
          · have := (range_of_linked h).1.2
            omega
          · exact PositionSet.mem_union.mpr (.inr (ihr h))

/-- Position `p` may stand directly before `q`, and no link joins them, neither one of the
expression nor one of a repetition around it. -/
structure Unlinked (start : Nat) (e : Expr) (p q : Nat) : Prop where
  /-- The positions are neighbours. -/
  precedes : e.Precedes start p q
  /-- No link of the expression joins them. -/
  not_linked : ¬e.Linked start p q
  /-- A repetition around the expression would link a first position to a last one. -/
  not_ends : ¬(p ∈ (e.attributesFrom start).first ∧ q ∈ (e.attributesFrom start).last)

/-- A missing link stays missing under a unary operator. -/
theorem Unlinked.unary {op : UnaryOp} (h : e.Unlinked start p q) :
    (unary op e).Unlinked start p q where
  precedes := .inl h.precedes
  not_linked := by
    rw [linked_unary]
    rintro (hlink | ⟨-, hends⟩)
    · exact h.not_linked hlink
    · exact h.not_ends hends
  not_ends := h.not_ends

/-- A missing link of the left operand stays missing in the compound expression. -/
theorem Unlinked.binary_left {op : BinaryOp} {l : Expr} (r : Expr) (h : l.Unlinked start p q) :
    (binary op l r).Unlinked start p q := by
  obtain ⟨hp, hq⟩ := (local_marked start l).support_of_next h.precedes
  have hpr := not_hasPosition_of_left (r := r) p hp
  have hqr := not_hasPosition_of_left (r := r) q hq
  cases op with
  | concat =>
      refine ⟨.inl h.precedes, ?_, ?_⟩
      · rw [linked_concat]
        rintro (hlink | hlink | ⟨-, hf⟩)
        · exact h.not_linked hlink
        · exact hpr (range_of_linked hlink).1
        · exact hqr (range_of_mem_first hf)
      · rintro ⟨hf, hl⟩
        refine h.not_ends ⟨?_, ?_⟩
        · exact (Attributes.mem_first_concat.mp hf).resolve_right
            fun hf => hpr (range_of_mem_first hf.2)
        · exact ((Attributes.mem_last_concat.mp hl).resolve_left
            fun hl => hqr (range_of_mem_last hl)).2
  | union =>
      refine ⟨.inl h.precedes, ?_, ?_⟩
      · rw [linked_union]
        rintro (hlink | hlink)
        · exact h.not_linked hlink
        · exact hpr (range_of_linked hlink).1
      · rintro ⟨hf, hl⟩
        refine h.not_ends ⟨?_, ?_⟩
        · exact (PositionSet.mem_union.mp hf).resolve_right fun hf => hpr (range_of_mem_first hf)
        · exact (PositionSet.mem_union.mp hl).resolve_right fun hl => hqr (range_of_mem_last hl)

/-- A missing link of the right operand stays missing in the compound expression. -/
theorem Unlinked.binary_right {op : BinaryOp} (l : Expr) {r : Expr}
    (h : r.Unlinked (start + l.leafCount) p q) : (binary op l r).Unlinked start p q := by
  obtain ⟨hp, hq⟩ := (local_marked (start + l.leafCount) r).support_of_next h.precedes
  have hpl : ¬l.HasPosition start p := fun hpl => not_hasPosition_of_left p hpl hp
  have hql : ¬l.HasPosition start q := fun hql => not_hasPosition_of_left q hql hq
  cases op with
  | concat =>
      refine ⟨.inr (.inl h.precedes), ?_, ?_⟩
      · rw [linked_concat]
        rintro (hlink | hlink | ⟨hl, -⟩)
        · exact hpl (range_of_linked hlink).1
        · exact h.not_linked hlink
        · exact hpl (range_of_mem_last hl)
      · rintro ⟨hf, hl⟩
        refine h.not_ends ⟨?_, ?_⟩
        · exact ((Attributes.mem_first_concat.mp hf).resolve_left
            fun hf => hpl (range_of_mem_first hf)).2
        · exact (Attributes.mem_last_concat.mp hl).resolve_right
            fun hl => hql (range_of_mem_last hl.2)
  | union =>
      refine ⟨.inr h.precedes, ?_, ?_⟩
      · rw [linked_union]
        rintro (hlink | hlink)
        · exact hpl (range_of_linked hlink).1
        · exact h.not_linked hlink
      · rintro ⟨hf, hl⟩
        refine h.not_ends ⟨?_, ?_⟩
        · exact (PositionSet.mem_union.mp hf).resolve_left fun hf => hpl (range_of_mem_first hf)
        · exact (PositionSet.mem_union.mp hl).resolve_left fun hl => hql (range_of_mem_last hl)

/-- A repetition that is not symmetric leaves neighbours unlinked: its last leaf before a
position that begins and does not end the operand, or a position that ends and does not begin
it before its first leaf. -/
theorem exists_unlinked_of_first_ne_last {op : UnaryOp} (hop : op.repeats = true)
    (h : (e.attributesFrom start).first ≠ (e.attributesFrom start).last) :
    ∃ p q, (unary op e).Unlinked start p q := by
  by_cases hsub : ∀ q ∈ (e.attributesFrom start).first, q ∈ (e.attributesFrom start).last
  · have hsup : ¬∀ p ∈ (e.attributesFrom start).last, p ∈ (e.attributesFrom start).first :=
      fun hsup => h (PositionSet.ext fun r => ⟨hsub r, hsup r⟩)
    push Not at hsup
    obtain ⟨p, hp, hnot⟩ := hsup
    refine ⟨p, start, .inr ⟨hop, hp, start_mem_first start e⟩, ?_, fun hends => hnot hends.1⟩
    exact fun hlink => hnot (mem_first_of_linked_start (e := unary op e) hlink)
  · push Not at hsub
    obtain ⟨q, hq, hnot⟩ := hsub
    refine ⟨start + e.leafCount - 1, q, .inr ⟨hop, stop_mem_last start e, hq⟩, ?_,
      fun hends => hnot hends.2⟩
    exact fun hlink => hnot (mem_last_of_linked_stop (e := unary op e) hlink)

/-- If some repetition is not symmetric, two positions are neighbours that no link joins. -/
theorem exists_unlinked (h : ¬e.SymmetricFrom start) : ∃ p q, e.Unlinked start p q := by
  induction e generalizing start with
  | leaf letter => exact absurd trivial h
  | unary op e ih =>
      by_cases he : e.SymmetricFrom start
      · have hop : op.repeats = true ∧
            (e.attributesFrom start).first ≠ (e.attributesFrom start).last :=
          Classical.not_imp.mp fun himp => h ⟨he, himp⟩
        exact exists_unlinked_of_first_ne_last hop.1 hop.2
      · obtain ⟨p, q, hpq⟩ := ih he
        exact ⟨p, q, hpq.unary⟩
  | binary op l r ihl ihr =>
      by_cases hl : l.SymmetricFrom start
      · obtain ⟨p, q, hpq⟩ := ihr fun hr => h ⟨hl, hr⟩
        exact ⟨p, q, hpq.binary_right l⟩
      · obtain ⟨p, q, hpq⟩ := ihl hl
        exact ⟨p, q, hpq.binary_left r⟩

end Expr

end RegexPositions
