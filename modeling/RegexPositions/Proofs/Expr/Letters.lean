import RegexPositions.Proofs.Expr.Neighbours

/-!
# Letters and Positions

The words of an expression are its marked words, spelled with the symbols of the leaves
(`language_eq_map_marked`). What may begin a word, what may end it and what may stand side by
side is a matter of positions alone, so it stays the same when other letters are written at the
leaves (`Expr.relabel`).
-/

open scoped Computability

namespace RegexPositions

namespace Expr

variable {e : Expr} {start p q : Nat}

/-! ### From positions to characters -/

/-- A language is the image of the marked language if the letters go by position. -/
theorem denote_eq_map {α : Type} {word : Nat → Letter → α} {f : Nat → α}
    (h : ∀ k letter, e.letters[k]? = some letter → word (start + k) letter = f (start + k)) :
    e.denote word start = Language.map f (e.marked start) := by
  induction e generalizing start with
  | leaf letter =>
      rw [denote, marked_leaf, show word start letter = f start from h 0 letter rfl]
      exact (Set.image_singleton (f := List.map f) (a := [start])).symm
  | unary op e ih =>
      have he := ih h
      cases op with
      | star => rw [denote, he, marked_star, Language.map_kstar]
      | plus => rw [denote, he, marked_plus, map_mul, Language.map_kstar]
      | optional => rw [denote, he, marked_optional, map_add, map_one]
  | binary op l r ihl ihr =>
      have hl : l.denote word start = Language.map f (l.marked start) := by
        refine ihl fun k letter hk => h k letter ?_
        obtain ⟨hlt, -⟩ := List.getElem?_eq_some_iff.mp hk
        rw [letters, List.getElem?_append_left hlt, hk]
      have hr : r.denote word (start + l.leafCount) =
          Language.map f (r.marked (start + l.leafCount)) := by
        refine ihr fun k letter hk => ?_
        rw [Nat.add_assoc]
        refine h (l.leafCount + k) letter ?_
        rw [letters, ← length_letters l, List.getElem?_append_right (Nat.le_add_right _ _),
          Nat.add_sub_cancel_left, hk]
      cases op with
      | concat => rw [denote, hl, hr, marked_concat, map_mul]
      | union => rw [denote, hl, hr, marked_union, map_add]

/-- The symbol of the leaf at a position. Where there is no leaf, it is that of an end marker. -/
def symbolAt (e : Expr) (p : Nat) : Char :=
  (e.letters[p - 1]?.getD .endMarker).symbol

/-- **Words are spelled marked words.** -/
theorem language_eq_map_marked (e : Expr) : e.language = Language.map e.symbolAt (e.marked 1) := by
  refine denote_eq_map fun k letter hk => ?_
  rw [symbolAt, Nat.add_sub_cancel_left, hk]
  rfl

/-- A word is matched if it can be read off a word of positions. -/
theorem mem_language_iff {w : List Char} :
    w ∈ e.language ↔ ∃ m ∈ e.marked 1, m.map e.symbolAt = w := by
  rw [language_eq_map_marked]
  rfl

/-- Where no two leaves have the same symbol, the symbol tells the position. -/
theorem eq_of_symbolAt_eq (h : (e.letters.map Letter.symbol).Nodup) (hp : e.HasPosition 1 p)
    (hq : e.HasPosition 1 q) (heq : e.symbolAt p = e.symbolAt q) : p = q := by
  obtain ⟨hp1, hp2⟩ := hp
  obtain ⟨hq1, hq2⟩ := hq
  have hsymbol : ∀ k (hk : k < (e.letters.map Letter.symbol).length),
      (e.letters.map Letter.symbol)[k] = e.symbolAt (k + 1) := by
    intro k hk
    rw [List.length_map] at hk
    simp [symbolAt, List.getElem?_eq_getElem hk]
  have hlength : (e.letters.map Letter.symbol).length = e.leafCount := by
    rw [List.length_map, length_letters]
  have hlp : p - 1 < (e.letters.map Letter.symbol).length := by omega
  have hlq : q - 1 < (e.letters.map Letter.symbol).length := by omega
  have hpred : p - 1 = q - 1 := by
    refine h.getElem_inj_iff.mp (?_ : (e.letters.map Letter.symbol)[p - 1] = _[q - 1])
    rw [hsymbol _ hlp, hsymbol _ hlq, Nat.sub_add_cancel hp1, Nat.sub_add_cancel hq1, heq]
  omega

/-! ### Other letters at the leaves -/

/-- The expression with the operand `letters p` as its leaf at each position `p`. -/
def relabel (letters : Nat → Char) (start : Nat) : Expr → Expr
  | leaf _ => leaf (.operand (letters start))
  | unary op e => unary op (e.relabel letters start)
  | binary op l r =>
      binary op (l.relabel letters start) (r.relabel letters (start + l.leafCount))

variable (letters : Nat → Char)

/-- Other letters leave the number of leaves as it is. -/
@[simp] theorem leafCount_relabel (start : Nat) (e : Expr) :
    (e.relabel letters start).leafCount = e.leafCount := by
  induction e generalizing start with
  | leaf _ => rfl
  | unary _ _ ih => exact ih start
  | binary _ _ _ ihl ihr => rw [relabel, leafCount, ihl, ihr, leafCount]

/-- Other letters leave the attributes as they are. -/
@[simp] theorem attributesFrom_relabel (start : Nat) (e : Expr) :
    (e.relabel letters start).attributesFrom start = e.attributesFrom start := by
  induction e generalizing start with
  | leaf _ => rfl
  | unary _ _ ih => rw [relabel, attributesFrom, ih, attributesFrom]
  | binary _ _ _ ihl ihr =>
      rw [relabel, attributesFrom, leafCount_relabel, ihl, ihr, attributesFrom]

/-- Other letters leave it as it is which positions may stand side by side. -/
theorem precedes_relabel_iff :
    (e.relabel letters start).Precedes start p q ↔ e.Precedes start p q := by
  induction e generalizing start with
  | leaf _ => exact Iff.rfl
  | unary op e ih => rw [relabel, Precedes, Precedes, ih, attributesFrom_relabel]
  | binary op l r ihl ihr =>
      cases op with
      | concat =>
          simp only [relabel, Precedes, leafCount_relabel, attributesFrom_relabel, ihl, ihr]
      | union => simp only [relabel, Precedes, leafCount_relabel, ihl, ihr]

/-- Other letters leave the links as they are. -/
theorem linksFrom_relabel (start : Nat) (e : Expr) :
    (e.relabel letters start).linksFrom start = e.linksFrom start := by
  induction e generalizing start with
  | leaf _ => rfl
  | unary op e ih => rw [relabel, linksFrom, linksFrom, ih, attributesFrom_relabel]
  | binary op l r ihl ihr =>
      cases op with
      | concat =>
          simp only [relabel, linksFrom, leafCount_relabel, attributesFrom_relabel, ihl, ihr]
      | union => simp only [relabel, linksFrom, leafCount_relabel, ihl, ihr]

/-- Other letters leave it as it is whether every repetition is symmetric. -/
theorem symmetricFrom_relabel_iff :
    (e.relabel letters start).SymmetricFrom start ↔ e.SymmetricFrom start := by
  induction e generalizing start with
  | leaf _ => exact Iff.rfl
  | unary op e ih => rw [relabel, SymmetricFrom, SymmetricFrom, ih, attributesFrom_relabel]
  | binary op l r ihl ihr =>
      rw [relabel, SymmetricFrom, SymmetricFrom, leafCount_relabel, ihl, ihr]

/-- Neighbours that no link joins are so with any letters. -/
theorem Unlinked.relabel (h : e.Unlinked start p q) :
    (e.relabel letters start).Unlinked start p q where
  precedes := (precedes_relabel_iff letters).mpr h.precedes
  not_linked := by
    rw [Linked, linksFrom_relabel]
    exact h.not_linked
  not_ends := by
    rw [attributesFrom_relabel]
    exact h.not_ends

/-- The new letters stand at the leaves in the order of the positions. -/
theorem letters_relabel (start : Nat) (e : Expr) :
    (e.relabel letters start).letters =
      (List.range' start e.leafCount).map fun p => .operand (letters p) := by
  induction e generalizing start with
  | leaf _ => rfl
  | unary _ _ ih => exact ih start
  | binary _ l r ihl ihr =>
      rw [relabel, Expr.letters, ihl, ihr, leafCount, ← List.map_append,
        List.range'_append_1]

/-- Each position has the new letter given for it. -/
theorem symbolAt_relabel (h : e.HasPosition 1 p) :
    (e.relabel letters 1).symbolAt p = letters p := by
  obtain ⟨hp1, hp2⟩ := h
  have hlt : p - 1 < e.leafCount := by omega
  have hsucc : 1 + (p - 1) = p := by omega
  simp [symbolAt, letters_relabel, List.getElem?_range' hlt, hsucc, Letter.symbol]

/-- Every expression can be written down. -/
theorem exists_spells (e : Expr) : ∃ s, e.Spells s := by
  induction e with
  | leaf letter =>
      cases letter with
      | operand c => exact ⟨_, .escaped c⟩
      | endMarker => exact ⟨_, .endMarker⟩
  | unary op _ ih =>
      obtain ⟨s, hs⟩ := ih
      exact ⟨_, .unary op hs⟩
  | binary op _ _ ihl ihr =>
      obtain ⟨s, hs⟩ := ihl
      obtain ⟨t, ht⟩ := ihr
      exact ⟨_, .binary op hs ht⟩

end Expr

end RegexPositions
