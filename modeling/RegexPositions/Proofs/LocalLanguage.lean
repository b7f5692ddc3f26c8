import Mathlib.Computability.Language

/-!
# Local Languages

A language is **local** if looking at one letter and the next is enough to tell its words: there
are letters with which a word may begin, letters with which it may end, and pairs of letters
that may stand side by side, and a word that is not empty is in the language exactly when it
keeps to these (`Language.Local`). Sums, products and stars of local languages are local again
(`Local.add`, `Local.mul`, `Local.kstar`), where the two languages of a sum or a product have no
letter in common.

The proofs take a word apart at its first letter (`cons_mem_mul_iff`, `cons_mem_kstar_iff`). What
ends a word begins its reverse (`ends_iff`), so the statements about last letters (`Ends`) follow
from those about first ones (`Begins`).
-/

open scoped Computability

namespace Language

variable {α : Type} {l m : Language α} {a : α} {w : List α}

/-! ### The first letter of a word -/

/-- A product of languages has the empty word if both factors have it. -/
theorem nil_mem_mul_iff : [] ∈ l * m ↔ [] ∈ l ∧ [] ∈ m := by
  rw [mem_mul]
  constructor
  · rintro ⟨u, hu, v, hv, huv⟩
    obtain ⟨rfl, rfl⟩ := List.append_eq_nil_iff.mp huv
    exact ⟨hu, hv⟩
  · rintro ⟨hl, hm⟩
    exact ⟨[], hl, [], hm, rfl⟩

/-- A word of a product begins within the first factor, unless its part there is empty. -/
theorem cons_mem_mul_iff :
    a :: w ∈ l * m ↔
      (∃ u v, w = u ++ v ∧ a :: u ∈ l ∧ v ∈ m) ∨ [] ∈ l ∧ a :: w ∈ m := by
  rw [mem_mul]
  constructor
  · rintro ⟨u, hu, v, hv, huv⟩
    cases u with
    | nil => exact .inr ⟨hu, by rwa [← huv]⟩
    | cons b u =>
        obtain ⟨rfl, rfl⟩ := List.cons.inj huv
        exact .inl ⟨u, v, rfl, hu, hv⟩
  · rintro (⟨u, v, rfl, hu, hv⟩ | ⟨hl, hm⟩)
    · exact ⟨a :: u, hu, v, hv, rfl⟩
    · exact ⟨[], hl, a :: w, hm, rfl⟩

/-- A word of the language in front of a repetition is a longer repetition. -/
theorem append_mem_kstar {u v : List α} (hu : u ∈ l) (hv : v ∈ l∗) : u ++ v ∈ l∗ := by
  obtain ⟨vs, rfl, hvs⟩ := mem_kstar.mp hv
  have hall : ∀ x ∈ u :: vs, x ∈ l := List.forall_mem_cons.mpr ⟨hu, hvs⟩
  simpa using join_mem_kstar hall

/-- A word of a star that has a letter begins with a word of the language that has one. -/
theorem cons_mem_kstar_iff :
    a :: w ∈ l∗ ↔ ∃ u v, w = u ++ v ∧ a :: u ∈ l ∧ v ∈ l∗ := by
  constructor
  · rw [mem_kstar_iff_exists_nonempty]
    rintro ⟨us, heq, hus⟩
    cases us with
    | nil => cases heq
    | cons u us =>
        obtain ⟨⟨hu, hne⟩, htail⟩ := List.forall_mem_cons.mp hus
        obtain ⟨b, u, rfl⟩ := List.exists_cons_of_ne_nil hne
        obtain ⟨rfl, rfl⟩ := List.cons.inj heq
        exact ⟨u, us.flatten, rfl, hu, join_mem_kstar fun v hv => (htail v hv).1⟩
  · rintro ⟨u, v, rfl, hu, hv⟩
    exact append_mem_kstar hu hv

/-- The letter **begins** a word of the language. -/
def Begins (l : Language α) (a : α) : Prop :=
  ∃ w, a :: w ∈ l

/-- A union begins with what either language begins with. -/
theorem begins_add : (l + m).Begins a ↔ l.Begins a ∨ m.Begins a :=
  exists_or

/-- The language of the empty word begins with nothing. -/
theorem begins_one : ¬(1 : Language α).Begins a := by
  rintro ⟨w, hw⟩
  cases hw

/-- A product begins as its first factor does, or, if that has the empty word, as the second one. -/
theorem begins_mul (hm : ∃ v, v ∈ m) :
    (l * m).Begins a ↔ l.Begins a ∨ [] ∈ l ∧ m.Begins a := by
  constructor
  · rintro ⟨w, hw⟩
    rcases cons_mem_mul_iff.mp hw with ⟨u, v, -, hu, -⟩ | ⟨hl, hw⟩
    · exact .inl ⟨u, hu⟩
    · exact .inr ⟨hl, w, hw⟩
  · rintro (⟨u, hu⟩ | ⟨hl, w, hw⟩)
    · obtain ⟨v, hv⟩ := hm
      exact ⟨u ++ v, cons_mem_mul_iff.mpr (.inl ⟨u, v, rfl, hu, hv⟩)⟩
    · exact ⟨w, cons_mem_mul_iff.mpr (.inr ⟨hl, hw⟩)⟩

/-- A repetition begins as the language does. -/
theorem begins_kstar : (l∗).Begins a ↔ l.Begins a := by
  constructor
  · rintro ⟨w, hw⟩
    obtain ⟨u, v, -, hu, -⟩ := cons_mem_kstar_iff.mp hw
    exact ⟨u, hu⟩
  · rintro ⟨u, hu⟩
    exact ⟨u ++ [], cons_mem_kstar_iff.mpr ⟨u, [], rfl, hu, nil_mem_kstar l⟩⟩

/-! ### The last letter of a word -/

/-- The letter **ends** a word of the language. -/
def Ends (l : Language α) (a : α) : Prop :=
  ∃ w, w ++ [a] ∈ l

/-- To end a word is to begin its reverse. -/
theorem ends_iff : l.Ends a ↔ l.reverse.Begins a := by
  constructor
  · rintro ⟨w, hw⟩
    exact ⟨w.reverse, by simpa [mem_reverse] using hw⟩
  · rintro ⟨w, hw⟩
    exact ⟨w.reverse, by simpa [mem_reverse] using hw⟩

/-- A union ends with what either language ends with. -/
theorem ends_add : (l + m).Ends a ↔ l.Ends a ∨ m.Ends a :=
  exists_or

/-- The language of the empty word ends with nothing. -/
theorem ends_one : ¬(1 : Language α).Ends a := by
  rw [ends_iff, reverse_one]
  exact begins_one

/-- A product ends as its second factor does, or, if that has the empty word, as the first one. -/
theorem ends_mul (hl : ∃ u, u ∈ l) :
    (l * m).Ends a ↔ m.Ends a ∨ [] ∈ m ∧ l.Ends a := by
  obtain ⟨u, hu⟩ := hl
  have hreverse : ∃ v, v ∈ l.reverse := ⟨u.reverse, reverse_mem_reverse.mpr hu⟩
  simp only [ends_iff, reverse_mul, begins_mul hreverse]
  rfl

/-- A repetition ends as the language does. -/
theorem ends_kstar : (l∗).Ends a ↔ l.Ends a := by
  simp only [ends_iff, reverse_kstar, begins_kstar]

/-! ### Reading letter by letter -/

/-- After the letter `a`, the word `w` can be read: each letter may stand next to the one before
it, and the one read last may end a word. -/
def Reads (last : α → Prop) (next : α → α → Prop) : α → List α → Prop
  | a, [] => last a
  | a, b :: w => next a b ∧ Reads last next b w

/-- Two ways of reading agree on the letters that can be reached. -/
theorem reads_congr {support last last' : α → Prop} {next next' : α → α → Prop}
    (hlast : ∀ a, support a → (last a ↔ last' a))
    (hnext : ∀ a b, support a → (next a b ↔ next' a b))
    (hclosed : ∀ a b, next a b → support b) (ha : support a) :
    Reads last next a w ↔ Reads last' next' a w := by
  induction w generalizing a with
  | nil => exact hlast a ha
  | cons b w ih =>
      rw [Reads, Reads, ← hnext a b ha]
      exact and_congr_right fun hab => ih (hclosed a b hab)

/-- Reading in terms of the whole word. -/
theorem reads_iff_isChain {last : α → Prop} {next : α → α → Prop} :
    Reads last next a w ↔
      (∃ b, (a :: w).getLast? = some b ∧ last b) ∧ (a :: w).IsChain next := by
  induction w generalizing a with
  | nil => simp [Reads]
  | cons b w ih =>
      rw [Reads, ih, List.isChain_cons_cons, List.getLast?_cons_cons]
      exact and_left_comm

/-- The language is **local**: its words that are not empty are told by their first letter, their
last letter and the pairs of letters that stand side by side. All these letters are among those
of the language. -/
structure Local (l : Language α) (support first last : α → Prop) (next : α → α → Prop) : Prop where
  /-- A word is read letter by letter. -/
  cons_mem_iff : ∀ a w, a :: w ∈ l ↔ first a ∧ Reads last next a w
  /-- First letters are letters of the language. -/
  support_of_first : ∀ {a}, first a → support a
  /-- Last letters are letters of the language. -/
  support_of_last : ∀ {a}, last a → support a
  /-- So are neighbours. -/
  support_of_next : ∀ {a b}, next a b → support a ∧ support b

namespace Local

variable {support first last support' first' last' : α → Prop} {next next' : α → α → Prop}

/-- The letters and the pairs may be described otherwise. -/
theorem of_iff (h : l.Local support first last next) (hsupport : ∀ a, support a → support' a)
    (hfirst : ∀ a, first' a ↔ first a) (hlast : ∀ a, last' a ↔ last a)
    (hnext : ∀ a b, next' a b ↔ next a b) : l.Local support' first' last' next' := by
  obtain rfl : first' = first := funext fun a => propext (hfirst a)
  obtain rfl : last' = last := funext fun a => propext (hlast a)
  obtain rfl : next' = next := funext fun a => funext fun b => propext (hnext a b)
  exact ⟨h.cons_mem_iff, fun ha => hsupport _ (h.support_of_first ha),
    fun ha => hsupport _ (h.support_of_last ha),
    fun hab => (h.support_of_next hab).imp (hsupport _) (hsupport _)⟩

/-- A language of one word of one letter. -/
theorem singleton (a : α) :
    ({[a]} : Language α).Local (· = a) (· = a) (· = a) fun _ _ => False where
  cons_mem_iff := by
    intro b w
    constructor
    · intro h
      obtain ⟨rfl, rfl⟩ := List.cons.inj h
      exact ⟨rfl, rfl⟩
    · rintro ⟨rfl, hw⟩
      cases w with
      | nil => rfl
      | cons c w => exact hw.1.elim
  support_of_first := id
  support_of_last := id
  support_of_next := False.elim

/-- The empty word makes no difference. -/
theorem one_add (h : l.Local support first last next) :
    (1 + l).Local support first last next where
  cons_mem_iff := by
    intro a w
    rw [mem_add, mem_one, ← h.cons_mem_iff]
    exact or_iff_right (List.cons_ne_nil a w)
  support_of_first := h.support_of_first
  support_of_last := h.support_of_last
  support_of_next := h.support_of_next

/-- Words of either language. No pair of letters leads from one to the other. -/
theorem add (h : l.Local support first last next) (h' : m.Local support' first' last' next')
    (hdisjoint : ∀ a, support a → ¬support' a) :
    (l + m).Local (fun a => support a ∨ support' a) (fun a => first a ∨ first' a)
      (fun a => last a ∨ last' a) (fun a b => next a b ∨ next' a b) where
  cons_mem_iff := by
    intro a w
    have hleft : support a → (Reads last next a w ↔
        Reads (fun a => last a ∨ last' a) (fun a b => next a b ∨ next' a b) a w) := by
      refine reads_congr (fun a ha => ?_) (fun a b ha => ?_) fun a b hab =>
        (h.support_of_next hab).2
      · exact (or_iff_left fun hl => hdisjoint a ha (h'.support_of_last hl)).symm
      · exact (or_iff_left fun hn => hdisjoint a ha (h'.support_of_next hn).1).symm
    have hright : support' a → (Reads last' next' a w ↔
        Reads (fun a => last a ∨ last' a) (fun a b => next a b ∨ next' a b) a w) := by
      refine reads_congr (fun a ha => ?_) (fun a b ha => ?_) fun a b hab =>
        (h'.support_of_next hab).2
      · exact (or_iff_right fun hl => hdisjoint a (h.support_of_last hl) ha).symm
      · exact (or_iff_right fun hn => hdisjoint a (h.support_of_next hn).1 ha).symm
    rw [mem_add, h.cons_mem_iff, h'.cons_mem_iff, or_and_right]
    exact or_congr (and_congr_right fun ha => hleft (h.support_of_first ha))
      (and_congr_right fun ha => hright (h'.support_of_first ha))
  support_of_first := Or.imp h.support_of_first h'.support_of_first
  support_of_last := Or.imp h.support_of_last h'.support_of_last
  support_of_next := by
    rintro a b (hab | hab)
    · exact (h.support_of_next hab).imp .inl .inl
    · exact (h'.support_of_next hab).imp .inr .inr

/-- In a product, letters of the second language are read as in that language. -/
theorem reads_mul_right (h : l.Local support first last next)
    (h' : m.Local support' first' last' next') (hdisjoint : ∀ a, support a → ¬support' a)
    (ha : support' a) :
    Reads last' next' a w ↔
      Reads (fun a => last' a ∨ [] ∈ m ∧ last a)
        (fun a b => next a b ∨ next' a b ∨ last a ∧ first' b) a w := by
  refine reads_congr (fun a ha => ?_) (fun a b ha => ?_) (fun a b hab =>
    (h'.support_of_next hab).2) ha
  · exact (or_iff_left fun hl => hdisjoint a (h.support_of_last hl.2) ha).symm
  · constructor
    · exact fun hn => .inr (.inl hn)
    · rintro (hn | hn | ⟨hl, -⟩)
      · exact absurd ha (hdisjoint a (h.support_of_next hn).1)
      · exact hn
      · exact absurd ha (hdisjoint a (h.support_of_last hl))

/-- In a product, after a letter of the first language, more of its letters are read and then a
word of the second. -/
theorem reads_mul_left (h : l.Local support first last next)
    (h' : m.Local support' first' last' next') (hdisjoint : ∀ a, support a → ¬support' a)
    (ha : support a) :
    Reads (fun a => last' a ∨ [] ∈ m ∧ last a)
        (fun a b => next a b ∨ next' a b ∨ last a ∧ first' b) a w ↔
      ∃ u v, w = u ++ v ∧ Reads last next a u ∧ v ∈ m := by
  have hright : ∀ {b w}, first' b → (Reads last' next' b w ↔ _) := fun hf =>
    reads_mul_right h h' hdisjoint (h'.support_of_first hf)
  induction w generalizing a with
  | nil =>
      constructor
      · rintro (hl | ⟨hm, hl⟩)
        · exact absurd (h'.support_of_last hl) (hdisjoint a ha)
        · exact ⟨[], [], rfl, hl, hm⟩
      · rintro ⟨u, v, huv, hu, hv⟩
        obtain ⟨rfl, rfl⟩ := List.append_eq_nil_iff.mp huv.symm
        exact .inr ⟨hv, hu⟩
  | cons b w ih =>
      constructor
      · rintro ⟨hn | hn | ⟨hl, hf⟩, hw⟩
        · obtain ⟨u, v, rfl, hu, hv⟩ := (ih (h.support_of_next hn).2).mp hw
          exact ⟨b :: u, v, rfl, ⟨hn, hu⟩, hv⟩
        · exact absurd (h'.support_of_next hn).1 (hdisjoint a ha)
        · exact ⟨[], b :: w, rfl, hl, (h'.cons_mem_iff b w).mpr ⟨hf, (hright hf).mpr hw⟩⟩
      · rintro ⟨u, v, huv, hu, hv⟩
        cases u with
        | nil =>
            obtain rfl : b :: w = v := huv
            obtain ⟨hf, hw⟩ := (h'.cons_mem_iff b w).mp hv
            exact ⟨.inr (.inr ⟨hu, hf⟩), (hright hf).mp hw⟩
        | cons c u =>
            obtain ⟨rfl, rfl⟩ := List.cons.inj huv
            obtain ⟨hn, hu⟩ := hu
            exact ⟨.inl hn, (ih (h.support_of_next hn).2).mpr ⟨u, v, rfl, hu, hv⟩⟩

/-- A word of the first language and a word of the second. A last letter of the first may stand
next to a first letter of the second; an empty word on one side lets the ends of the other
through. -/
theorem mul (h : l.Local support first last next) (h' : m.Local support' first' last' next')
    (hdisjoint : ∀ a, support a → ¬support' a) :
    (l * m).Local (fun a => support a ∨ support' a) (fun a => first a ∨ [] ∈ l ∧ first' a)
      (fun a => last' a ∨ [] ∈ m ∧ last a)
      (fun a b => next a b ∨ next' a b ∨ last a ∧ first' b) where
  cons_mem_iff := by
    intro a w
    rw [cons_mem_mul_iff, or_and_right]
    apply or_congr
    · constructor
      · rintro ⟨u, v, rfl, hu, hv⟩
        obtain ⟨hf, hu⟩ := (h.cons_mem_iff a u).mp hu
        have ha := h.support_of_first hf
        exact ⟨hf, (reads_mul_left h h' hdisjoint ha).mpr ⟨u, v, rfl, hu, hv⟩⟩
      · rintro ⟨hf, hw⟩
        have ha := h.support_of_first hf
        obtain ⟨u, v, rfl, hu, hv⟩ := (reads_mul_left h h' hdisjoint ha).mp hw
        exact ⟨u, v, rfl, (h.cons_mem_iff a u).mpr ⟨hf, hu⟩, hv⟩
    · rw [h'.cons_mem_iff, and_assoc]
      refine and_congr_right fun _ => and_congr_right fun hf => ?_
      exact reads_mul_right h h' hdisjoint (h'.support_of_first hf)
  support_of_first := Or.imp h.support_of_first fun hf => h'.support_of_first hf.2
  support_of_last := fun hl =>
    hl.elim (fun hl => .inr (h'.support_of_last hl)) fun hl => .inl (h.support_of_last hl.2)
  support_of_next := by
    rintro a b (hab | hab | ⟨hl, hf⟩)
    · exact (h.support_of_next hab).imp .inl .inl
    · exact (h'.support_of_next hab).imp .inr .inr
    · exact ⟨.inl (h.support_of_last hl), .inr (h'.support_of_first hf)⟩

/-- In a star, after a letter, the rest of a word of the language is read and then a word of the
star. -/
theorem reads_kstar (h : l.Local support first last next) :
    Reads last (fun a b => next a b ∨ last a ∧ first b) a w ↔
      ∃ u v, w = u ++ v ∧ Reads last next a u ∧ v ∈ l∗ := by
  induction w generalizing a with
  | nil =>
      constructor
      · exact fun hl => ⟨[], [], rfl, hl, nil_mem_kstar l⟩
      · rintro ⟨u, v, huv, hu, -⟩
        obtain ⟨rfl, rfl⟩ := List.append_eq_nil_iff.mp huv.symm
        exact hu
  | cons b w ih =>
      constructor
      · rintro ⟨hn | ⟨hl, hf⟩, hw⟩
        · obtain ⟨u, v, rfl, hu, hv⟩ := ih.mp hw
          exact ⟨b :: u, v, rfl, ⟨hn, hu⟩, hv⟩
        · obtain ⟨u, v, rfl, hu, hv⟩ := ih.mp hw
          have hbu := (h.cons_mem_iff b u).mpr ⟨hf, hu⟩
          exact ⟨[], b :: (u ++ v), rfl, hl, append_mem_kstar hbu hv⟩
      · rintro ⟨u, v, huv, hu, hv⟩
        cases u with
        | nil =>
            obtain rfl : b :: w = v := huv
            obtain ⟨u, v, rfl, hbu, hv⟩ := cons_mem_kstar_iff.mp hv
            obtain ⟨hf, hb⟩ := (h.cons_mem_iff b u).mp hbu
            exact ⟨.inr ⟨hu, hf⟩, ih.mpr ⟨u, v, rfl, hb, hv⟩⟩
        | cons c u =>
            obtain ⟨rfl, rfl⟩ := List.cons.inj huv
            obtain ⟨hn, hu⟩ := hu
            exact ⟨.inl hn, ih.mpr ⟨u, v, rfl, hu, hv⟩⟩

/-- Any number of words of a language. A last letter may stand next to a first one. -/
theorem kstar (h : l.Local support first last next) :
    (l∗).Local support first last fun a b => next a b ∨ last a ∧ first b where
  cons_mem_iff := by
    intro a w
    rw [cons_mem_kstar_iff, h.reads_kstar]
    constructor
    · rintro ⟨u, v, rfl, hu, hv⟩
      obtain ⟨hf, hu⟩ := (h.cons_mem_iff a u).mp hu
      exact ⟨hf, u, v, rfl, hu, hv⟩
    · rintro ⟨hf, u, v, rfl, hu, hv⟩
      exact ⟨u, v, rfl, (h.cons_mem_iff a u).mpr ⟨hf, hu⟩, hv⟩
  support_of_first := h.support_of_first
  support_of_last := h.support_of_last
  support_of_next := by
    rintro a b (hab | ⟨hl, hf⟩)
    · exact h.support_of_next hab
    · exact ⟨h.support_of_last hl, h.support_of_first hf⟩

/-- At least one word of a language: only the empty word can make this differ from the star. -/
theorem mul_kstar (h : l.Local support first last next) :
    (l * l∗).Local support first last fun a b => next a b ∨ last a ∧ first b where
  cons_mem_iff := by
    intro a w
    rw [cons_mem_mul_iff, ← h.kstar.cons_mem_iff, ← cons_mem_kstar_iff]
    exact or_iff_left_of_imp And.right
  support_of_first := h.kstar.support_of_first
  support_of_last := h.kstar.support_of_last
  support_of_next := h.kstar.support_of_next

/-- The words of a local language that are not empty. -/
theorem mem_iff (h : l.Local support first last next) (hw : w ≠ []) :
    w ∈ l ↔ (∃ a, w.head? = some a ∧ first a) ∧ (∃ a, w.getLast? = some a ∧ last a) ∧
      w.IsChain next := by
  obtain ⟨a, w, rfl⟩ := List.exists_cons_of_ne_nil hw
  rw [h.cons_mem_iff, reads_iff_isChain]
  simp

end Local

end Language
