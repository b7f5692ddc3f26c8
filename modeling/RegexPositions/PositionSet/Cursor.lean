import RegexPositions.PositionSet.Lemmas

/-!
# Walking through a position set

A `Cursor` walks through the positions of a set in ascending order, one at a time: it holds the
bits of the current word that are still to be given and the words after it. `Cursor.next` gives
the least position that is left, and `PositionSet.take` the least few of a set without listing
the others.

`Cursor.members` is the view: all positions still to be given. A step takes the head off it
(`fst_next`, `members_snd_next`), and a new cursor stands before the whole set
(`members_cursor`).
-/

namespace RegexPositions

/-- A **cursor**: a place among the positions of a set. -/
structure Cursor where
  /-- The number of the current word. -/
  block : Nat
  /-- The bits of the current word that are still to be given. -/
  pending : Word
  /-- The words after the current one. -/
  ahead : List Word

namespace Cursor

/-- One step from word `block` with the bits `pending`, followed by the words `ahead`. -/
def nextFrom (block : Nat) (pending : Word) (ahead : List Word) : Option Nat × Cursor :=
  if pending = 0 then
    match ahead with
    | [] => (none, ⟨block, 0, []⟩)
    | w :: ws => nextFrom (block + 1) w ws
  else
    (some (Word.width * block + pending.lowest), ⟨block, pending.clear pending.lowest, ahead⟩)

/-- The next position, if one is left, and the cursor behind it. -/
def next (c : Cursor) : Option Nat × Cursor :=
  nextFrom c.block c.pending c.ahead

/-- The next `n` positions, or all if fewer are left. -/
def take : Nat → Cursor → List Nat
  | 0, _ => []
  | n + 1, c =>
      match c.next with
      | (none, _) => []
      | (some p, after) => p :: take n after

/-- The positions from word `block` with the bits `pending`, followed by the words `ahead`. -/
def membersFrom (block : Nat) (pending : Word) : List Word → List Nat
  | [] => pending.bits.map (Word.width * block + ·)
  | w :: ws => pending.bits.map (Word.width * block + ·) ++ membersFrom (block + 1) w ws

/-- The positions still to be given. -/
def members (c : Cursor) : List Nat :=
  membersFrom c.block c.pending c.ahead

/-- The bits of a word are its lowest and those of the word without it. -/
theorem bits_eq_cons {w : Word} (h : w ≠ 0) :
    w.bits = w.lowest :: (w.clear w.lowest).bits := by
  obtain ⟨hb, before, after, hrange, hbefore⟩ :=
    List.find?_eq_some_iff_append.mp (Word.find?_range_lowest h)
  have hclear : ∀ i ∈ List.range Word.width,
      (w.clear w.lowest).bit i = (w.bit i && decide (w.lowest ≠ i)) :=
    fun i hi => Word.bit_clear (Word.lowest_lt h) (List.mem_range.mp hi)
  have hnodup : (List.range Word.width).Nodup := List.nodup_range
  rw [hrange] at hclear hnodup
  have hafter : w.lowest ∉ after := by
    have := (List.nodup_append.mp hnodup).2.1
    exact (List.nodup_cons.mp this).1
  have h1 : before.filter w.bit = [] := by
    simpa [List.filter_eq_nil_iff] using hbefore
  have h2 : before.filter (w.clear w.lowest).bit = [] := by
    rw [List.filter_eq_nil_iff]
    intro i hi
    rw [hclear i (by simp [hi])]
    simp_all
  have h3 : after.filter (w.clear w.lowest).bit = after.filter w.bit := by
    apply List.filter_congr
    intro i hi
    rw [hclear i (by simp [hi])]
    have : w.lowest ≠ i := fun heq => hafter (heq ▸ hi)
    simp [this]
  have h4 : (w.clear w.lowest).bit w.lowest = false := by
    rw [hclear _ (by simp)]
    simp
  rw [Word.bits, Word.bits, hrange, List.filter_append, List.filter_append, h1, h2,
    List.filter_cons_of_pos hb, List.filter_cons_of_neg (by simp [h4]), h3]
  rfl

/-- The zero word has no bits. -/
theorem bits_zero : (0 : Word).bits = [] := by
  simp [Word.bits]

/-- A step takes the first position off those left. -/
theorem nextFrom_eq (block : Nat) (pending : Word) (ahead : List Word) :
    (nextFrom block pending ahead).1 = (membersFrom block pending ahead).head? ∧
      (nextFrom block pending ahead).2.members = (membersFrom block pending ahead).tail := by
  induction ahead generalizing block pending with
  | nil =>
      unfold nextFrom
      by_cases h : pending = 0
      · simp [h, members, membersFrom, bits_zero]
      · simp [h, members, membersFrom, bits_eq_cons h]
  | cons w ws ih =>
      unfold nextFrom
      by_cases h : pending = 0
      · simpa [h, membersFrom, bits_zero] using ih (block + 1) w
      · simp [h, members, membersFrom, bits_eq_cons h]

/-- A call gives the first position left, if any. -/
theorem fst_next (c : Cursor) : c.next.1 = c.members.head? :=
  (nextFrom_eq _ _ _).1

/-- A call takes the first position off those left. -/
theorem members_snd_next (c : Cursor) : c.next.2.members = c.members.tail :=
  (nextFrom_eq _ _ _).2

/-- Taking positions one by one gives the first ones of those left. -/
theorem take_eq (n : Nat) (c : Cursor) : c.take n = c.members.take n := by
  induction n generalizing c with
  | zero => simp [take]
  | succ n ih =>
      have h1 := fst_next c
      have h2 := members_snd_next c
      unfold take
      split
      · next after hnext =>
        rw [hnext] at h1
        rw [List.head?_eq_none_iff.mp h1.symm]
        rfl
      · next p after hnext =>
        rw [hnext] at h1 h2
        rw [ih, h2]
        cases hm : c.members with
        | nil => simp [hm] at h1
        | cons q qs => simp_all

end Cursor

namespace PositionSet

/-- The cursor before the least position. -/
def cursor (s : PositionSet) : Cursor where
  block := s.offset
  pending := s.word s.offset
  ahead := s.words.toList.tail

/-- The least `n` positions in ascending order, or all if there are fewer. -/
def take (s : PositionSet) (n : Nat) : List Nat :=
  s.cursor.take n

/-- The positions of words side by side are those of the first word, then those of the next one, and
so on. -/
theorem membersFrom_map_range' (word : Nat → Word) (k n : Nat) :
    Cursor.membersFrom k (word k) ((List.range' (k + 1) n).map word) =
      (List.range' k (n + 1)).flatMap fun j => (word j).bits.map (Word.width * j + ·) := by
  induction n generalizing k with
  | zero => simp [Cursor.membersFrom, List.range'_succ]
  | succ n ih =>
      rw [List.range'_succ, List.range'_succ, List.map_cons, Cursor.membersFrom, ih,
        List.flatMap_cons, List.range'_succ]

/-- A new cursor has all positions before it. -/
@[simp] theorem members_cursor (s : PositionSet) : s.cursor.members = s.toList := by
  have hahead : s.words.toList.tail =
      (List.range' (s.offset + 1) (s.words.size - 1)).map s.word := by
    rw [← map_word_range']
    cases h : s.words.size <;> simp [List.range'_succ]
  rw [Cursor.members, cursor, hahead, membersFrom_map_range']
  by_cases h : s.words.size = 0
  · simp [toList, h, word_of_size_eq_zero h, Cursor.bits_zero]
  · rw [Nat.sub_add_cancel (Nat.pos_of_ne_zero h)]
    rfl

/-- The least positions are the first ones of the list. -/
theorem take_eq (s : PositionSet) (n : Nat) : s.take n = s.toList.take n := by
  rw [take, Cursor.take_eq, members_cursor]

end PositionSet

end RegexPositions
