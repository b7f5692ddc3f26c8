import RegexPositions.PositionSet.Lemmas

/-!
# Windows That Grow in Place

A position set can be changed where it is kept: the window of words is widened with zero words
until it has room for what is added, and then the words are joined one by one. A `Window` is
what such a change works on. Nothing is promised about its words, so a careless step could leave
zero words at its ends, and two windows with the same positions need not be equal.

The steps are `Window.cover`, which widens a window downwards and then upwards, `Window.add` and
`Window.absorb`. Each is described by where the window lies and by its words (`offset_cover`,
`bound_cover`, `word_cover`, `word_absorb`), and windows that agree in these are equal
(`Window.ext_word`). On the windows of position sets the steps are `PositionSet.add` and
`PositionSet.absorb`, with what these report (`Window.add_window`, `Window.absorb_window`): what
is widened is filled up to both ends.
-/

namespace RegexPositions

/-- A mask tells whether its bit is set. -/
theorem Word.and_single_ne_zero {w : Word} {i : Nat} (hi : i < width) :
    (w &&& single i != 0) = w.bit i := by
  have hand : ∀ j < width, (w &&& single i).bit j = (w.bit j && decide (i = j)) := by
    intro j hj
    rw [← bit_single hi hj]
    simp [bit_eq_testBit hj]
  cases hb : w.bit i with
  | true =>
      rw [bne_iff_ne]
      intro h0
      have hbit := hand i hi
      rw [h0, bit_zero, hb] at hbit
      simp at hbit
  | false =>
      rw [bne_eq_false_iff_eq]
      apply ext_bit
      intro j hj
      rw [hand j hj, bit_zero]
      by_cases hij : i = j
      · rw [← hij, hb, Bool.false_and]
      · rw [decide_eq_false hij, Bool.and_false]

/-- Setting a bit changes a word that does not have it. -/
theorem Word.or_single_ne_self {w : Word} {i : Nat} (hi : i < width) :
    (w ||| single i != w) = !(w &&& single i != 0) := by
  have hor : w ||| single i = w ↔ w.bit i = true := by
    constructor
    · intro h
      have hbit := bit_or (v := w) (w := single i) hi
      rw [h, bit_single hi hi] at hbit
      simpa using hbit
    · intro hb
      apply ext_bit
      intro j hj
      rw [bit_or hj, bit_single hi hj]
      by_cases hij : i = j
      · rw [← hij, hb, Bool.true_or]
      · rw [decide_eq_false hij, Bool.or_false]
  rw [and_single_ne_zero hi]
  cases hb : w.bit i with
  | true => simp [hor, hb]
  | false => simp [hor, hb]

/-- A **window** of a bit set: the words from number `offset` on. -/
structure Window where
  /-- The number of the first word. -/
  offset : Nat
  /-- The words. -/
  words : Array Word
  deriving DecidableEq

namespace Window

/-! ### Steps -/

/-- The window of a new set. -/
def empty : Window := ⟨0, #[]⟩

/-- The window of a set of one position. -/
def singleton (p : Nat) : Window := ⟨p / Word.width, #[Word.single (p % Word.width)]⟩

/-- The number of the first word behind the window. -/
def bound (w : Window) : Nat := w.offset + w.words.size

/-- Word `k` of the bit set, which is zero outside the window. -/
def word (w : Window) (k : Nat) : Word :=
  if w.offset ≤ k then w.words[k - w.offset]?.getD 0 else 0

/-- The window with zero words put before it, so that it starts no later than with word `start`. -/
def coverFrom (w : Window) (start : Nat) : Window :=
  if start < w.offset then ⟨start, Array.replicate (w.offset - start) 0 ++ w.words⟩ else w

/-- The window with zero words put behind it, so that it ends no earlier than before word `stop`. -/
def coverTo (w : Window) (stop : Nat) : Window :=
  if w.bound < stop then ⟨w.offset, w.words ++ Array.replicate (stop - w.bound) 0⟩ else w

/-- The window, widened to the words from `start` to `stop`, the latter excluded. A window without
words is put there. -/
def cover (w : Window) (start stop : Nat) : Window :=
  if w.words.isEmpty then ⟨start, Array.replicate (stop - start) 0⟩
  else (w.coverFrom start).coverTo stop

/-- Sets the bit of a position, and says whether it was not set. -/
def add (w : Window) (p : Nat) : Bool × Window :=
  let wide := w.cover (p / Word.width) (p / Word.width + 1)
  let slot := p / Word.width - wide.offset
  let bit := Word.single (p % Word.width)
  (!(wide.words[slot]?.getD 0 &&& bit != 0), ⟨wide.offset, wide.words.modify slot (· ||| bit)⟩)

/-- Joins words to others in the same place, one by one, and says whether one of these changes. -/
def joinWords : List Word → List Word → Bool × List Word
  | mine :: others, theirs :: rest =>
      let joined := joinWords others rest
      (mine ||| theirs != mine || joined.1, (mine ||| theirs) :: joined.2)
  | words, _ => (false, words)

/-- Joins the words of another window to those in the same place, where there is room for them. -/
def join (w t : Window) : Bool × Window :=
  let start := t.offset - w.offset
  let joined := joinWords (w.words.toList.drop start) t.words.toList
  (joined.1, ⟨w.offset, (w.words.toList.take start ++ joined.2).toArray⟩)

/-- Sets the bits of another window, and says whether any of them was not set. -/
def absorb (w t : Window) : Bool × Window :=
  if t.words.isEmpty then (false, w) else (w.cover t.offset t.bound).join t

/-- Sets the bits of all positions of a list. -/
def extend (w : Window) (ps : List Nat) : Window :=
  ps.foldl (fun w p => (w.add p).2) w

/-- The window of a set from a list. -/
def ofList (ps : List Nat) : Window :=
  empty.extend ps

/-! ### Words -/

variable {w t : Window} {start stop k : Nat}

/-- A word of a window is looked up behind its offset. -/
theorem word_mk (offset : Nat) (words : Array Word) (k : Nat) :
    (Window.mk offset words).word k = if offset ≤ k then words[k - offset]?.getD 0 else 0 := rfl

/-- Before the window all words are zero. -/
theorem word_of_lt_offset (h : k < w.offset) : w.word k = 0 :=
  if_neg (Nat.not_le.mpr h)

/-- From the offset on, a word is looked up among the words of the window. -/
theorem word_of_offset_le (h : w.offset ≤ k) : w.word k = w.words[k - w.offset]?.getD 0 :=
  if_pos h

/-- A window does not end before it begins. -/
theorem offset_le_bound (w : Window) : w.offset ≤ w.bound :=
  Nat.le_add_right _ _

/-- Behind the window all words are zero. -/
theorem word_of_bound_le (h : w.bound ≤ k) : w.word k = 0 := by
  rw [bound] at h
  rw [word_of_offset_le (by omega), Array.getElem?_eq_none (by omega)]
  rfl

/-- Where the window has no words, all words are zero. -/
theorem word_of_size_eq_zero (h : w.words.size = 0) (k : Nat) : w.word k = 0 := by
  by_cases hk : w.offset ≤ k
  · exact word_of_bound_le (by rw [bound]; omega)
  · exact word_of_lt_offset (by omega)

/-- Windows that lie in the same place and have the same words are equal. -/
theorem ext_word (hoffset : w.offset = t.offset) (hbound : w.bound = t.bound)
    (hword : ∀ k, w.word k = t.word k) : w = t := by
  have hwords : w.words = t.words := by
    have hsize : w.words.size = t.words.size := by
      rw [bound, bound] at hbound
      omega
    apply Array.ext hsize
    intro i hi hi'
    have hk := hword (w.offset + i)
    rw [word_of_offset_le (Nat.le_add_right _ _),
      word_of_offset_le (by rw [hoffset]; exact Nat.le_add_right _ _), ← hoffset,
      Nat.add_sub_cancel_left, Array.getElem?_eq_getElem hi, Array.getElem?_eq_getElem hi'] at hk
    exact hk
  cases w
  cases t
  simp_all

/-! ### Widening -/

/-- Widened downwards, a window begins with word `start`, or where it began before if that is lower.
-/
theorem offset_coverFrom (w : Window) (start : Nat) :
    (w.coverFrom start).offset = min w.offset start := by
  rw [coverFrom]
  split
  · next h => exact (Nat.min_eq_right (Nat.le_of_lt h)).symm
  · next h => exact (Nat.min_eq_left (Nat.not_lt.mp h)).symm

/-- Widened downwards, a window ends where it ended. -/
theorem bound_coverFrom (w : Window) (start : Nat) : (w.coverFrom start).bound = w.bound := by
  rw [coverFrom]
  split
  · next h =>
      simp only [bound, Array.size_append, Array.size_replicate]
      omega
  · rfl

/-- Zero words before a window change no word. -/
theorem word_coverFrom (w : Window) (start k : Nat) : (w.coverFrom start).word k = w.word k := by
  rw [coverFrom]
  split
  · next h =>
      rw [word_mk, Array.getElem?_append, Array.size_replicate, Array.getElem?_replicate]
      by_cases hk : start ≤ k
      · rw [if_pos hk]
        by_cases hlt : k < w.offset
        · have hlt' : k - start < w.offset - start := by omega
          rw [if_pos hlt', if_pos hlt', word_of_lt_offset hlt]
          rfl
        · have hsub : k - start - (w.offset - start) = k - w.offset := by omega
          rw [if_neg (by omega), hsub, word_of_offset_le (Nat.not_lt.mp hlt)]
      · rw [if_neg hk, word_of_lt_offset (by omega)]
  · rfl

/-- Widened upwards, a window begins where it began. -/
theorem offset_coverTo (w : Window) (stop : Nat) : (w.coverTo stop).offset = w.offset := by
  rw [coverTo]
  split <;> rfl

/-- Widened upwards, a window ends before word `stop`, or where it ended before if that is higher.
-/
theorem bound_coverTo (w : Window) (stop : Nat) : (w.coverTo stop).bound = max w.bound stop := by
  rw [coverTo]
  split
  · next h =>
      rw [bound] at h
      simp only [bound, Array.size_append, Array.size_replicate]
      omega
  · next h => exact (Nat.max_eq_left (Nat.not_lt.mp h)).symm

/-- Zero words behind a window change no word. -/
theorem word_coverTo (w : Window) (stop k : Nat) : (w.coverTo stop).word k = w.word k := by
  rw [coverTo]
  split
  · rw [word_mk, word, Array.getElem?_append]
    by_cases hlt : k - w.offset < w.words.size
    · rw [if_pos hlt]
    · rw [if_neg hlt, Array.getElem?_replicate, Array.getElem?_eq_none (Nat.not_lt.mp hlt)]
      split
      · split <;> rfl
      · rfl
  · rfl

/-- A window without words is put where it is needed. -/
theorem cover_of_size_eq_zero (h : w.words.size = 0) :
    w.cover start stop = ⟨start, Array.replicate (stop - start) 0⟩ := by
  rw [cover, if_pos (Array.isEmpty_iff_size_eq_zero.mpr h)]

/-- A window with words is widened downwards and then upwards. -/
theorem cover_of_size_ne_zero (h : w.words.size ≠ 0) :
    w.cover start stop = (w.coverFrom start).coverTo stop := by
  rw [cover, if_neg (mt Array.isEmpty_iff_size_eq_zero.mp h)]

/-- A window with words is widened downwards as far as needed. -/
theorem offset_cover (h : w.words.size ≠ 0) : (w.cover start stop).offset = min w.offset start := by
  rw [cover_of_size_ne_zero h, offset_coverTo, offset_coverFrom]

/-- A window with words is widened upwards as far as needed. -/
theorem bound_cover (h : w.words.size ≠ 0) : (w.cover start stop).bound = max w.bound stop := by
  rw [cover_of_size_ne_zero h, bound_coverTo, bound_coverFrom]

/-- Widening changes no word. -/
theorem word_cover (w : Window) (start stop k : Nat) :
    (w.cover start stop).word k = w.word k := by
  by_cases h : w.words.size = 0
  · rw [cover_of_size_eq_zero h, word_of_size_eq_zero h, word]
    split
    · rw [Array.getElem?_replicate]
      split <;> rfl
    · rfl
  · rw [cover_of_size_ne_zero h, word_coverTo, word_coverFrom]

/-- A widened window has room for all that it was widened to. -/
theorem covers (w : Window) (h : start ≤ stop) :
    (w.cover start stop).offset ≤ start ∧ stop ≤ (w.cover start stop).bound := by
  by_cases hw : w.words.size = 0
  · rw [cover_of_size_eq_zero hw, bound]
    simp only [Array.size_replicate]
    omega
  · rw [offset_cover hw, bound_cover hw]
    exact ⟨Nat.min_le_right _ _, Nat.le_max_right _ _⟩

/-! ### Joining -/

/-- Joining leaves as many words. -/
theorem length_joinWords (words rest : List Word) :
    (joinWords words rest).2.length = words.length := by
  induction words generalizing rest with
  | nil => rfl
  | cons mine others ih =>
      cases rest with
      | nil => rfl
      | cons theirs rest => rw [joinWords, List.length_cons, ih, List.length_cons]

/-- Each word is joined to the one in the same place, if there is one. -/
theorem getElem?_joinWords (words rest : List Word) (i : Nat) :
    (joinWords words rest).2[i]? = words[i]?.map (· ||| rest[i]?.getD 0) := by
  induction words generalizing rest i with
  | nil => rfl
  | cons mine others ih =>
      cases rest with
      | nil => simp [joinWords]
      | cons theirs rest =>
          cases i with
          | zero => rfl
          | succ i => exact ih rest i

/-- Joining reports whether a word has changed. -/
theorem fst_joinWords {words rest : List Word} :
    (joinWords words rest).1 = true ↔ (joinWords words rest).2 ≠ words := by
  induction words generalizing rest with
  | nil => simp [joinWords]
  | cons mine others ih =>
      cases rest with
      | nil => simp [joinWords]
      | cons theirs rest =>
          simp only [joinWords, Bool.or_eq_true, bne_iff_ne, ih, ne_eq, List.cons.injEq,
            Decidable.not_and_iff_not_or_not]

/-- Joining from a place on leaves as many words. -/
theorem length_take_append_joinWords (words rest : List Word) (start : Nat) :
    (words.take start ++ (joinWords (words.drop start) rest).2).length = words.length := by
  rw [List.length_append, length_joinWords, ← List.length_append, List.take_append_drop]

/-- Joining from a place on leaves the words before it as they are. -/
theorem getElem?_take_append_joinWords {words rest : List Word} {start : Nat}
    (h : start ≤ words.length) (i : Nat) :
    (words.take start ++ (joinWords (words.drop start) rest).2)[i]? =
      words[i]?.map (· ||| if start ≤ i then rest[i - start]?.getD 0 else 0) := by
  rw [List.getElem?_append, List.length_take, Nat.min_eq_left h]
  by_cases hi : start ≤ i
  · rw [if_neg (Nat.not_lt.mpr hi), if_pos hi, getElem?_joinWords, List.getElem?_drop,
      Nat.add_sub_cancel' hi]
  · have hlt := Nat.not_le.mp hi
    rw [if_pos hlt, if_neg hi, List.getElem?_take_of_lt hlt]
    simp

/-- Joining leaves the window where it begins. -/
theorem offset_join (w t : Window) : (w.join t).2.offset = w.offset := rfl

/-- Joining leaves the window where it ends. -/
theorem bound_join (w t : Window) : (w.join t).2.bound = w.bound := by
  simp only [join, bound, List.size_toArray, length_take_append_joinWords, Array.length_toList]

/-- Where there is room, the words are joined. -/
theorem word_join (hoffset : w.offset ≤ t.offset) (hbound : t.bound ≤ w.bound) (k : Nat) :
    (w.join t).2.word k = w.word k ||| t.word k := by
  have hstart : t.offset - w.offset ≤ w.words.toList.length := by
    rw [bound, bound] at hbound
    rw [Array.length_toList]
    omega
  by_cases hk : w.offset ≤ k
  · rw [join, word_mk, if_pos hk, List.getElem?_toArray, getElem?_take_append_joinWords hstart,
      word_of_offset_le hk, Array.getElem?_toList, Array.getElem?_toList]
    have hword : (if t.offset - w.offset ≤ k - w.offset then
        t.words[k - w.offset - (t.offset - w.offset)]?.getD 0 else 0) = t.word k := by
      have hsub : k - w.offset - (t.offset - w.offset) = k - t.offset := by omega
      have hle : t.offset - w.offset ≤ k - w.offset ↔ t.offset ≤ k := by omega
      simp only [hsub, hle, word]
    rw [hword]
    cases hw : w.words[k - w.offset]? with
    | some mine => rfl
    | none =>
        -- Behind the window there are no words of the other one either.
        have hsize := Array.getElem?_eq_none_iff.mp hw
        have hlast : t.bound ≤ k := Nat.le_trans hbound (by rw [bound]; omega)
        rw [word_of_bound_le hlast]
        rfl
  · have hlt := Nat.not_le.mp hk
    rw [word_of_lt_offset (w := (w.join t).2) hlt, word_of_lt_offset hlt,
      word_of_lt_offset (Nat.lt_of_lt_of_le hlt hoffset), UInt64.or_zero]

/-- Joining reports whether the window has changed. -/
theorem fst_join : (w.join t).1 = true ↔ (w.join t).2 ≠ w := by
  have hjoined : (w.join t).2 = w ↔
      (joinWords (w.words.toList.drop (t.offset - w.offset)) t.words.toList).2 =
        w.words.toList.drop (t.offset - w.offset) := by
    obtain ⟨offset, ⟨words⟩⟩ := w
    simp only [join, mk.injEq, true_and, Array.mk.injEq]
    refine Iff.trans ?_ (List.append_right_inj (words.take (t.offset - offset)))
    rw [List.take_append_drop]
  rw [ne_eq, hjoined]
  exact fst_joinWords

/-- Where there is room, a window stays as it is if it has the bits of the other one. -/
theorem join_eq_self_iff (hoffset : w.offset ≤ t.offset) (hbound : t.bound ≤ w.bound) :
    (w.join t).2 = w ↔ ∀ k, w.word k ||| t.word k = w.word k := by
  simp only [← word_join hoffset hbound]
  constructor
  · intro h k
    rw [h]
  · exact ext_word (offset_join w t) (bound_join w t)

/-- A window without words adds nothing. -/
theorem absorb_of_size_eq_zero (h : t.words.size = 0) : w.absorb t = (false, w) := by
  rw [absorb, if_pos (Array.isEmpty_iff_size_eq_zero.mpr h)]

/-- For a window with words, room is made, and then the words are joined. -/
theorem absorb_of_size_ne_zero (h : t.words.size ≠ 0) :
    w.absorb t = (w.cover t.offset t.bound).join t := by
  rw [absorb, if_neg (mt Array.isEmpty_iff_size_eq_zero.mp h)]

/-- Absorbing joins the words. -/
theorem word_absorb (w t : Window) (k : Nat) : (w.absorb t).2.word k = w.word k ||| t.word k := by
  by_cases ht : t.words.size = 0
  · rw [absorb_of_size_eq_zero ht, word_of_size_eq_zero ht, UInt64.or_zero]
  · obtain ⟨hoffset, hbound⟩ := w.covers t.offset_le_bound
    rw [absorb_of_size_ne_zero ht, word_join hoffset hbound, word_cover]

/-- Where there is nothing to join, nothing changes. -/
theorem joinWords_nil (words : List Word) : joinWords words [] = (false, words) := by
  cases words <;> rfl

/-- Where there is room, joining one position sets its bit. -/
theorem join_singleton {p : Nat} (hoffset : w.offset ≤ p / Word.width)
    (hbound : p / Word.width < w.bound) :
    w.join (singleton p) =
      (!(w.words[p / Word.width - w.offset]?.getD 0 &&& Word.single (p % Word.width) != 0),
        ⟨w.offset,
          w.words.modify (p / Word.width - w.offset) (· ||| Word.single (p % Word.width))⟩) := by
  have hslot : p / Word.width - w.offset < w.words.size := by
    rw [bound] at hbound
    omega
  have hdrop := List.drop_eq_getElem_cons (show _ < w.words.toList.length from hslot)
  have hmodify : w.words.modify (p / Word.width - w.offset) (· ||| Word.single (p % Word.width)) =
      (w.words.toList.modify (p / Word.width - w.offset)
        (· ||| Word.single (p % Word.width))).toArray := by
    rw [← Array.toList_modify, Array.toArray_toList]
  simp only [join, singleton]
  rw [hdrop, joinWords, joinWords_nil, Bool.or_false, hmodify, List.modify_eq_take_cons_drop hslot,
    Word.or_single_ne_self (Nat.mod_lt p (by decide)), Array.getElem?_eq_getElem hslot]
  rfl

/-- A position is added like the set of that one position. -/
theorem add_eq_absorb (w : Window) (p : Nat) : w.add p = w.absorb (singleton p) := by
  have hsize : (singleton p).words.size ≠ 0 := by simp [singleton]
  obtain ⟨hoffset, hbound⟩ := w.covers (Nat.le_succ (p / Word.width))
  rw [absorb_of_size_ne_zero hsize, add]
  exact (join_singleton hoffset hbound).symm

end Window

/-! ### The windows of position sets -/

namespace PositionSet

/-- The window of a position set. -/
def window (s : PositionSet) : Window := ⟨s.offset, s.words⟩

variable {s t : PositionSet}

/-- The window of a set has the words of the set. -/
@[simp] theorem word_window (s : PositionSet) (k : Nat) : s.window.word k = s.word k := rfl

/-- A position set is its window. -/
theorem window_inj {s t : PositionSet} : s.window = t.window ↔ s = t := by
  refine ⟨fun h => ext_word fun k => ?_, fun h => h ▸ rfl⟩
  rw [← word_window, h, word_window]

/-- A set without words adds nothing. -/
theorem union_of_size_eq_zero (h : t.words.size = 0) : s ∪ t = s := by
  apply ext_word
  intro k
  rw [word_union, word_of_size_eq_zero h, UInt64.or_zero]

/-- Where both sets have positions, the window of the union reaches from the first word of either
to the last. -/
theorem union_of_size_ne_zero (hs : s.words.size ≠ 0) (ht : t.words.size ≠ 0) :
    (s ∪ t).offset = min s.offset t.offset ∧ (s ∪ t).bound = max s.bound t.bound := by
  have hlt := commonOffset_lt_commonBound t hs
  change (union s t).offset = commonOffset s t ∧ (union s t).bound = commonBound s t
  rw [union, dif_neg hs, dif_neg ht]
  refine ⟨rfl, ?_⟩
  simp only [bound, commonWords, Array.size_ofFn]
  omega

/-- A set grows by those of another exactly if some words change. -/
theorem forall_word_or_iff : (∀ k, s.word k ||| t.word k = s.word k) ↔ ∀ p ∈ t, p ∈ s := by
  simp only [← word_union]
  constructor
  · intro h p hp
    rw [← ext_word h]
    exact mem_union.mpr (.inr hp)
  · intro h k
    have hunion : s ∪ t = s := by
      ext p
      rw [mem_union]
      exact or_iff_left_of_imp (h p)
    rw [hunion]

end PositionSet

namespace Window

/-- Absorbing the window of a position set gives the window of the union. -/
theorem snd_absorb_window (s t : PositionSet) :
    (s.window.absorb t.window).2 = (s ∪ t).window := by
  have hword : ∀ k, (s.window.absorb t.window).2.word k = (s ∪ t).window.word k := fun k => by
    rw [word_absorb, PositionSet.word_window, PositionSet.word_window, PositionSet.word_window,
      PositionSet.word_union]
  by_cases ht : t.words.size = 0
  · rw [absorb_of_size_eq_zero (t := t.window) ht, PositionSet.union_of_size_eq_zero ht]
  have hle := t.window.offset_le_bound
  rw [absorb_of_size_ne_zero (t := t.window) ht] at hword ⊢
  refine ext_word ?_ ?_ hword
  · rw [offset_join]
    by_cases hs : s.words.size = 0
    · rw [cover_of_size_eq_zero (w := s.window) hs, PositionSet.union_comm,
        PositionSet.union_of_size_eq_zero hs]
    · rw [offset_cover (w := s.window) hs]
      exact (PositionSet.union_of_size_ne_zero hs ht).1.symm
  · rw [bound_join]
    by_cases hs : s.words.size = 0
    · rw [cover_of_size_eq_zero (w := s.window) hs, PositionSet.union_comm,
        PositionSet.union_of_size_eq_zero hs, bound, Array.size_replicate]
      exact Nat.add_sub_cancel' hle
    · rw [bound_cover (w := s.window) hs]
      exact (PositionSet.union_of_size_ne_zero hs ht).2.symm

/-- It tells whether a position is new. -/
theorem fst_absorb_window (s t : PositionSet) :
    (s.window.absorb t.window).1 = true ↔ ¬∀ p ∈ t, p ∈ s := by
  by_cases ht : t.words.size = 0
  · rw [absorb_of_size_eq_zero (t := t.window) ht]
    refine iff_of_false Bool.false_ne_true (not_not_intro fun p hp => ?_)
    exact absurd hp (PositionSet.isEmpty_iff.mp (Array.isEmpty_iff_size_eq_zero.mpr ht) p)
  · obtain ⟨hoffset, hbound⟩ := s.window.covers t.window.offset_le_bound
    rw [absorb_of_size_ne_zero (t := t.window) ht, fst_join, ne_eq,
      join_eq_self_iff hoffset hbound, ← PositionSet.forall_word_or_iff]
    simp only [word_cover, PositionSet.word_window]

/-- On the windows of position sets, absorbing in place is absorbing. -/
theorem absorb_window (s t : PositionSet) :
    s.window.absorb t.window = ((s.absorb t).1, (s.absorb t).2.window) := by
  refine Prod.ext ?_ (snd_absorb_window s t)
  rw [Bool.eq_iff_iff, fst_absorb_window, PositionSet.fst_absorb]

/-- On the window of a position set, adding in place is adding. -/
theorem add_window (s : PositionSet) (p : Nat) :
    s.window.add p = ((s.add p).1, (s.add p).2.window) := by
  rw [add_eq_absorb]
  refine Prod.ext ?_ (snd_absorb_window s (.singleton p))
  rw [Bool.eq_iff_iff, PositionSet.fst_add]
  refine (fst_absorb_window s (.singleton p)).trans ?_
  simp only [PositionSet.mem_singleton, forall_eq]

/-- Adding many positions in place is adding many. -/
theorem extend_window (s : PositionSet) (ps : List Nat) :
    s.window.extend ps = (s.insertMany ps).window := by
  induction ps generalizing s with
  | nil => rfl
  | cons p ps ih =>
      rw [extend, List.foldl_cons, add_window]
      exact ih (s.insert p)

/-- The window of a list is the window of the set of the list. -/
theorem ofList_eq (ps : List Nat) : ofList ps = (PositionSet.ofList ps).window :=
  extend_window ∅ ps

end Window

end RegexPositions
