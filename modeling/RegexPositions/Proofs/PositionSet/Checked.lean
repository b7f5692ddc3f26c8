import RegexPositions.Proofs.PositionSet.Walk

/-!
# Machine Numbers

Positions, the place of a window and the sizes of its words are numbers of 64 bits on a machine,
and not every difference, sum or shift of such numbers is one. Here are the steps on windows and
the calls of a walk once more, with every machine operation **checked**: each of them refuses
operands whose result is out of range, and so do look-ups an index that the words do not have
(`Fault`).

* `Window.addChecked_eq`, `Window.absorbChecked_eq` — if the windows end in range, checked steps
  refuse nothing and come to the same as the plain ones: once a window is widened, it has the words
  that are then looked up. `Window.containsChecked_eq` needs not even that;
* `Walk.callChecked_eq` — so do checked calls of a walk, as long as it can count on. Only calls
  behind the last position count beyond the words (`Walk.reach_stateAfter`);
* `Checked.positionAt_split` — a position can be put together again from the parts it is split into.
-/

namespace RegexPositions

/-- What a **checked** operation refuses. -/
inductive Fault where
  /-- A sum or a product that has more than 64 bits. -/
  | overflow (n : Nat)
  /-- A difference below zero. -/
  | underflow (a b : Nat)
  /-- A shift by as many bits as a word has, or more. -/
  | shift (amount : Nat)
  /-- An index, or the start of a slice, beyond the words. -/
  | index (i size : Nat)
  deriving DecidableEq, Repr

/-! ### Checked operations -/

namespace Checked

/-- A number, which must have at most 64 bits. -/
def fit (n : Nat) : Except Fault Nat :=
  if n < 2 ^ 64 then .ok n else .error (.overflow n)

/-- The sum of two numbers, which must have at most 64 bits. -/
def add (a b : Nat) : Except Fault Nat := fit (a + b)

/-- The product of two numbers, which must have at most 64 bits. -/
def mul (a b : Nat) : Except Fault Nat := fit (a * b)

/-- The difference of two numbers, which must not be below zero. -/
def sub (a b : Nat) : Except Fault Nat :=
  if b ≤ a then .ok (a - b) else .error (.underflow a b)

/-- The number before that of a word, as a word. -/
def pred (w : Word) : Except Fault Word :=
  if 1 ≤ w then .ok (w - 1) else .error (.underflow w.toNat 1)

/-- A word shifted up by less than its width. -/
def shiftLeft (w : Word) (amount : Nat) : Except Fault Word :=
  if amount < Word.width then .ok (w <<< amount.toUInt64) else .error (.shift amount)

/-- The word at an index, which must be in range. -/
def get (words : Array Word) (i : Nat) : Except Fault Word :=
  match words[i]? with
  | some w => .ok w
  | none => .error (.index i words.size)

/-- The words from an index on, which must not be beyond their end. -/
def slice (words : Array Word) (start : Nat) : Except Fault (List Word) :=
  if start ≤ words.size then .ok (words.toList.drop start) else .error (.index start words.size)

/-- The word of a position, by its number, and the word whose only bit is that of the position. -/
def split (p : Nat) : Except Fault (Nat × Word) := do
  let bit ← shiftLeft 1 (p % Word.width)
  return (p / Word.width, bit)

/-- The position of bit `bit` of word `word`, put together again. -/
def position (word bit : Nat) : Except Fault Nat := do
  let first ← mul word Word.width
  add first bit

/-- The position of a bit of the word at an index, where the first word has number `offset`. -/
def positionAt (offset index bit : Nat) : Except Fault Nat := do
  let word ← add offset index
  position word bit

variable {a b n p word offset index bit : Nat}

/-- What follows a checked operation that refuses nothing goes on with its result. -/
@[simp] theorem ok_bind {α β : Type} (a : α) (f : α → Except Fault β) :
    (Except.ok a >>= f) = f a := rfl

/-- A number of at most 64 bits is not refused. -/
theorem fit_of_lt (h : n < 2 ^ 64) : fit n = .ok n := if_pos h

/-- A sum of at most 64 bits is not refused. -/
theorem add_of_lt (h : a + b < 2 ^ 64) : add a b = .ok (a + b) := fit_of_lt h

/-- A product of at most 64 bits is not refused. -/
theorem mul_of_lt (h : a * b < 2 ^ 64) : mul a b = .ok (a * b) := fit_of_lt h

/-- A difference that is not below zero is not refused. -/
theorem sub_of_le (h : b ≤ a) : sub a b = .ok (a - b) := if_pos h

/-- A sum that is not refused is the sum. -/
theorem add_eq_ok {c : Nat} (h : add a b = .ok c) : c = a + b := by
  rw [add, fit] at h
  split at h
  · exact (Except.ok.inj h).symm
  · cases h

/-- A word that is not zero has a number before it. -/
theorem pred_of_ne_zero {w : Word} (h : w ≠ 0) : pred w = .ok (w - 1) :=
  if_pos (Word.one_le h)

/-- An index below the number of words is not refused. -/
theorem get_of_lt {words : Array Word} {i : Nat} (h : i < words.size) :
    get words i = .ok words[i] := by
  rw [get, Array.getElem?_eq_getElem h]

/-- A slice that starts at the end of the words, or before, is not refused. -/
theorem slice_of_le {words : Array Word} {start : Nat} (h : start ≤ words.size) :
    slice words start = .ok (words.toList.drop start) := if_pos h

/-- Splitting a position refuses nothing. -/
theorem split_eq (p : Nat) : split p = .ok (p / Word.width, Word.single (p % Word.width)) := by
  rw [split, shiftLeft, if_pos (Nat.mod_lt p (by decide))]
  rfl

/-- A position can be put together if its word is one of the first `2 ^ 58`. -/
theorem position_eq (hword : word < 2 ^ 58) (hbit : bit < Word.width) :
    position word bit = .ok (word * Word.width + bit) := by
  have hlt : word * Word.width + bit < 2 ^ 64 := by
    simp only [Word.width] at hbit ⊢
    omega
  rw [position, mul_of_lt (by omega), ok_bind, add_of_lt hlt]

/-- A position can be put together from an index if its word is one of the first `2 ^ 58`. -/
theorem positionAt_eq (hindex : offset + index < 2 ^ 58) (hbit : bit < Word.width) :
    positionAt offset index bit = .ok ((offset + index) * Word.width + bit) := by
  rw [positionAt, add_of_lt (by omega), ok_bind, position_eq hindex hbit]

/-- What is split is put together again. -/
theorem positionAt_split (hp : p < 2 ^ 64) (hoffset : offset ≤ p / Word.width) :
    positionAt offset (p / Word.width - offset) (p % Word.width) = .ok p := by
  have hword : p / Word.width < 2 ^ 58 := by
    simp only [Word.width]
    omega
  rw [positionAt_eq (by omega) (Nat.mod_lt p (by decide)), Nat.add_sub_cancel' hoffset,
    Nat.mul_comm, Nat.div_add_mod]

end Checked

/-! ### Checked steps -/

namespace Window

/-- Puts zero words before a window, with checks. -/
def coverFromChecked (w : Window) (start : Nat) : Except Fault Window :=
  if start < w.offset then do
    let gap ← Checked.sub w.offset start
    return ⟨start, Array.replicate gap 0 ++ w.words⟩
  else return w

/-- Resizes the words of a window: cuts words off, or puts zero words behind. -/
def resize (w : Window) (size : Nat) : Window :=
  ⟨w.offset, w.words.take size ++ Array.replicate (size - w.words.size) 0⟩

/-- Puts zero words behind a window, with checks. -/
def coverToChecked (w : Window) (stop : Nat) : Except Fault Window := do
  let bound ← Checked.add w.offset w.words.size
  if bound < stop then
    let size ← Checked.sub stop w.offset
    return w.resize size
  else return w

/-- Widens a window, with checks. -/
def coverChecked (w : Window) (start stop : Nat) : Except Fault Window :=
  if w.words.isEmpty then do
    let size ← Checked.sub stop start
    return resize ⟨start, w.words⟩ size
  else do
    let low ← w.coverFromChecked start
    low.coverToChecked stop

/-- Sets the bit of a position, with checks. -/
def addChecked (w : Window) (p : Nat) : Except Fault (Bool × Window) := do
  let (word, bit) ← Checked.split p
  let stop ← Checked.add word 1
  let wide ← w.coverChecked word stop
  let slot ← Checked.sub word wide.offset
  let mine ← Checked.get wide.words slot
  return (!(mine &&& bit != 0), ⟨wide.offset, wide.words.modify slot (· ||| bit)⟩)

/-- Is the bit of a position set? The word of the position may lie outside the window. -/
def containsChecked (w : Window) (p : Nat) : Except Fault Bool := do
  let (word, bit) ← Checked.split p
  let mine := if w.offset ≤ word then w.words[word - w.offset]? else none
  return mine.any fun word => word &&& bit != 0

/-- Sets the bits of another window, with checks. -/
def absorbChecked (w t : Window) : Except Fault (Bool × Window) :=
  if t.words.isEmpty then return (false, w)
  else do
    let stop ← Checked.add t.offset t.words.size
    let wide ← w.coverChecked t.offset stop
    let start ← Checked.sub t.offset wide.offset
    let mine ← Checked.slice wide.words start
    let joined := joinWords mine t.words.toList
    return (joined.1, ⟨wide.offset, (wide.words.toList.take start ++ joined.2).toArray⟩)

/-- Sets the bits of all positions of a list, with checks. -/
def extendChecked (w : Window) (ps : List Nat) : Except Fault Window :=
  ps.foldlM (fun w p => return (← w.addChecked p).2) w

variable {w t : Window} {start stop p : Nat}

/-- Putting zero words before a window refuses nothing. -/
theorem coverFromChecked_eq (w : Window) (start : Nat) :
    w.coverFromChecked start = .ok (w.coverFrom start) := by
  rw [coverFromChecked, coverFrom]
  split
  · next h =>
      rw [Checked.sub_of_le (Nat.le_of_lt h)]
      rfl
  · rfl

/-- Words that are not cut off stay as they are, with zero words behind them. -/
theorem resize_of_le {size : Nat} (h : w.words.size ≤ size) :
    w.resize size = ⟨w.offset, w.words ++ Array.replicate (size - w.words.size) 0⟩ := by
  rw [resize, Array.take_eq_extract, Array.extract_eq_self_of_le h]

/-- Putting zero words behind a window refuses nothing if the window ends in range. -/
theorem coverToChecked_eq (h : w.bound < 2 ^ 64) :
    w.coverToChecked stop = .ok (w.coverTo stop) := by
  rw [coverToChecked, Checked.add_of_lt h, Checked.ok_bind, coverTo]
  change (if w.bound < stop then _ else _) = _
  split
  · next hlt =>
      have hle : w.offset ≤ stop := Nat.le_trans w.offset_le_bound (Nat.le_of_lt hlt)
      have hsize : w.words.size ≤ stop - w.offset := by
        rw [bound] at hlt
        omega
      rw [Checked.sub_of_le hle, Checked.ok_bind, resize_of_le hsize, Nat.sub_sub]
      rfl
  · rfl

/-- Widening refuses nothing if the window ends in range. -/
theorem coverChecked_eq (hbound : w.bound < 2 ^ 64) (hle : start ≤ stop) :
    w.coverChecked start stop = .ok (w.cover start stop) := by
  rw [coverChecked, cover]
  split
  · next hempty =>
      rw [Checked.sub_of_le hle, Checked.ok_bind, resize_of_le (by simp_all)]
      simp_all [pure, Except.pure]
  · rw [coverFromChecked_eq, Checked.ok_bind, coverToChecked_eq]
    rwa [bound_coverFrom]

/-- Asking for a position refuses nothing, wherever the window lies. -/
theorem containsChecked_eq (w : Window) (p : Nat) :
    w.containsChecked p = .ok ((w.word (p / Word.width)).bit (p % Word.width)) := by
  rw [containsChecked, Checked.split_eq, Checked.ok_bind, word]
  by_cases hle : w.offset ≤ p / Word.width
  · simp only [if_pos hle]
    cases w.words[p / Word.width - w.offset]? with
    | none =>
        rw [Option.getD_none, Word.bit_zero]
        rfl
    | some mine =>
        rw [Option.any_some, Word.and_single_ne_zero (Nat.mod_lt p (by decide))]
        rfl
  · simp only [if_neg hle, Word.bit_zero]
    rfl

/-- Setting a bit refuses nothing if the window ends in range and the position is. -/
theorem addChecked_eq (hbound : w.bound < 2 ^ 64) (hp : p < 2 ^ 64) :
    w.addChecked p = .ok (w.add p) := by
  have hword : p / Word.width + 1 < 2 ^ 64 := by
    simp only [Word.width]
    omega
  obtain ⟨hstart, hstop⟩ := w.covers (Nat.le_add_right (p / Word.width) 1)
  have hslot : p / Word.width - (w.cover (p / Word.width) (p / Word.width + 1)).offset <
      (w.cover (p / Word.width) (p / Word.width + 1)).words.size := by
    rw [bound] at hstop
    omega
  simp only [addChecked, Checked.split_eq, Checked.ok_bind, Checked.add_of_lt hword,
    coverChecked_eq hbound (Nat.le_add_right _ 1), Checked.sub_of_le hstart,
    Checked.get_of_lt hslot, add, Array.getElem?_eq_getElem hslot]
  rfl

/-- Setting the bits of another window refuses nothing if both windows end in range. -/
theorem absorbChecked_eq (hw : w.bound < 2 ^ 64) (ht : t.bound < 2 ^ 64) :
    w.absorbChecked t = .ok (w.absorb t) := by
  rw [absorbChecked, absorb]
  split
  · rfl
  · obtain ⟨hstart, hstop⟩ := w.covers t.offset_le_bound
    have hslice : t.offset - (w.cover t.offset t.bound).offset ≤
        (w.cover t.offset t.bound).words.size := by
      have hle := Nat.le_trans t.offset_le_bound hstop
      rw [bound] at hle
      omega
    rw [Checked.add_of_lt ht, Checked.ok_bind, ← bound, coverChecked_eq hw t.offset_le_bound,
      Checked.ok_bind, Checked.sub_of_le hstart, Checked.ok_bind, Checked.slice_of_le hslice]
    rfl

end Window

/-! ### Checked readings -/

namespace Word

/-- The number of zero bits above the highest bit that is set; `width` if none is. -/
def leadingZeros (w : Word) : Nat :=
  ((List.range width).find? fun i => w.bit (width - 1 - i)).getD width

/-- The zero bits above the highest bit are all the bits that are higher. -/
theorem leadingZeros_eq {w : Word} (h : w ≠ 0) : w.leadingZeros = width - 1 - w.highest := by
  have hlt := highest_lt h
  have hfind : (List.range width).find? (fun i => w.bit (width - 1 - i)) =
      some (width - 1 - w.highest) := by
    rw [List.find?_range_eq_some]
    refine ⟨?_, List.mem_range.mpr (by omega), fun i hi => ?_⟩
    · rw [show width - 1 - (width - 1 - w.highest) = w.highest by omega, bit_highest h]
    · rw [Bool.not_eq_true', ← Bool.not_eq_true]
      intro hbit
      have hle := le_highest (by omega) hbit
      omega
  rw [leadingZeros, hfind, Option.getD_some]

end Word

namespace Window

/-- The greatest position, with checks. -/
def maxChecked (w : Window) : Except Fault (Option Nat) :=
  match w.words.back? with
  | none => return none
  | some last => do
      let bound ← Checked.add w.offset w.words.size
      let word ← Checked.sub bound 1
      let top ← Checked.sub Word.width 1
      let bit ← Checked.sub top last.leadingZeros
      return some (← Checked.position word bit)

/-- The number of positions, counted with checks. -/
def sizeChecked (w : Window) : Except Fault Nat :=
  w.words.toList.foldlM (fun n word => Checked.add n word.count) 0

end Window

namespace Walk

/-- The next position, if one is left, and the walk behind it, with checks. -/
def nextChecked (walk : Walk) : Except Fault (Option Nat × Walk) :=
  if walk.current = 0 then
    match _ : Checked.add walk.index 1 with
    | .error fault => .error fault
    | .ok index =>
        match _ : walk.words[index]? with
        | none => return (none, { walk with index })
        | some word => nextChecked { walk with index, current := word }
  else do
    let others ← Checked.pred walk.current
    let p ← Checked.positionAt walk.offset walk.index walk.current.lowest
    return (some p, { walk with current := walk.current &&& others })
termination_by walk.words.size - walk.index
decreasing_by
  have hindex := Checked.add_eq_ok ‹Checked.add walk.index 1 = _›
  have hlt := (Array.getElem?_eq_some_iff.mp ‹walk.words[index]? = some _›).1
  omega

/-- What call number `k` gives and leaves, all calls up to it with checks. -/
def callChecked (walk : Walk) : Nat → Except Fault (Option Nat × Walk)
  | 0 => walk.nextChecked
  | k + 1 => do
      let (_, after) ← walk.callChecked k
      after.nextChecked

/-- A walk **in range**: the window ends in time, and bits that are left are those of a word. -/
structure InRange (walk : Walk) : Prop where
  /-- There is no word behind the first `2 ^ 58`. -/
  bound_le : walk.offset + walk.words.size ≤ 2 ^ 58
  /-- Where bits are left, the current word is one of the window. -/
  index_lt : walk.current ≠ 0 → walk.index < walk.words.size

variable {walk : Walk} {word : Word}

/-- Where the current word has no bits left, a checked call goes on with the next word. -/
theorem nextChecked_of_current_eq_zero (h : walk.current = 0) (hindex : walk.index + 1 < 2 ^ 64)
    (hword : walk.words[walk.index + 1]? = some word) :
    walk.nextChecked = { walk with index := walk.index + 1, current := word }.nextChecked := by
  rw [nextChecked, if_pos h]
  split
  · next fault hadd => simp [Checked.add_of_lt hindex] at hadd
  · next index hadd =>
      obtain rfl := Checked.add_eq_ok hadd
      split <;> simp_all

/-- Where there is no next word either, a checked call only counts on. -/
theorem nextChecked_of_words_end (h : walk.current = 0) (hindex : walk.index + 1 < 2 ^ 64)
    (hword : walk.words[walk.index + 1]? = none) :
    walk.nextChecked = .ok (none, { walk with index := walk.index + 1 }) := by
  rw [nextChecked, if_pos h]
  split
  · next fault hadd => simp [Checked.add_of_lt hindex] at hadd
  · next index hadd =>
      obtain rfl := Checked.add_eq_ok hadd
      split
      · rfl
      · simp_all

/-- Going on to the next word stays in range. -/
theorem InRange.advance (h : walk.InRange) (hword : walk.words[walk.index + 1]? = some word) :
    Walk.InRange { walk with index := walk.index + 1, current := word } :=
  ⟨h.bound_le, fun _ => (Array.getElem?_eq_some_iff.mp hword).1⟩

/-- A checked call refuses nothing as long as the walk can count on. -/
theorem nextChecked_eq (h : walk.InRange) (hindex : walk.index + 1 < 2 ^ 64) :
    walk.nextChecked = .ok walk.next := by
  induction walk using next.induct with
  | case1 walk hzero hword =>
      rw [nextChecked_of_words_end hzero hindex hword, next_of_words_end hzero hword]
  | case2 walk hzero word hword ih =>
      have hlt := (Array.getElem?_eq_some_iff.mp hword).1
      have hbound := h.bound_le
      rw [nextChecked_of_current_eq_zero hzero hindex hword, next_of_current_eq_zero hzero hword]
      exact ih (h.advance hword) (by simp only; omega)
  | case3 walk hzero =>
      have hlt := h.index_lt hzero
      have hbound := h.bound_le
      rw [nextChecked, if_neg hzero, next_of_current_ne_zero hzero, Checked.pred_of_ne_zero hzero,
        Checked.ok_bind, Checked.positionAt_eq (by omega) (Word.lowest_lt hzero)]
      rfl

/-- A call leaves a walk in range. -/
theorem InRange.snd_next (h : walk.InRange) : walk.next.2.InRange := by
  induction walk using next.induct with
  | case1 walk hzero hword =>
      rw [next_of_words_end hzero hword]
      exact ⟨h.bound_le, fun hcurrent => absurd hzero hcurrent⟩
  | case2 walk hzero word hword ih =>
      rw [next_of_current_eq_zero hzero hword]
      exact ih (h.advance hword)
  | case3 walk hzero =>
      rw [next_of_current_ne_zero hzero]
      exact ⟨h.bound_le, fun _ => h.index_lt hzero⟩

/-- Any number of calls leave a walk in range. -/
theorem InRange.after (h : walk.InRange) (k : Nat) : (stateAfter next k walk).InRange := by
  induction k with
  | zero => exact h
  | succ k ih =>
      rw [stateAfter_succ]
      exact ih.snd_next

/-- A call behind `k` others refuses nothing as long as the walk can count on. -/
theorem nextChecked_stateAfter (h : walk.InRange) {k : Nat}
    (hk : walk.reach + (k - walk.members.length) < 2 ^ 64) :
    (stateAfter next k walk).nextChecked = .ok (stateAfter next k walk).next := by
  have hindex : (stateAfter next k walk).index + 1 ≤ walk.reach + (k - walk.members.length) :=
    Nat.le_trans (Nat.le_max_right _ _) (walk.reach_stateAfter k)
  exact nextChecked_eq (h.after k) (Nat.lt_of_le_of_lt hindex hk)

/-- Checked calls refuse nothing as long as the walk can count on. -/
theorem callChecked_eq (h : walk.InRange) {k : Nat}
    (hk : walk.reach + (k - walk.members.length) < 2 ^ 64) :
    walk.callChecked k = .ok (walk.members[k]?, stateAfter next (k + 1) walk) := by
  rw [← next_stateAfter]
  induction k with
  | zero => exact nextChecked_stateAfter h hk
  | succ k ih =>
      rw [callChecked, ih (by omega), next_stateAfter, Checked.ok_bind]
      exact nextChecked_stateAfter h hk

end Walk

end RegexPositions
