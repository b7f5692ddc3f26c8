import RegexPositions.PositionSet.Word
import Std.Data.HashSet

/-!
# Position sets

A `PositionSet` is a finite set of natural numbers, kept as a bit set over a window of words:
position `p` is bit `p % 64` of word `p / 64`, and only the words from that of the least
position to that of the greatest are stored. The window never starts or ends with a zero word
and the empty set has one representation, so two sets with the same positions are equal as
data; equality and hash need not look further.

`PositionSet.word` reads any word, inside or outside the window, and membership is a bit of a
word. The operations are `singleton`, `union`, `insert` and `ofList`; `add` and `absorb` also
say whether the set became larger. `size`, `max?`, `toList` and `take` read a set.
-/

namespace RegexPositions

/-- A **position set**: the words of a bit set from the first that is not zero to the last. -/
structure PositionSet where
  /-- The number of zero words before the window. -/
  offset : Nat
  /-- The words of the window. -/
  words : Array Word
  /-- The empty window starts at zero. -/
  offset_of_empty : words.size = 0 → offset = 0
  /-- The window does not start with a zero word. -/
  first_ne_zero : words[0]? ≠ some 0
  /-- The window does not end with a zero word. -/
  last_ne_zero : words[words.size - 1]? ≠ some 0
  deriving DecidableEq

namespace PositionSet

/-- The set without positions. -/
def empty : PositionSet where
  offset := 0
  words := #[]
  offset_of_empty := fun _ => rfl
  first_ne_zero := by simp
  last_ne_zero := by simp

instance : EmptyCollection PositionSet := ⟨empty⟩

instance : Inhabited PositionSet := ⟨∅⟩

instance : Hashable PositionSet := ⟨fun s => mixHash (hash s.offset) (hash s.words)⟩

/-- Has the set no position? -/
def isEmpty (s : PositionSet) : Bool :=
  s.words.isEmpty

/-- The number of the first word behind the window. -/
def bound (s : PositionSet) : Nat :=
  s.offset + s.words.size

/-- Word `k` of the bit set, which is zero outside the window. -/
def word (s : PositionSet) (k : Nat) : Word :=
  if s.offset ≤ k then s.words[k - s.offset]?.getD 0 else 0

/-- Is the position in the set? -/
def contains (s : PositionSet) (p : Nat) : Bool :=
  (s.word (p / Word.width)).bit (p % Word.width)

instance : Membership Nat PositionSet := ⟨fun s p => s.contains p = true⟩

instance (s : PositionSet) (p : Nat) : Decidable (p ∈ s) :=
  inferInstanceAs (Decidable (s.contains p = true))

/-- The set of one position. -/
def singleton (p : Nat) : PositionSet where
  offset := p / Word.width
  words := #[Word.single (p % Word.width)]
  offset_of_empty := by simp
  first_ne_zero := by simpa using Word.single_ne_zero (Nat.mod_lt p (by decide))
  last_ne_zero := by simpa using Word.single_ne_zero (Nat.mod_lt p (by decide))

/-- The first word of a window with words is not zero. -/
theorem word_offset_ne_zero {s : PositionSet} (h : s.words.size ≠ 0) : s.word s.offset ≠ 0 := by
  intro h0
  apply s.first_ne_zero
  rw [Array.getElem?_eq_getElem (Nat.pos_of_ne_zero h)]
  simpa [word, Array.getElem?_eq_getElem (Nat.pos_of_ne_zero h)] using h0

/-- The last word of a window with words is not zero. -/
theorem word_bound_pred_ne_zero {s : PositionSet} (h : s.words.size ≠ 0) :
    s.word (s.bound - 1) ≠ 0 := by
  intro h0
  have hlt : s.words.size - 1 < s.words.size := by omega
  apply s.last_ne_zero
  rw [Array.getElem?_eq_getElem hlt]
  have hle : s.offset ≤ s.bound - 1 := by simp only [bound]; omega
  have hsub : s.bound - 1 - s.offset = s.words.size - 1 := by simp only [bound]; omega
  simpa [word, hle, hsub, Array.getElem?_eq_getElem hlt] using h0

/-- The first word of the window that covers two sets. -/
def commonOffset (s t : PositionSet) : Nat :=
  min s.offset t.offset

/-- The number of the first word behind the window that covers two sets. -/
def commonBound (s t : PositionSet) : Nat :=
  max s.bound t.bound

/-- The words of two sets, joined, over the window that covers both. -/
def commonWords (s t : PositionSet) : Array Word :=
  Array.ofFn fun i : Fin (commonBound s t - commonOffset s t) =>
    s.word (commonOffset s t + i) ||| t.word (commonOffset s t + i)

/-- Each word over the common window is that of the two sets, joined. -/
theorem getElem?_commonWords {s t : PositionSet} {i : Nat}
    (hi : i < commonBound s t - commonOffset s t) :
    (commonWords s t)[i]? =
      some (s.word (commonOffset s t + i) ||| t.word (commonOffset s t + i)) := by
  simp [commonWords, hi]

/-- The window that covers two sets has words if that of the first set has. -/
theorem commonOffset_lt_commonBound {s : PositionSet} (t : PositionSet) (hs : s.words.size ≠ 0) :
    commonOffset s t < commonBound s t := by
  simp only [commonOffset, commonBound, bound]
  omega

/-- The positions of either set. -/
def union (s t : PositionSet) : PositionSet :=
  if hs : s.words.size = 0 then t
  else if ht : t.words.size = 0 then s
  else
    { offset := commonOffset s t
      words := commonWords s t
      offset_of_empty := by
        have := commonOffset_lt_commonBound t hs
        simp only [commonWords, Array.size_ofFn]
        omega
      first_ne_zero := by
        have hlt := commonOffset_lt_commonBound t hs
        rw [getElem?_commonWords (by omega), Nat.add_zero, Ne, Option.some_inj,
          UInt64.or_eq_zero_iff]
        rintro ⟨hs0, ht0⟩
        rcases Nat.le_total s.offset t.offset with h | h
        · exact word_offset_ne_zero hs (by rwa [commonOffset, Nat.min_eq_left h] at hs0)
        · exact word_offset_ne_zero ht (by rwa [commonOffset, Nat.min_eq_right h] at ht0)
      last_ne_zero := by
        have hlt := commonOffset_lt_commonBound t hs
        have hpred : commonOffset s t + (commonBound s t - commonOffset s t - 1) =
            commonBound s t - 1 := by omega
        rw [getElem?_commonWords (by simp only [commonWords, Array.size_ofFn]; omega)]
        simp only [commonWords, Array.size_ofFn, hpred]
        rw [Ne, Option.some_inj, UInt64.or_eq_zero_iff]
        rintro ⟨hs0, ht0⟩
        rcases Nat.le_total s.bound t.bound with h | h
        · exact word_bound_pred_ne_zero ht (by rwa [commonBound, Nat.max_eq_right h] at ht0)
        · exact word_bound_pred_ne_zero hs (by rwa [commonBound, Nat.max_eq_left h] at hs0) }

instance : Union PositionSet := ⟨union⟩

/-- The set with one more position. -/
def insert (s : PositionSet) (p : Nat) : PositionSet :=
  s ∪ singleton p

/-- The set with the positions of a list. -/
def insertMany (s : PositionSet) (ps : List Nat) : PositionSet :=
  ps.foldl insert s

/-- The set of the positions of a list. -/
def ofList (ps : List Nat) : PositionSet :=
  insertMany ∅ ps

/-- Is every position of the first set in the second? -/
def isSubset (s t : PositionSet) : Bool :=
  (List.range' s.offset s.words.size).all fun k => s.word k &&& t.word k == s.word k

/-- Adds a position, and says whether it is new. -/
def add (s : PositionSet) (p : Nat) : Bool × PositionSet :=
  (!s.contains p, s.insert p)

/-- Adds the positions of `t`, and says whether any of them is new. -/
def absorb (s t : PositionSet) : Bool × PositionSet :=
  (!t.isSubset s, s ∪ t)

/-- The number of positions. -/
def size (s : PositionSet) : Nat :=
  s.words.foldl (fun n w => n + w.count) 0

/-- The greatest position. -/
def max? (s : PositionSet) : Option Nat :=
  if s.isEmpty then none
  else some (Word.width * (s.bound - 1) + (s.word (s.bound - 1)).highest)

/-- The positions of word `k` of the bit set, in ascending order. -/
def block (s : PositionSet) (k : Nat) : List Nat :=
  (s.word k).bits.map (Word.width * k + ·)

/-- The positions in ascending order. -/
def toList (s : PositionSet) : List Nat :=
  (List.range' s.offset s.words.size).flatMap s.block

/-- The positions in ascending order, between braces. -/
instance : ToString PositionSet :=
  ⟨fun s => "\x7b" ++ ", ".intercalate (s.toList.map toString) ++ "\x7d"⟩

/-- The number of different sets in a list. -/
def distinctCount (sets : List PositionSet) : Nat :=
  (Std.HashSet.ofList sets).size

end PositionSet

end RegexPositions
