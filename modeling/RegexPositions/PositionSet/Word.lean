/-!
# Words

A `Word` is a set of at most 64 numbers below 64, one bit each. `Word.bit` is the view: the
other operations are described by the bits of their result (`bit_single`, `bit_or`,
`bit_clear`, `mem_bits`), and two words with the same bits are equal (`Word.ext_bit`).
-/

namespace RegexPositions

/-- A **word** of 64 bits. -/
abbrev Word := UInt64

namespace Word

/-- The number of bits of a word. -/
abbrev width : Nat := 64

/-- Is bit `i` set? Meant for `i < width`. -/
def bit (w : Word) (i : Nat) : Bool :=
  (w >>> i.toUInt64) &&& 1 != 0

/-- The word whose only bit is bit `i`. Meant for `i < width`. -/
def single (i : Nat) : Word :=
  1 <<< i.toUInt64

/-- The word without bit `i`. Meant for `i < width`. -/
def clear (w : Word) (i : Nat) : Word :=
  w &&& ~~~single i

/-- The numbers of the bits that are set, in ascending order. -/
def bits (w : Word) : List Nat :=
  (List.range width).filter w.bit

/-- The number of bits that are set. -/
def count (w : Word) : Nat :=
  (List.range width).countP w.bit

/-- The number of the lowest bit that is set; `width` if none is. -/
def lowest (w : Word) : Nat :=
  ((List.range width).find? w.bit).getD width

/-- The number of the highest bit that is set; 0 if none is. -/
def highest (w : Word) : Nat :=
  w.toNat.log2

/-- A bit number, made a word and reduced as a shift reduces it, is still itself. -/
theorem toNat_toUInt64_mod {i : Nat} (hi : i < width) : i.toUInt64.toNat % 64 = i := by
  simp [Nat.toUInt64, Nat.mod_eq_of_lt hi]

/-- The bits of a word are those of the number it holds. -/
theorem bit_eq_testBit {w : Word} {i : Nat} (hi : i < width) : w.bit i = w.toNat.testBit i := by
  have h1 : (((w >>> i.toUInt64) &&& 1 : UInt64) == 0) =
      (((w >>> i.toUInt64) &&& 1 : UInt64).toNat == 0) := by
    rw [Bool.eq_iff_iff]
    simp [← UInt64.toNat_inj]
  rw [bit, bne, h1, UInt64.toNat_and, UInt64.toNat_shiftRight, toNat_toUInt64_mod hi]
  simp [Nat.testBit, bne, Nat.and_comm]

/-- Words with the same bits are equal. -/
theorem ext_bit {v w : Word} (h : ∀ i < width, v.bit i = w.bit i) : v = w := by
  apply UInt64.toNat_inj.mp
  apply Nat.eq_of_testBit_eq
  intro i
  by_cases hi : i < width
  · rw [← bit_eq_testBit hi, ← bit_eq_testBit hi, h i hi]
  · have hle : 2 ^ 64 ≤ 2 ^ i := Nat.pow_le_pow_right (by decide) (Nat.not_lt.mp hi)
    rw [Nat.testBit_lt_two_pow (Nat.lt_of_lt_of_le v.toNat_lt hle),
      Nat.testBit_lt_two_pow (Nat.lt_of_lt_of_le w.toNat_lt hle)]

/-- The zero word has no bit set. -/
@[simp] theorem bit_zero (i : Nat) : (0 : Word).bit i = false := by
  simp [bit]

/-- The bits of two words joined are those of either. -/
theorem bit_or {v w : Word} {i : Nat} (hi : i < width) :
    (v ||| w).bit i = (v.bit i || w.bit i) := by
  simp [bit_eq_testBit hi]

/-- The word of one bit has that bit alone. -/
theorem bit_single {i j : Nat} (hi : i < width) (hj : j < width) :
    (single i).bit j = decide (i = j) := by
  rw [bit_eq_testBit hj, single, UInt64.toNat_shiftLeft, toNat_toUInt64_mod hi]
  have hlt : 2 ^ i < 2 ^ 64 := Nat.pow_lt_pow_right (by decide) hi
  rw [show (1 : UInt64).toNat = 1 from rfl, Nat.one_shiftLeft, Nat.mod_eq_of_lt hlt,
    Nat.testBit_two_pow]

/-- Clearing a bit leaves the other bits as they are. -/
theorem bit_clear {w : Word} {i j : Nat} (hi : i < width) (hj : j < width) :
    (w.clear i).bit j = (w.bit j && decide (i ≠ j)) := by
  have hnot : (~~~single i).bit j = !(single i).bit j := by
    rw [bit_eq_testBit hj, bit_eq_testBit hj, UInt64.toNat_not,
      show UInt64.size - 1 - (single i).toNat = 2 ^ 64 - ((single i).toNat + 1) by
        simp only [UInt64.size]; omega,
      Nat.testBit_two_pow_sub_succ (single i).toNat_lt]
    simp [hj]
  have hand : (w.clear i).bit j = (w.bit j && (~~~single i).bit j) := by
    simp only [clear, bit_eq_testBit hj, UInt64.toNat_and, Nat.testBit_and]
  rw [hand, hnot, bit_single hi hj]
  simp

/-- The word of one bit is not zero. -/
theorem single_ne_zero {i : Nat} (hi : i < width) : single i ≠ 0 := by
  intro h
  have := bit_single hi hi
  rw [h, bit_zero] at this
  simp at this

/-- A word that is not zero has a bit set. -/
theorem exists_bit {w : Word} (h : w ≠ 0) : ∃ i < width, w.bit i = true := by
  apply Classical.byContradiction
  intro hnone
  apply h
  apply ext_bit
  intro i hi
  rw [bit_zero]
  exact Bool.eq_false_iff.mpr fun hb => hnone ⟨i, hi, hb⟩

/-- The list of bits has the numbers of the bits that are set. -/
theorem mem_bits {w : Word} {i : Nat} : i ∈ w.bits ↔ i < width ∧ w.bit i = true := by
  simp [bits]

/-- The count of bits is the length of their list. -/
theorem length_bits (w : Word) : w.bits.length = w.count :=
  List.countP_eq_length_filter.symm

/-- The list of bits ascends. -/
theorem pairwise_bits (w : Word) : w.bits.Pairwise (· < ·) :=
  List.pairwise_lt_range.filter _

/-- Looking for a set bit from 0 on finds the lowest one, if there is any. -/
theorem find?_range_lowest {w : Word} (h : w ≠ 0) :
    (List.range width).find? w.bit = some w.lowest := by
  obtain ⟨i, hi, hb⟩ := exists_bit h
  cases hf : (List.range width).find? w.bit with
  | none => simp_all
  | some l => simp [lowest, hf]

/-- The lowest bit of a word that is not zero is a bit of the word. -/
theorem lowest_lt {w : Word} (h : w ≠ 0) : w.lowest < width :=
  List.mem_range.mp (List.mem_of_find?_eq_some (find?_range_lowest h))

/-- The lowest bit of a word that is not zero is set. -/
theorem bit_lowest {w : Word} (h : w ≠ 0) : w.bit w.lowest = true :=
  List.find?_some (find?_range_lowest h)

/-- No bit below the lowest is set. -/
theorem bit_eq_false_of_lt_lowest {w : Word} (h : w ≠ 0) {i : Nat} (hi : i < w.lowest) :
    w.bit i = false := by
  have hfind := find?_range_lowest h
  rw [List.find?_range_eq_some] at hfind
  simpa using hfind.2.2 i hi

/-- A word that is not zero holds a number that is not zero. -/
theorem toNat_ne_zero {w : Word} (h : w ≠ 0) : w.toNat ≠ 0 :=
  fun h0 => h (UInt64.toNat_inj.mp h0)

/-- The highest bit of a word that is not zero is a bit of the word. -/
theorem highest_lt {w : Word} (h : w ≠ 0) : w.highest < width :=
  (Nat.log2_lt (toNat_ne_zero h)).mpr w.toNat_lt

/-- The highest bit of a word that is not zero is set. -/
theorem bit_highest {w : Word} (h : w ≠ 0) : w.bit w.highest = true := by
  rw [bit_eq_testBit (highest_lt h)]
  exact Nat.testBit_log2 (toNat_ne_zero h)

/-- No bit above the highest is set. -/
theorem le_highest {w : Word} {i : Nat} (hi : i < width) (hb : w.bit i = true) :
    i ≤ w.highest := by
  rw [bit_eq_testBit hi] at hb
  have hge := Nat.ge_two_pow_of_testBit hb
  have hne : w.toNat ≠ 0 := fun h0 => by
    have := Nat.two_pow_pos i
    omega
  exact (Nat.le_log2 hne).mpr hge

end Word

end RegexPositions
