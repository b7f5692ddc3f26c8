import RegexPositions.PositionSet.Basic

/-!
# The positions of a set

Each operation on position sets is described by the positions of its result (`mem_singleton`,
`mem_union`, `mem_insert`, `mem_ofList`), and sets with the same positions are equal
(`PositionSet.ext`). What reads a set is described in the same terms: `isSubset_iff`,
`isEmpty_iff`, `max?_eq_some_iff`; `toList` lists the positions in ascending order
(`mem_toList`, `pairwise_toList`), `size` of them (`length_toList`).
-/

namespace RegexPositions

namespace PositionSet

/-! ### Words -/

/-- Before the window all words are zero. -/
theorem word_of_lt_offset {s : PositionSet} {k : Nat} (h : k < s.offset) : s.word k = 0 := by
  simp [word, Nat.not_le.mpr h]

/-- Behind the window all words are zero. -/
theorem word_of_bound_le {s : PositionSet} {k : Nat} (h : s.bound ≤ k) : s.word k = 0 := by
  simp only [bound] at h
  have hle : s.words.size ≤ k - s.offset := by omega
  simp [word, Array.getElem?_eq_none hle]

/-- Where the window has no words, all words are zero. -/
theorem word_of_size_eq_zero {s : PositionSet} (h : s.words.size = 0) (k : Nat) :
    s.word k = 0 :=
  word_of_bound_le (by simp [bound, h, s.offset_of_empty h])

/-- All words of the empty set are zero. -/
@[simp] theorem word_empty (k : Nat) : (∅ : PositionSet).word k = 0 :=
  word_of_size_eq_zero rfl k

/-- A word that is not zero lies in the window. -/
theorem window_of_word_ne_zero {s : PositionSet} {k : Nat} (h : s.word k ≠ 0) :
    s.offset ≤ k ∧ k < s.bound := by
  constructor
  · exact Nat.not_lt.mp fun hlt => h (word_of_lt_offset hlt)
  · exact Nat.not_le.mp fun hle => h (word_of_bound_le hle)

/-- The set of one position has one word that is not zero, with one bit set. -/
theorem word_singleton (p k : Nat) :
    (singleton p).word k = if k = p / Word.width then Word.single (p % Word.width) else 0 := by
  by_cases hk : k = p / Word.width
  · subst hk
    simp [word, singleton]
  · rw [if_neg hk]
    apply Classical.byContradiction
    intro h
    have := window_of_word_ne_zero h
    simp only [bound, singleton, List.size_toArray, List.length_cons, List.length_nil] at this
    omega

/-- The words of a union are those of the two sets, joined. -/
theorem word_union (s t : PositionSet) (k : Nat) :
    (s ∪ t).word k = s.word k ||| t.word k := by
  change (union s t).word k = _
  unfold union
  split
  · next hs => simp [word_of_size_eq_zero hs]
  · next hs =>
    split
    · next ht => simp [word_of_size_eq_zero ht]
    · next ht =>
      by_cases hk : commonOffset s t ≤ k
      · by_cases hb : k < commonBound s t
        · have hi : k - commonOffset s t < commonBound s t - commonOffset s t := by omega
          have hadd : commonOffset s t + (k - commonOffset s t) = k := by omega
          rw [word]
          simp [hk, getElem?_commonWords hi, hadd]
        · have hle : commonBound s t ≤ k := Nat.not_lt.mp hb
          have hs0 : s.word k = 0 :=
            word_of_bound_le (Nat.le_trans (Nat.le_max_left _ _) hle)
          have ht0 : t.word k = 0 :=
            word_of_bound_le (Nat.le_trans (Nat.le_max_right _ _) hle)
          rw [hs0, ht0]
          apply word_of_bound_le
          simp only [bound, commonWords, Array.size_ofFn]
          have := commonOffset_lt_commonBound t hs
          omega
      · have hlt : k < commonOffset s t := Nat.not_le.mp hk
        have hs0 : s.word k = 0 := word_of_lt_offset (Nat.lt_of_lt_of_le hlt (Nat.min_le_left _ _))
        have ht0 : t.word k = 0 := word_of_lt_offset (Nat.lt_of_lt_of_le hlt (Nat.min_le_right _ _))
        rw [hs0, ht0]
        exact word_of_lt_offset hlt

/-- Sets with the same words are equal. -/
theorem ext_word {s t : PositionSet} (h : ∀ k, s.word k = t.word k) : s = t := by
  have window : ∀ {u v : PositionSet}, (∀ k, u.word k = v.word k) → u.words.size ≠ 0 →
      v.offset ≤ u.offset ∧ u.bound ≤ v.bound ∧ v.words.size ≠ 0 := by
    intro u v huv hu
    have h1 := window_of_word_ne_zero (huv u.offset ▸ word_offset_ne_zero hu)
    have h2 := window_of_word_ne_zero (huv (u.bound - 1) ▸ word_bound_pred_ne_zero hu)
    simp only [bound] at h1 h2 ⊢
    omega
  have hsize : s.offset = t.offset ∧ s.words.size = t.words.size := by
    by_cases hs : s.words.size = 0
    · by_cases ht : t.words.size = 0
      · exact ⟨by rw [s.offset_of_empty hs, t.offset_of_empty ht], by rw [hs, ht]⟩
      · exact absurd hs (window (fun k => (h k).symm) ht).2.2
    · have h1 := window h hs
      have h2 := window (fun k => (h k).symm) h1.2.2
      simp only [bound] at h1 h2
      omega
  have hwords : s.words = t.words := by
    apply Array.ext hsize.2
    intro i hi hi'
    have hk := h (s.offset + i)
    have ht : t.offset ≤ s.offset + i := by omega
    have hsub : s.offset + i - t.offset = i := by omega
    simpa [word, ht, hsub, Array.getElem?_eq_getElem hi, Array.getElem?_eq_getElem hi'] using hk
  cases s
  cases t
  simp_all

/-- The stored words are those of the window. -/
theorem map_word_range' (s : PositionSet) :
    (List.range' s.offset s.words.size).map s.word = s.words.toList := by
  apply List.ext_getElem
  · simp
  · intro i hi hi'
    have hi'' : i < s.words.size := by simpa using hi'
    simp [word, Array.getElem?_eq_getElem hi'']

/-! ### Positions -/

/-- Membership is what `contains` decides. -/
theorem contains_eq_true_iff {s : PositionSet} {p : Nat} : s.contains p = true ↔ p ∈ s :=
  Iff.rfl

/-- A position is in the set if its bit is set in its word. -/
theorem mem_iff_bit {s : PositionSet} {p : Nat} :
    p ∈ s ↔ (s.word (p / Word.width)).bit (p % Word.width) = true :=
  Iff.rfl

/-- Bit `i` of word `k` stands for position `64 * k + i`. -/
theorem bit_word {s : PositionSet} {k i : Nat} (hi : i < Word.width) :
    (s.word k).bit i = true ↔ Word.width * k + i ∈ s := by
  rw [mem_iff_bit, Nat.mul_add_div (by decide), Nat.div_eq_of_lt hi, Nat.mul_add_mod,
    Nat.mod_eq_of_lt hi, Nat.add_zero]

/-- Sets with the same positions are equal. -/
@[ext] theorem ext {s t : PositionSet} (h : ∀ p, p ∈ s ↔ p ∈ t) : s = t := by
  apply ext_word
  intro k
  apply Word.ext_bit
  intro i hi
  rw [Bool.eq_iff_iff, bit_word hi, bit_word hi]
  exact h _

/-- No position is in the empty set. -/
@[simp] theorem not_mem_empty (p : Nat) : ¬p ∈ (∅ : PositionSet) := by
  simp [mem_iff_bit]

/-- The set of one position has that position alone. -/
@[simp] theorem mem_singleton {p q : Nat} : q ∈ singleton p ↔ q = p := by
  rw [mem_iff_bit, word_singleton]
  by_cases h : q / Word.width = p / Word.width
  · rw [if_pos h, Word.bit_single (Nat.mod_lt p (by decide)) (Nat.mod_lt q (by decide))]
    rw [decide_eq_true_eq]
    simp only [Word.width] at h ⊢
    omega
  · rw [if_neg h]
    simp only [Word.bit_zero, Bool.false_eq_true, false_iff]
    rintro rfl
    exact h rfl

/-- The positions of a union are those of either set. -/
@[simp] theorem mem_union {s t : PositionSet} {p : Nat} : p ∈ s ∪ t ↔ p ∈ s ∨ p ∈ t := by
  rw [mem_iff_bit, word_union, Word.bit_or (Nat.mod_lt p (by decide)), Bool.or_eq_true]
  rfl

/-- Inserting adds one position. -/
@[simp] theorem mem_insert {s : PositionSet} {p q : Nat} : q ∈ s.insert p ↔ q ∈ s ∨ q = p := by
  rw [insert, mem_union, mem_singleton]

/-- Inserting a list adds the positions of the list. -/
@[simp] theorem mem_insertMany {s : PositionSet} {ps : List Nat} {q : Nat} :
    q ∈ s.insertMany ps ↔ q ∈ s ∨ q ∈ ps := by
  induction ps generalizing s with
  | nil => simp [insertMany]
  | cons p ps ih =>
      change q ∈ (s.insert p).insertMany ps ↔ _
      rw [ih, mem_insert, List.mem_cons, or_assoc]

/-- The set of a list has the positions of the list. -/
@[simp] theorem mem_ofList {ps : List Nat} {q : Nat} : q ∈ ofList ps ↔ q ∈ ps := by
  simp [ofList]

/-- Joined with itself, a set stays as it is. -/
@[simp] theorem union_self (s : PositionSet) : s ∪ s = s := by
  ext p
  simp

/-- The empty set adds nothing on the right. -/
@[simp] theorem union_empty (s : PositionSet) : s ∪ ∅ = s := by
  ext p
  simp

/-- The empty set adds nothing on the left. -/
@[simp] theorem empty_union (s : PositionSet) : ∅ ∪ s = s := by
  ext p
  simp

/-- The order of two sets in a union does not matter. -/
theorem union_comm (s t : PositionSet) : s ∪ t = t ∪ s := by
  ext p
  simp [or_comm]

/-- How unions are grouped does not matter. -/
theorem union_assoc (s t u : PositionSet) : s ∪ t ∪ u = s ∪ (t ∪ u) := by
  ext p
  simp [or_assoc]

/-- Comparing word by word tells whether every position of a set is in another. -/
theorem isSubset_iff {s t : PositionSet} : s.isSubset t = true ↔ ∀ p ∈ s, p ∈ t := by
  have hword : ∀ k, (s.word k &&& t.word k == s.word k) = true ↔
      ∀ i < Word.width, (s.word k).bit i = true → (t.word k).bit i = true := by
    intro k
    have hand : ∀ i < Word.width,
        (s.word k &&& t.word k).bit i = ((s.word k).bit i && (t.word k).bit i) := by
      intro i hi
      simp [Word.bit_eq_testBit hi]
    constructor
    · intro h i hi hb
      have := hand i hi
      rw [eq_of_beq h, hb, Bool.true_and] at this
      exact this.symm
    · intro h
      rw [beq_iff_eq]
      apply Word.ext_bit
      intro i hi
      rw [hand i hi]
      have := h i hi
      revert this
      cases (s.word k).bit i <;> simp
  rw [isSubset, List.all_eq_true]
  constructor
  · intro h p hp
    have hne : s.word (p / Word.width) ≠ 0 := by
      intro h0
      rw [mem_iff_bit, h0, Word.bit_zero] at hp
      exact Bool.false_ne_true hp
    have hmem : p / Word.width ∈ List.range' s.offset s.words.size :=
      List.mem_range'_1.mpr (window_of_word_ne_zero hne)
    exact (hword _).mp (h _ hmem) _ (Nat.mod_lt p (by decide)) hp
  · intro h k _
    rw [hword]
    intro i hi hb
    exact (bit_word hi).mpr (h _ ((bit_word hi).mp hb))

/-- `add` reports whether the position is new. -/
theorem fst_add {s : PositionSet} {p : Nat} : (s.add p).1 = true ↔ ¬p ∈ s := by
  simp [add, ← contains_eq_true_iff]

/-- `absorb` reports whether some position is new. -/
theorem fst_absorb {s t : PositionSet} : (s.absorb t).1 = true ↔ ¬∀ p ∈ t, p ∈ s := by
  rw [← isSubset_iff]
  simp [absorb]

/-! ### Reading a set -/

/-- A set with words has a position. -/
theorem exists_mem_of_size_ne_zero {s : PositionSet} (h : s.words.size ≠ 0) : ∃ p, p ∈ s := by
  obtain ⟨i, hi, hb⟩ := Word.exists_bit (word_offset_ne_zero h)
  exact ⟨_, (bit_word hi).mp hb⟩

/-- A set without words is one without positions. -/
theorem isEmpty_iff {s : PositionSet} : s.isEmpty = true ↔ ∀ p, ¬p ∈ s := by
  rw [isEmpty, Array.isEmpty_iff_size_eq_zero]
  constructor
  · intro h p hp
    rw [mem_iff_bit, word_of_size_eq_zero h, Word.bit_zero] at hp
    exact Bool.false_ne_true hp
  · intro h
    apply Classical.byContradiction
    intro hne
    obtain ⟨p, hp⟩ := exists_mem_of_size_ne_zero hne
    exact h p hp

/-- The positions of word `k` are those of the set that belong to this word. -/
theorem mem_block {s : PositionSet} {k p : Nat} :
    p ∈ s.block k ↔ p / Word.width = k ∧ p ∈ s := by
  simp only [block, List.mem_map, Word.mem_bits]
  constructor
  · rintro ⟨i, ⟨hi, hb⟩, rfl⟩
    refine ⟨?_, (bit_word hi).mp hb⟩
    rw [Nat.mul_add_div (by decide), Nat.div_eq_of_lt hi, Nat.add_zero]
  · rintro ⟨rfl, hp⟩
    exact ⟨p % Word.width, ⟨Nat.mod_lt p (by decide), hp⟩, Nat.div_add_mod p Word.width⟩

/-- The list of a set has the positions of the set. -/
@[simp] theorem mem_toList {s : PositionSet} {p : Nat} : p ∈ s.toList ↔ p ∈ s := by
  simp only [toList, List.mem_flatMap, mem_block]
  constructor
  · rintro ⟨k, -, -, hp⟩
    exact hp
  · intro hp
    refine ⟨p / Word.width, ?_, rfl, hp⟩
    have hne : s.word (p / Word.width) ≠ 0 := by
      intro h0
      rw [mem_iff_bit, h0, Word.bit_zero] at hp
      exact Bool.false_ne_true hp
    exact List.mem_range'_1.mpr (window_of_word_ne_zero hne)

/-- The list of a set ascends, so it has no position twice. -/
theorem pairwise_toList (s : PositionSet) : s.toList.Pairwise (· < ·) := by
  rw [toList, List.pairwise_flatMap]
  constructor
  · intro k _
    rw [block, List.pairwise_map]
    exact (Word.pairwise_bits _).imp fun h => Nat.add_lt_add_left h _
  · refine List.Pairwise.imp ?_ (List.pairwise_lt_range' 1)
    intro k l hkl p hp q hq
    have hpk := (mem_block.mp hp).1
    have hql := (mem_block.mp hq).1
    rw [← hpk, ← hql] at hkl
    exact Nat.lt_of_not_le fun h => Nat.not_lt.mpr (Nat.div_le_div_right h) hkl

/-- The size of a set is the length of its list. -/
@[simp] theorem length_toList (s : PositionSet) : s.toList.length = s.size := by
  have hblock : ∀ k, (s.block k).length = (s.word k).count := by
    intro k
    rw [block, List.length_map, Word.length_bits]
  have hsum : ∀ (ws : List Word) (n : Nat),
      ws.foldl (fun n w => n + w.count) n = n + (ws.map Word.count).sum := by
    intro ws
    induction ws with
    | nil => simp
    | cons w ws ih => intro n; rw [List.foldl_cons, ih, List.map_cons, List.sum_cons]; omega
  rw [toList, List.length_flatMap, size, ← Array.foldl_toList, hsum, Nat.zero_add,
    ← map_word_range', List.map_map]
  congr 1
  exact List.map_congr_left fun k _ => hblock k

/-- The greatest position is the one in the set that no other exceeds. -/
theorem max?_eq_some_iff {s : PositionSet} {m : Nat} :
    s.max? = some m ↔ m ∈ s ∧ ∀ p ∈ s, p ≤ m := by
  have greatest : ∀ {m}, s.max? = some m → m ∈ s ∧ ∀ p ∈ s, p ≤ m := by
    intro m h
    rw [max?] at h
    split at h
    · cases h
    · next hne =>
      have hsize : s.words.size ≠ 0 := by
        rwa [isEmpty, Array.isEmpty_iff_size_eq_zero] at hne
      have hword := word_bound_pred_ne_zero hsize
      cases h
      refine ⟨(bit_word (Word.highest_lt hword)).mp (Word.bit_highest hword), ?_⟩
      intro p hp
      have hk : p / Word.width < s.bound := by
        refine (window_of_word_ne_zero ?_).2
        intro h0
        rw [mem_iff_bit, h0, Word.bit_zero] at hp
        exact Bool.false_ne_true hp
      have hmod := Nat.mod_lt p (show 0 < Word.width by decide)
      by_cases heq : p / Word.width = s.bound - 1
      · rw [mem_iff_bit, heq] at hp
        have := Word.le_highest hmod hp
        simp only [Word.width] at *
        omega
      · simp only [Word.width] at *
        omega
  constructor
  · exact greatest
  · rintro ⟨hm, hmax⟩
    cases hs : s.max? with
    | none =>
        rw [max?] at hs
        split at hs
        · next he => exact absurd hm (isEmpty_iff.mp he m)
        · cases hs
    | some m' =>
        have h := greatest hs
        rw [Nat.le_antisymm (hmax m' h.1) (h.2 m hm)]

/-- Only the empty set has no greatest position. -/
theorem max?_eq_none_iff {s : PositionSet} : s.max? = none ↔ ∀ p, ¬p ∈ s := by
  rw [← isEmpty_iff, max?]
  split <;> simp_all

end PositionSet

end RegexPositions
