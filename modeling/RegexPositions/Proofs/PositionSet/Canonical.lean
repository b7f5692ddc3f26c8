import Mathlib.Data.Finset.Max
import RegexPositions.Proofs.PositionSet.Refinement

/-!
# One Window for Each Set

The positions of a set decide its window, so sets can be compared and hashed by their windows
alone, without a look at the positions.

* `Window.Fits` — the window of a finite set of numbers: it begins with the word of the least
  member and ends with that of the greatest one, and neither of these words is zero;
* `fits_window` — the window of a set fits its positions;
* `setsAfter_canonical` — hence each of the windows after some steps, which are changed in place
  (`windowsAfter`), fits the positions that went into it. Two sets are equal, and have one window,
  exactly if the same positions went into them, however they were made, and a hash set tells sets
  apart by their positions.
-/

namespace RegexPositions

/-- The window **fits** a finite set: it reaches from the word of the least member to that of the
greatest one. Where there is no member, it is the window of a new set. -/
inductive Window.Fits (w : Window) (v : Finset Nat) : Prop
  /-- There are no words, and the window starts at zero. -/
  | empty (hv : v = ∅) (hwords : w.words = #[]) (hoffset : w.offset = 0)
  /-- The first word and the last one are not zero, and they are those of the least member and of
  the greatest one. -/
  | nonempty (hv : v.Nonempty) (hfirst : ∃ first, w.words[0]? = some first ∧ first ≠ 0)
      (hlast : ∃ last, w.words.back? = some last ∧ last ≠ 0)
      (hoffset : w.offset = v.min' hv / Word.width)
      (hbound : w.offset + w.words.size - 1 = v.max' hv / Word.width)

namespace PositionSet

variable {s : PositionSet} {v : Finset Nat} {k p : Nat}

/-! ### One set -/

/-- The word of a position lies in the window. -/
theorem window_of_mem (h : p ∈ s) : s.offset ≤ p / Word.width ∧ p / Word.width < s.bound := by
  apply window_of_word_ne_zero
  intro h0
  rw [mem_iff_bit, h0, Word.bit_zero] at h
  exact Bool.false_ne_true h

/-- A word that is not zero is the word of some position. -/
theorem exists_mem_of_word_ne_zero (h : s.word k ≠ 0) : ∃ p ∈ s, p / Word.width = k := by
  obtain ⟨i, hi, hb⟩ := Word.exists_bit h
  refine ⟨Word.width * k + i, (bit_word hi).mp hb, ?_⟩
  rw [Nat.mul_add_div (by decide), Nat.div_eq_of_lt hi, Nat.add_zero]

/-- The window of a set fits its positions. -/
theorem fits_window (h : ∀ p, p ∈ s ↔ p ∈ v) : s.window.Fits v := by
  by_cases hs : s.words.size = 0
  · have hempty := isEmpty_iff.mp (Array.isEmpty_iff_size_eq_zero.mpr hs)
    refine .empty ?_ (Array.eq_empty_of_size_eq_zero hs) (s.offset_of_empty hs)
    exact Finset.eq_empty_iff_forall_notMem.mpr fun p hp => hempty p ((h p).mpr hp)
  · have hlast : s.words.size - 1 < s.words.size := by omega
    obtain ⟨p, hp, hpfirst⟩ := exists_mem_of_word_ne_zero (word_offset_ne_zero hs)
    obtain ⟨q, hq, hqlast⟩ := exists_mem_of_word_ne_zero (word_bound_pred_ne_zero hs)
    have hv : v.Nonempty := ⟨p, (h p).mp hp⟩
    refine .nonempty hv ⟨s.words[0], ?_, fun h0 => ?_⟩ ⟨s.words[s.words.size - 1], ?_, fun h0 => ?_⟩
      (Nat.le_antisymm ?_ ?_) (Nat.le_antisymm ?_ ?_)
    · exact Array.getElem?_eq_getElem _
    · exact s.first_ne_zero (by rw [Array.getElem?_eq_getElem (by omega), h0])
    · rw [Array.back?_eq_getElem?]
      exact Array.getElem?_eq_getElem _
    · exact s.last_ne_zero (by rw [Array.getElem?_eq_getElem hlast, h0])
    · exact (window_of_mem ((h _).mpr (v.min'_mem hv))).1
    · have hmin := Nat.div_le_div_right (c := Word.width) (v.min'_le p ((h p).mp hp))
      exact Nat.le_trans hmin (Nat.le_of_eq hpfirst)
    · have hmax := Nat.div_le_div_right (c := Word.width) (v.le_max' q ((h q).mp hq))
      exact Nat.le_trans (Nat.le_of_eq hqlast.symm) hmax
    · exact Nat.le_sub_one_of_lt (window_of_mem ((h _).mpr (v.max'_mem hv))).2

/-- The positions of a set as a finite set. -/
def members (s : PositionSet) : Finset Nat := s.toList.toFinset

/-- A set that has the positions of a finite set has it as its members. -/
theorem members_eq (h : ∀ p, p ∈ s ↔ p ∈ v) : s.members = v := by
  ext p
  rw [members, List.mem_toFinset, mem_toList, h p]

/-- Sets with the same members are equal. -/
theorem members_injective : Function.Injective members := by
  intro s t hst
  ext p
  have hp := congrArg (p ∈ ·) hst
  simpa only [members, List.mem_toFinset, mem_toList, eq_iff_iff] using hp

/-! ### Many sets -/

/-- A hash set of sets has as many members as there are different sets. -/
theorem distinctCount_eq_card (sets : List PositionSet) :
    distinctCount sets = (sets.map members).toFinset.card := by
  have hnodup : (Std.HashSet.ofList sets).toList.Nodup :=
    Std.HashSet.distinct_toList.imp fun hne heq => by simp [heq] at hne
  have hlist : (sets.map members).toFinset =
      (Std.HashSet.ofList sets).toList.toFinset.image members := by
    ext v
    simp [Std.HashSet.mem_ofList]
  rw [distinctCount, ← Std.HashSet.length_toList, hlist,
    Finset.card_image_of_injective _ members_injective, List.toFinset_card_of_nodup hnodup]

/-! ### Sets after steps -/

/-- **One window for each set.** After any steps in place, each window is that of its set, and it
fits the positions that went into the set; the hash is computed from the window. Two sets, however
they were made, are equal exactly if the same positions went into them, and so are their windows.
A hash set of sets has as many members as there are different sets of positions. -/
theorem setsAfter_canonical :
    (∀ steps i,
      (setsAfter steps i).window = windowsAfter steps i ∧
      (∀ p, p ∈ setsAfter steps i ↔ p ∈ valuesAfter steps i) ∧
      (windowsAfter steps i).Fits (valuesAfter steps i) ∧
      hash (setsAfter steps i) =
        mixHash (hash (windowsAfter steps i).offset) (hash (windowsAfter steps i).words)) ∧
    (∀ steps i steps' i',
      ((setsAfter steps i == setsAfter steps' i') = true ↔
        valuesAfter steps i = valuesAfter steps' i') ∧
      (windowsAfter steps i = windowsAfter steps' i' ↔
        valuesAfter steps i = valuesAfter steps' i')) ∧
    ∀ made : List (List Step × Nat),
      distinctCount (made.map fun m => setsAfter m.1 m.2) =
        (made.map fun m => valuesAfter m.1 m.2).toFinset.card := by
  have hmembers : ∀ steps i, (setsAfter steps i).members = valuesAfter steps i :=
    fun steps i => members_eq (mem_setsAfter steps i)
  have hequal : ∀ steps i steps' i', setsAfter steps i = setsAfter steps' i' ↔
      valuesAfter steps i = valuesAfter steps' i' := by
    intro steps i steps' i'
    rw [← hmembers, ← hmembers, members_injective.eq_iff]
  refine ⟨fun steps i => ⟨(windowsAfter_eq steps i).symm, mem_setsAfter steps i, ?_, ?_⟩,
    fun steps i steps' i' => ⟨?_, ?_⟩, fun made => ?_⟩
  · rw [windowsAfter_eq]
    exact fits_window (mem_setsAfter steps i)
  · rw [windowsAfter_eq]
    rfl
  · rw [beq_iff_eq, hequal]
  · rw [windowsAfter_eq, windowsAfter_eq, ← hequal]
    exact window_inj
  · rw [distinctCount_eq_card, List.map_map]
    congr 2
    exact List.map_congr_left fun m _ => hmembers m.1 m.2

end PositionSet

end RegexPositions
