import Mathlib.Data.Finset.Card
import Mathlib.Logic.Function.Basic
import RegexPositions.Proofs.PositionSet.Window

/-!
# Position Sets as Finite Sets

Position sets are made and changed step by step, several of them side by side, each under a
number. `Step.apply` runs a step on the sets, `Step.applyWindow` runs it in place on their windows,
and `Step.applyValue` says what it means for finite sets of numbers, which have no words and no
window.

* `represents_of_mem_iff` — a set with the positions of a finite set agrees with it in all that
  can be asked of it: `contains`, `size`, `isEmpty` and `max?` (`Represents`);
* `mem_setsAfter` — after any steps, each set has the positions of its finite set;
* `windowsAfter_eq` — steps in place leave the windows of the sets;
* `setsAfter_represents` — hence each set represents its finite set, and so do the sets that one
  more `add` or `absorb` gives, in place or not. What these report is whether the finite set becomes
  larger, and no step changes another set than its own.
-/

namespace RegexPositions

namespace PositionSet

/-! ### One set -/

/-- The set **represents** a finite set of numbers: whatever is asked of it, the answer is that of
the finite set. -/
structure Represents (s : PositionSet) (v : Finset Nat) : Prop where
  /-- The positions of the set are the members. -/
  contains_iff : ∀ p, s.contains p = true ↔ p ∈ v
  /-- The size is the number of members. -/
  size_eq_card : s.size = v.card
  /-- The set is empty if there is no member. -/
  isEmpty_iff : s.isEmpty = true ↔ v = ∅
  /-- The greatest position is the greatest member. -/
  max?_eq_some_iff : ∀ m, s.max? = some m ↔ m ∈ v ∧ ∀ p ∈ v, p ≤ m
  /-- Without a member there is no greatest position. -/
  max?_eq_none_iff : s.max? = none ↔ v = ∅

variable {s t : PositionSet} {v w : Finset Nat}

/-- The size counts every position once. -/
theorem size_eq_card_of_mem_iff (h : ∀ p, p ∈ s ↔ p ∈ v) : s.size = v.card := by
  have hnodup : s.toList.Nodup := s.pairwise_toList.imp Nat.ne_of_lt
  have hlist : s.toList.toFinset = v := by
    ext p
    rw [List.mem_toFinset, mem_toList, h p]
  rw [← length_toList, ← hlist, List.toFinset_card_of_nodup hnodup]

/-- The positions decide all that can be asked of a set. -/
theorem represents_of_mem_iff (h : ∀ p, p ∈ s ↔ p ∈ v) : s.Represents v := by
  have hempty : (∀ p, ¬p ∈ s) ↔ v = ∅ := by
    simp only [h, Finset.eq_empty_iff_forall_notMem]
  constructor
  · exact h
  · exact size_eq_card_of_mem_iff h
  · rw [PositionSet.isEmpty_iff, hempty]
  · intro m
    simp only [PositionSet.max?_eq_some_iff, h]
  · rw [PositionSet.max?_eq_none_iff, hempty]

/-- Adding a position is adding it to the finite set. -/
theorem mem_snd_add_iff (h : ∀ p, p ∈ s ↔ p ∈ v) (q p : Nat) :
    p ∈ (s.add q).2 ↔ p ∈ v ∪ {q} := by
  rw [add, mem_insert, Finset.mem_union, Finset.mem_singleton, h p]

/-- Adding the positions of another set is joining the finite sets. -/
theorem mem_snd_absorb_iff (hs : ∀ p, p ∈ s ↔ p ∈ v) (ht : ∀ p, p ∈ t ↔ p ∈ w) (p : Nat) :
    p ∈ (s.absorb t).2 ↔ p ∈ v ∪ w := by
  rw [absorb, mem_union, Finset.mem_union, hs p, ht p]

/-! ### Several sets -/

/-- A **step** on numbered sets; its first number is that of the set it makes or changes. -/
inductive Step where
  /-- Makes a set without positions. -/
  | new (i : Nat)
  /-- Makes a set of one position. -/
  | singleton (i p : Nat)
  /-- Makes a set from a list. -/
  | ofList (i : Nat) (ps : List Nat)
  /-- Makes a clone of another set. -/
  | clone (i j : Nat)
  /-- Adds a position. -/
  | insert (i p : Nat)
  /-- Adds the positions of a list. -/
  | insertMany (i : Nat) (ps : List Nat)
  /-- Adds the positions of another set. -/
  | union (i j : Nat)
  deriving DecidableEq, Repr

namespace Step

/-- The number of the set that the step makes or changes. -/
def target : Step → Nat
  | new i | singleton i _ | ofList i _ | clone i _ | insert i _ | insertMany i _ | union i _ => i

/-- What the step leaves under the number of its own set. -/
def result (sets : Nat → PositionSet) : Step → PositionSet
  | new _ => ∅
  | singleton _ p => .singleton p
  | ofList _ ps => .ofList ps
  | clone _ j => sets j
  | insert i p => ((sets i).add p).2
  | insertMany i ps => (sets i).insertMany ps
  | union i j => ((sets i).absorb (sets j)).2

/-- What the step means for finite sets. -/
def value (values : Nat → Finset Nat) : Step → Finset Nat
  | new _ => ∅
  | singleton _ p => {p}
  | ofList _ ps => ps.toFinset
  | clone _ j => values j
  | insert i p => values i ∪ {p}
  | insertMany i ps => values i ∪ ps.toFinset
  | union i j => values i ∪ values j

/-- The sets after a step. -/
def apply (sets : Nat → PositionSet) (step : Step) : Nat → PositionSet :=
  Function.update sets step.target (step.result sets)

/-- The finite sets after a step. -/
def applyValue (values : Nat → Finset Nat) (step : Step) : Nat → Finset Nat :=
  Function.update values step.target (step.value values)

/-- No step changes another set than its own. -/
theorem apply_of_ne {sets : Nat → PositionSet} {step : Step} {i : Nat} (h : i ≠ step.target) :
    step.apply sets i = sets i :=
  Function.update_of_ne h _ _

section

variable {sets : Nat → PositionSet} {values : Nat → Finset Nat}

/-- What a step leaves has the positions that it means. -/
theorem mem_result (h : ∀ i p, p ∈ sets i ↔ p ∈ values i) (step : Step) (p : Nat) :
    p ∈ step.result sets ↔ p ∈ step.value values := by
  cases step with
  | new i => simp [result, value]
  | singleton i q => simp [result, value]
  | ofList i ps => simp [result, value]
  | clone i j => exact h j p
  | insert i q => exact mem_snd_add_iff (h i) q p
  | insertMany i ps => simp [result, value, h i]
  | union i j => exact mem_snd_absorb_iff (h i) (h j) p

/-- A step keeps the sets and the finite sets together. -/
theorem mem_apply (h : ∀ i p, p ∈ sets i ↔ p ∈ values i) (step : Step) (i p : Nat) :
    p ∈ step.apply sets i ↔ p ∈ step.applyValue values i := by
  by_cases hi : i = step.target
  · subst hi
    rw [apply, applyValue, Function.update_self, Function.update_self]
    exact mem_result h step p
  · rw [apply, applyValue, Function.update_of_ne hi, Function.update_of_ne hi]
    exact h i p

end

end Step

/-- The sets after some steps; at the start, all of them are empty. -/
def setsAfter (steps : List Step) : Nat → PositionSet :=
  steps.foldl Step.apply fun _ => ∅

/-- The finite sets after some steps. -/
def valuesAfter (steps : List Step) : Nat → Finset Nat :=
  steps.foldl Step.applyValue fun _ => ∅

/-- After any steps, each set has the positions of its finite set. -/
theorem mem_setsAfter (steps : List Step) (i p : Nat) :
    p ∈ setsAfter steps i ↔ p ∈ valuesAfter steps i := by
  -- The steps may start from any sets that go with their finite sets, not only from empty ones.
  have hrun : ∀ {sets : Nat → PositionSet} {values : Nat → Finset Nat},
      (∀ i p, p ∈ sets i ↔ p ∈ values i) →
        ∀ i p, p ∈ steps.foldl Step.apply sets i ↔ p ∈ steps.foldl Step.applyValue values i := by
    induction steps with
    | nil => exact fun h => h
    | cons step steps ih => exact fun h => ih (Step.mem_apply h step)
  exact hrun (fun _ p => iff_of_false (not_mem_empty p) (Finset.notMem_empty p)) i p

/-! ### Steps in place -/

/-- What the step leaves under the number of its own set, where windows are changed in place. -/
def Step.window (windows : Nat → Window) : Step → Window
  | new _ => .empty
  | singleton _ p => .singleton p
  | ofList _ ps => .ofList ps
  | clone _ j => windows j
  | insert i p => ((windows i).add p).2
  | insertMany i ps => (windows i).extend ps
  | union i j => ((windows i).absorb (windows j)).2

/-- The windows after a step. -/
def Step.applyWindow (windows : Nat → Window) (step : Step) : Nat → Window :=
  Function.update windows step.target (step.window windows)

/-- No step in place changes another window than its own. -/
theorem Step.applyWindow_of_ne {windows : Nat → Window} {step : Step} {i : Nat}
    (h : i ≠ step.target) : step.applyWindow windows i = windows i :=
  Function.update_of_ne h _ _

/-- The windows after some steps; at the start, all of them are those of new sets. -/
def windowsAfter (steps : List Step) : Nat → Window :=
  steps.foldl Step.applyWindow fun _ => .empty

/-- What a step leaves in place is the window of what it leaves. -/
theorem window_result (sets : Nat → PositionSet) (step : Step) :
    (step.result sets).window = step.window fun i => (sets i).window := by
  cases step with
  | new i => rfl
  | singleton i p => rfl
  | ofList i ps => exact (Window.ofList_eq ps).symm
  | clone i j => rfl
  | insert i p => rw [Step.window, Window.add_window]; rfl
  | insertMany i ps => exact (Window.extend_window _ ps).symm
  | union i j => rw [Step.window, Window.absorb_window]; rfl

/-- A step in place leaves the windows of the sets after the step. -/
theorem window_apply (sets : Nat → PositionSet) (step : Step) :
    (fun i => (step.apply sets i).window) = step.applyWindow fun i => (sets i).window := by
  funext i
  by_cases hi : i = step.target
  · subst hi
    rw [Step.apply, Step.applyWindow, Function.update_self, Function.update_self, window_result]
  · rw [Step.apply, Step.applyWindow, Function.update_of_ne hi, Function.update_of_ne hi]

/-- Steps in place leave the windows of the sets after the steps. -/
theorem windowsAfter_eq (steps : List Step) (i : Nat) :
    windowsAfter steps i = (setsAfter steps i).window := by
  -- The steps may start from any sets.
  have hrun : ∀ sets : Nat → PositionSet,
      (steps.foldl Step.applyWindow fun i => (sets i).window) =
        fun i => (steps.foldl Step.apply sets i).window := by
    induction steps with
    | nil => exact fun sets => rfl
    | cons step steps ih =>
        intro sets
        rw [List.foldl_cons, List.foldl_cons, ← window_apply, ih]
  exact congrFun (hrun fun _ => ∅) i

/-- **Position sets are finite sets.** After any steps, each set represents the finite set of the
positions that went into it, and its window is the one that the steps leave in place. Adding a
position, or those of another set, gives a set that represents the larger finite set, and reports
whether it is larger; in place it gives the window of that set, with the same report. No step
changes another set or window than its own. -/
theorem setsAfter_represents (steps : List Step) (i : Nat) :
    (setsAfter steps i).Represents (valuesAfter steps i) ∧
    windowsAfter steps i = (setsAfter steps i).window ∧
    (∀ p, (((setsAfter steps i).add p).1 = true ↔ p ∉ valuesAfter steps i) ∧
      ((setsAfter steps i).add p).2.Represents (valuesAfter steps i ∪ {p}) ∧
      (windowsAfter steps i).add p =
        (((setsAfter steps i).add p).1, ((setsAfter steps i).add p).2.window)) ∧
    (∀ j, (((setsAfter steps i).absorb (setsAfter steps j)).1 = true ↔
        ¬valuesAfter steps j ⊆ valuesAfter steps i) ∧
      ((setsAfter steps i).absorb (setsAfter steps j)).2.Represents
        (valuesAfter steps i ∪ valuesAfter steps j) ∧
      (windowsAfter steps i).absorb (windowsAfter steps j) =
        (((setsAfter steps i).absorb (setsAfter steps j)).1,
          ((setsAfter steps i).absorb (setsAfter steps j)).2.window)) ∧
    ∀ step : Step, i ≠ step.target →
      step.apply (setsAfter steps) i = setsAfter steps i ∧
      step.applyWindow (windowsAfter steps) i = windowsAfter steps i := by
  have hmem := mem_setsAfter steps
  have hwindow := windowsAfter_eq steps
  refine ⟨represents_of_mem_iff (hmem i), hwindow i, fun p => ⟨?_, ?_, ?_⟩,
    fun j => ⟨?_, ?_, ?_⟩, fun step hi => ⟨?_, ?_⟩⟩
  · rw [fst_add, hmem i p]
  · exact represents_of_mem_iff (mem_snd_add_iff (hmem i) p)
  · rw [hwindow i, Window.add_window]
  · simp only [fst_absorb, hmem i, hmem j, Finset.subset_iff]
  · exact represents_of_mem_iff (mem_snd_absorb_iff (hmem i) (hmem j))
  · rw [hwindow i, hwindow j, Window.absorb_window]
  · exact Step.apply_of_ne hi
  · exact Step.applyWindow_of_ne hi

end PositionSet

end RegexPositions
