import RegexPositions.Proofs.PositionSet.Checked

/-!
# Sets Within 64 Bits

No checked operation refuses anything on the windows of sets whose positions are below `2 ^ 64`.
What makes each of them safe is where such a window lies, which no step widens too far: the first
word and the last one are those of positions.

* `InRange.bound_le` — the window of such a set ends no later than with word `2 ^ 58 - 1`, which
  leaves room for the number of one more word and for the bits of the last one;
* `Safe`, `InRange.safe` — so whatever is asked of such a set is answered, and one more position
  can be added, or those of another such set;
* `windowsAfterChecked_eq` — hence no steps with positions below `2 ^ 64` refuse anything, and they
  leave safe sets.
-/

namespace RegexPositions

/-! ### Sets in range -/

namespace PositionSet

/-- All positions are below `2 ^ 64`. -/
def InRange (s : PositionSet) : Prop := ∀ p ∈ s, p < 2 ^ 64

variable {s t : PositionSet} {p : Nat} {ps : List Nat}

/-- The window ends no later than with the word of the last position in range. -/
theorem InRange.bound_le (h : s.InRange) : s.bound ≤ 2 ^ 58 := by
  by_cases hs : s.words.size = 0
  · rw [bound, hs, s.offset_of_empty hs]
    exact Nat.zero_le _
  · obtain ⟨p, hp, hword⟩ := exists_mem_of_word_ne_zero (word_bound_pred_ne_zero hs)
    have hlt := h p hp
    simp only [Word.width] at hword
    omega

/-- The number of the first word behind the window is in range itself. -/
theorem InRange.bound_lt (h : s.InRange) : s.window.bound < 2 ^ 64 :=
  Nat.lt_of_le_of_lt h.bound_le (by decide)

/-- A set in range stays in range with one more position in range. -/
theorem InRange.insert (h : s.InRange) (hp : p < 2 ^ 64) : (s.insert p).InRange := by
  intro q hq
  rcases mem_insert.mp hq with hq | rfl
  · exact h q hq
  · exact hp

/-- Adding positions in range to a set in range refuses nothing. -/
theorem extendChecked_window (h : s.InRange) (hps : ∀ p ∈ ps, p < 2 ^ 64) :
    s.window.extendChecked ps = .ok (s.window.extend ps) := by
  induction ps generalizing s with
  | nil => rfl
  | cons p ps ih =>
      obtain ⟨hp, hrest⟩ := List.forall_mem_cons.mp hps
      have hset : (s.window.add p).2 = (s.insert p).window := by rw [Window.add_window]; rfl
      rw [Window.extendChecked, List.foldlM_cons, Window.addChecked_eq h.bound_lt hp,
        Checked.ok_bind, Window.extend, List.foldl_cons, hset]
      exact ih (h.insert hp) hrest

/-- The last of the words is the last word of the window. -/
theorem back?_words (h : s.words.size ≠ 0) : s.words.back? = some (s.word (s.bound - 1)) := by
  have hle : s.offset ≤ s.bound - 1 := by
    rw [bound]
    omega
  have hsub : s.bound - 1 - s.offset = s.words.size - 1 := by
    rw [bound]
    omega
  rw [Array.back?_eq_getElem?, word, if_pos hle, hsub, Array.getElem?_eq_getElem (by omega)]
  rfl

/-- Asking for the greatest position refuses nothing: the last word is not zero. -/
theorem maxChecked_window (h : s.InRange) : s.window.maxChecked = .ok s.max? := by
  have hle := h.bound_le
  rw [Window.maxChecked, max?, isEmpty]
  by_cases hs : s.words.size = 0
  · simp [window, Array.eq_empty_of_size_eq_zero hs, pure, Except.pure]
  · have hword := word_bound_pred_ne_zero hs
    have hpos : 1 ≤ s.bound := by
      rw [bound]
      omega
    have hbit := Word.highest_lt hword
    have hsub : Word.width - 1 - (Word.width - 1 - (s.word (s.bound - 1)).highest) =
        (s.word (s.bound - 1)).highest := by omega
    rw [show s.window.words.back? = _ from back?_words hs, if_neg (by simpa using hs)]
    simp only [Checked.add_of_lt h.bound_lt, Checked.ok_bind]
    rw [show s.window.offset + s.window.words.size = s.bound from rfl, Checked.sub_of_le hpos,
      Checked.ok_bind, Checked.sub_of_le (by decide), Checked.ok_bind, Word.leadingZeros_eq hword,
      Checked.sub_of_le (Nat.sub_le _ _), hsub, Checked.ok_bind,
      Checked.position_eq (by omega) hbit, Nat.mul_comm]
    rfl

-- A last word that is zero would be refused.
example : (Window.mk 0 #[0]).maxChecked = .error (.underflow 63 64) := rfl

/-- Counting bits never counts down. -/
theorem le_foldl_count (words : List Word) (n : Nat) :
    n ≤ words.foldl (fun n w => n + w.count) n := by
  induction words generalizing n with
  | nil => exact Nat.le_refl n
  | cons w words ih => exact Nat.le_trans (Nat.le_add_right n w.count) (ih _)

/-- Counting refuses nothing if there are less than `2 ^ 64` positions. -/
theorem sizeChecked_window (h : s.size < 2 ^ 64) : s.window.sizeChecked = .ok s.size := by
  have hcount : ∀ (words : List Word) (n : Nat), words.foldl (fun n w => n + w.count) n < 2 ^ 64 →
      words.foldlM (fun n w => Checked.add n w.count) n =
        .ok (words.foldl (fun n w => n + w.count) n) := by
    intro words
    induction words with
    | nil => exact fun n _ => rfl
    | cons w words ih =>
        intro n hlt
        have hn := Nat.lt_of_le_of_lt (le_foldl_count words (n + w.count)) hlt
        rw [List.foldlM_cons, Checked.add_of_lt hn, Checked.ok_bind]
        exact ih _ hlt
  rw [size, ← Array.foldl_toList] at h ⊢
  exact hcount _ 0 h

/-- The size of a set is the number of its members. -/
theorem size_eq_card_members (s : PositionSet) : s.size = s.members.card :=
  size_eq_card_of_mem_iff fun p => by rw [members, List.mem_toFinset, mem_toList]

/-- A walk through a set in range is in range. -/
theorem inRange_walk_window (h : s.InRange) : s.window.walk.InRange := by
  refine ⟨h.bound_le, fun hcurrent => Nat.pos_of_ne_zero fun hsize => hcurrent ?_⟩
  have hnone : s.words[0]? = none := Array.getElem?_eq_none (Nat.le_of_eq hsize)
  change s.words[0]?.getD 0 = 0
  rw [hnone]
  rfl

/-- At its start, a walk through a set in range has counted no further than the window can reach. -/
theorem reach_walk_window_le (h : s.InRange) : s.window.walk.reach ≤ 2 ^ 58 := by
  have hle : s.words.size ≤ 2 ^ 58 := Nat.le_trans (Nat.le_add_left _ _) h.bound_le
  exact Nat.max_le.mpr ⟨hle, by simp [Window.walk]⟩

/-- A set is **safe** if the checked operations refuse nothing on its window, and come to what they
come to on the set. -/
structure Safe (s : PositionSet) : Prop where
  /-- There is no word behind the first `2 ^ 58`. -/
  bound_le : s.offset + s.words.size ≤ 2 ^ 58
  /-- Any position in range can be added. -/
  addChecked_eq : ∀ p < 2 ^ 64, s.window.addChecked p = .ok (!s.contains p, (s.insert p).window)
  /-- Any position in range can be asked for. -/
  containsChecked_eq : ∀ p < 2 ^ 64, s.window.containsChecked p = .ok (s.contains p)
  /-- Any set in range can be added. -/
  absorbChecked_eq : ∀ t : PositionSet, t.InRange →
    s.window.absorbChecked t.window = .ok (!t.isSubset s, (s ∪ t).window)
  /-- The greatest position can be asked for. -/
  maxChecked_eq : s.window.maxChecked = .ok s.max?
  /-- A walk gives all positions and then reports the end. Each call behind the last position
  counts on by one word, for which there is room at least `2 ^ 64 - 2 ^ 58` times. -/
  callChecked_eq : ∀ k < s.members.card + (2 ^ 64 - 2 ^ 58),
    s.window.walk.callChecked k = .ok (s.toList[k]?, stateAfter Walk.next (k + 1) s.window.walk)
  /-- The positions can be counted if there are less than `2 ^ 64`. -/
  sizeChecked_eq : s.members.card < 2 ^ 64 → s.window.sizeChecked = .ok s.members.card
  /-- Each position can be put together from the index of its word and the number of its bit. -/
  positionAt_eq : ∀ p ∈ s, s.offset ≤ p / Word.width ∧ p / Word.width - s.offset < s.words.size ∧
    Checked.positionAt s.offset (p / Word.width - s.offset) (p % Word.width) = .ok p

/-- Sets in range are safe. -/
theorem InRange.safe (h : s.InRange) : s.Safe where
  bound_le := h.bound_le
  addChecked_eq p hp := by
    rw [Window.addChecked_eq h.bound_lt hp, Window.add_window]
    rfl
  containsChecked_eq p _ := Window.containsChecked_eq s.window p
  absorbChecked_eq t ht := by
    rw [Window.absorbChecked_eq h.bound_lt ht.bound_lt, Window.absorb_window]
    rfl
  maxChecked_eq := maxChecked_window h
  callChecked_eq k hk := by
    rw [← size_eq_card_members] at hk
    have hreach := reach_walk_window_le h
    have hcall := @Walk.callChecked_eq _ (inRange_walk_window h) k
    rw [members_walk_window, length_toList] at hcall
    exact hcall (by omega)
  sizeChecked_eq := by
    rw [← size_eq_card_members]
    exact sizeChecked_window
  positionAt_eq p hp := by
    obtain ⟨hoffset, hbound⟩ := window_of_mem hp
    rw [bound] at hbound
    exact ⟨hoffset, by omega, Checked.positionAt_split (h p hp) hoffset⟩

/-! ### Checked steps -/

namespace Step

/-- The positions that the step names. -/
def positions : Step → List Nat
  | new _ | clone _ _ | union _ _ => []
  | singleton _ p | insert _ p => [p]
  | ofList _ ps | insertMany _ ps => ps

/-- All positions that the step names are below `2 ^ 64`. -/
def InRange (step : Step) : Prop := ∀ p ∈ step.positions, p < 2 ^ 64

/-- What the step leaves under the number of its own set, with checks. -/
def windowChecked (windows : Nat → Window) : Step → Except Fault Window
  | new _ => return .empty
  | singleton _ p => do
      let (word, bit) ← Checked.split p
      return ⟨word, #[bit]⟩
  | ofList _ ps => Window.empty.extendChecked ps
  | clone _ j => return windows j
  | insert i p => do
      let (_, w) ← (windows i).addChecked p
      return w
  | insertMany i ps => (windows i).extendChecked ps
  | union i j => do
      let (_, w) ← (windows i).absorbChecked (windows j)
      return w

/-- The windows after a step, with checks. -/
def applyChecked (windows : Nat → Window) (step : Step) : Except Fault (Nat → Window) := do
  let w ← step.windowChecked windows
  return Function.update windows step.target w

variable {sets : Nat → PositionSet} {step : Step}

/-- A step in range leaves a set in range. -/
theorem inRange_result (hsets : ∀ i, (sets i).InRange) (h : step.InRange) :
    (step.result sets).InRange := by
  intro p hp
  cases step with
  | new i => exact absurd hp (not_mem_empty p)
  | singleton i q => exact h p (by simpa [positions] using mem_singleton.mp hp)
  | ofList i ps => exact h p (mem_ofList.mp hp)
  | clone i j => exact hsets j p hp
  | insert i q => exact (hsets i).insert (h q List.mem_cons_self) p hp
  | insertMany i ps => exact (mem_insertMany.mp hp).elim (hsets i p) (h p)
  | union i j => exact (mem_union.mp hp).elim (hsets i p) (hsets j p)

/-- A step in range leaves all sets in range. -/
theorem inRange_apply (hsets : ∀ i, (sets i).InRange) (h : step.InRange) (i : Nat) :
    (step.apply sets i).InRange := by
  by_cases hi : i = step.target
  · subst hi
    rw [apply, Function.update_self]
    exact inRange_result hsets h
  · rw [apply, Function.update_of_ne hi]
    exact hsets i

/-- A checked step in range refuses nothing. -/
theorem windowChecked_eq (hsets : ∀ i, (sets i).InRange) (h : step.InRange) :
    step.windowChecked (fun i => (sets i).window) = .ok (step.window fun i => (sets i).window) := by
  cases step with
  | new i => rfl
  | singleton i p =>
      rw [windowChecked, Checked.split_eq]
      rfl
  | ofList i ps => exact extendChecked_window (s := ∅) (fun p hp => absurd hp (not_mem_empty p)) h
  | clone i j => rfl
  | insert i p =>
      rw [windowChecked, Window.addChecked_eq (hsets i).bound_lt (h p List.mem_cons_self)]
      rfl
  | insertMany i ps => exact extendChecked_window (hsets i) h
  | union i j =>
      rw [windowChecked, Window.absorbChecked_eq (hsets i).bound_lt (hsets j).bound_lt]
      rfl

/-- A checked step in range refuses nothing, and leaves the windows of the sets after the step. -/
theorem applyChecked_eq (hsets : ∀ i, (sets i).InRange) (h : step.InRange) :
    step.applyChecked (fun i => (sets i).window) = .ok fun i => (step.apply sets i).window := by
  rw [applyChecked, windowChecked_eq hsets h, window_apply]
  rfl

/-- Checked steps in range refuse nothing one after the other, and leave sets in range. -/
theorem foldlM_applyChecked {steps : List Step} (hsets : ∀ i, (sets i).InRange)
    (h : ∀ step ∈ steps, step.InRange) :
    (steps.foldlM applyChecked fun i => (sets i).window) =
        .ok (fun i => (steps.foldl apply sets i).window) ∧
      ∀ i, (steps.foldl apply sets i).InRange := by
  induction steps generalizing sets with
  | nil => exact ⟨rfl, hsets⟩
  | cons step steps ih =>
      obtain ⟨hstep, hrest⟩ := List.forall_mem_cons.mp h
      rw [List.foldlM_cons, applyChecked_eq hsets hstep, Checked.ok_bind, List.foldl_cons]
      exact ih (inRange_apply hsets hstep) hrest

end Step

/-- The windows after some steps, with checks. -/
def windowsAfterChecked (steps : List Step) : Except Fault (Nat → Window) :=
  steps.foldlM Step.applyChecked fun _ => .empty

/-- **No wrap-around and no index out of range.** Steps that name positions below `2 ^ 64` refuse
nothing, and leave the windows of the sets of the positions that went into them. Each of these sets
is safe, and any of them can be added to any other. -/
theorem windowsAfterChecked_eq (steps : List Step) (h : ∀ step ∈ steps, step.InRange) :
    windowsAfterChecked steps = .ok (windowsAfter steps) ∧
    ∀ i, windowsAfter steps i = (setsAfter steps i).window ∧
      (setsAfter steps i).members = valuesAfter steps i ∧ (setsAfter steps i).Safe ∧
      ∀ j, (setsAfter steps i).window.absorbChecked (setsAfter steps j).window =
        .ok (!(setsAfter steps j).isSubset (setsAfter steps i),
          (setsAfter steps i ∪ setsAfter steps j).window) := by
  obtain ⟨hwindows, hrange⟩ :=
    @Step.foldlM_applyChecked (fun _ => ∅) steps (fun _ p hp => absurd hp (not_mem_empty p)) h
  refine ⟨?_, fun i => ⟨windowsAfter_eq steps i, members_eq (mem_setsAfter steps i),
    (hrange i).safe, fun j => ?_⟩⟩
  · rw [funext (windowsAfter_eq steps)]
    exact hwindows
  · exact (hrange i).safe.absorbChecked_eq _ (hrange j)

/-- The last positions in range, in the last words that there are. -/
def lastSteps : List Step :=
  [.singleton 0 (2 ^ 64 - 1), .insert 0 (2 ^ 64 - 65), .ofList 1 [2 ^ 64 - 64, 2 ^ 64 - 200],
    .union 0 1]

/-- At the end of the range the window ends with the last word, and the greatest position is the
last one. -/
theorem windowsAfterChecked_lastSteps :
    (∀ step ∈ lastSteps, step.InRange) ∧
    windowsAfterChecked lastSteps = .ok (windowsAfter lastSteps) ∧
    (windowsAfter lastSteps 0).bound = 2 ^ 58 ∧
    (windowsAfter lastSteps 0).maxChecked = .ok (some (2 ^ 64 - 1)) := by
  have hrange : ∀ step ∈ lastSteps, step.InRange := by
    simp [lastSteps, Step.InRange, Step.positions]
  obtain ⟨hrun, hsets⟩ := windowsAfterChecked_eq lastSteps hrange
  obtain ⟨hwindow, -, hsafe, -⟩ := hsets 0
  have hmax : (setsAfter lastSteps 0).max? = some (2 ^ 64 - 1) := by
    rw [max?_eq_some_iff]
    simp only [mem_setsAfter]
    decide
  refine ⟨hrange, hrun, ?_, ?_⟩
  · decide
  · rw [hwindow, hsafe.maxChecked_eq, hmax]

end PositionSet

end RegexPositions
