import Mathlib.Logic.Function.Iterate
import RegexPositions.PositionSet.Cursor
import RegexPositions.Proofs.PositionSet.Canonical

/-!
# Walking Through a Window in Place

The words of a window can be walked through where they are. A `Walk` keeps the number of the
current word and the bits of it that are still to be given: a call gives the lowest of these and
takes it off with a borrow, and where none is left it goes on to the next word that is not zero,
over any number of zero words. Unlike a `Cursor` it counts on when there are no more words, so its
state keeps changing after the last position, by one word for each call (`Walk.reach_stateAfter`).

* `Walk.fst_next`, `Walk.members_snd_next` — a call takes the first position off those left
  (`Walk.members`), from whatever place. Hence call number `k` gives position number `k`
  (`next_stateAfter`), and a loop over the positions ends (`Walk.drain`);
* `Enumerates` — what it means that a list gives the positions of a set one by one;
* `setsAfter_enumerates` — after any steps, the loop over the window of a set enumerates the set.
  A set made of what the loop gives is the same set, and just this is written down of it.
-/

namespace RegexPositions

/-! ### The lowest bit -/

namespace Word

/-- The number of a word from its lowest bit up. -/
theorem exists_toNat_eq {w : Word} (h : w ≠ 0) :
    ∃ q, w.toNat = 2 ^ (w.lowest + 1) * q + 2 ^ w.lowest := by
  refine ⟨w.toNat / 2 ^ (w.lowest + 1), ?_⟩
  have hmod : w.toNat % 2 ^ (w.lowest + 1) = 2 ^ w.lowest := by
    apply Nat.eq_of_testBit_eq
    intro i
    rw [Nat.testBit_mod_two_pow, Nat.testBit_two_pow]
    rcases Nat.lt_trichotomy i w.lowest with hi | rfl | hi
    · have hlt := Nat.lt_trans hi (lowest_lt h)
      rw [← bit_eq_testBit hlt, bit_eq_false_of_lt_lowest h hi, Bool.and_false,
        decide_eq_false (Nat.ne_of_gt hi)]
    · rw [← bit_eq_testBit (lowest_lt h), bit_lowest h, decide_eq_true (Nat.lt_succ_self _),
        decide_eq_true rfl, Bool.and_true]
    · rw [decide_eq_false (Nat.not_lt.mpr hi), decide_eq_false (Nat.ne_of_lt hi), Bool.false_and]
  rw [← hmod, Nat.div_add_mod]

/-- Below the lowest bit a borrow changes every bit, and above it none. -/
theorem testBit_toNat_sub_one {w : Word} (h : w ≠ 0) (i : Nat) :
    (w.toNat - 1).testBit i =
      if i ≤ w.lowest then decide (i < w.lowest) else w.toNat.testBit i := by
  obtain ⟨q, hq⟩ := exists_toNat_eq h
  have hpos := Nat.two_pow_pos w.lowest
  have hlt : 2 ^ w.lowest < 2 ^ (w.lowest + 1) := Nat.pow_lt_pow_succ (by decide)
  have hsub : w.toNat - 1 = 2 ^ (w.lowest + 1) * q + (2 ^ w.lowest - 1) := by omega
  rw [hsub, Nat.testBit_two_pow_mul_add q (by omega), Nat.testBit_two_pow_sub_one]
  by_cases hi : i ≤ w.lowest
  · rw [if_pos hi, if_pos (Nat.lt_succ_of_le hi)]
  · rw [if_neg hi, if_neg (by omega), hq, Nat.testBit_two_pow_mul_add q hlt, if_neg (by omega)]

/-- A word that is not zero is at least one. -/
theorem one_le {w : Word} (h : w ≠ 0) : 1 ≤ w :=
  UInt64.le_iff_toNat_le.mpr (Nat.pos_of_ne_zero (toNat_ne_zero h))

/-- The lowest bit is cleared with a borrow. -/
theorem and_sub_one {w : Word} (h : w ≠ 0) : w &&& (w - 1) = w.clear w.lowest := by
  apply ext_bit
  intro i hi
  rw [bit_clear (lowest_lt h) hi, bit_eq_testBit hi, bit_eq_testBit hi, UInt64.toNat_and,
    Nat.testBit_and, UInt64.toNat_sub_of_le _ _ (one_le h), UInt64.toNat_one,
    testBit_toNat_sub_one h]
  rcases Nat.lt_trichotomy i w.lowest with hlt | rfl | hlt
  · rw [← bit_eq_testBit hi, bit_eq_false_of_lt_lowest h hlt, Bool.false_and, Bool.false_and]
  · simp
  · rw [if_neg (Nat.not_le.mpr hlt), Bool.and_self, decide_eq_true (Nat.ne_of_lt hlt),
      Bool.and_true]

end Word

/-! ### Calls -/

section Calls

variable {σ α : Type}

/-- The state after `k` calls, whatever these give. -/
def stateAfter (next : σ → Option α × σ) (k : Nat) (state : σ) : σ :=
  (fun s => (next s).2)^[k] state

/-- One more call takes the state one step further. -/
theorem stateAfter_succ (next : σ → Option α × σ) (k : Nat) (state : σ) :
    stateAfter next (k + 1) state = (next (stateAfter next k state)).2 :=
  Function.iterate_succ_apply' _ k state

/-- If each call takes the first item off those left, call number `k` gives item number `k`, and
a call behind the last item gives none. -/
theorem next_stateAfter {next : σ → Option α × σ} {items : σ → List α}
    (hhead : ∀ s, (next s).1 = (items s).head?) (htail : ∀ s, items (next s).2 = (items s).tail)
    (k : Nat) (state : σ) :
    next (stateAfter next k state) = ((items state)[k]?, stateAfter next (k + 1) state) := by
  have hdrop : items (stateAfter next k state) = (items state).drop k := by
    induction k with
    | zero => rfl
    | succ k ih => rw [stateAfter_succ, htail, ih, List.tail_drop]
  refine Prod.ext ?_ (stateAfter_succ next k state).symm
  rw [hhead, hdrop, List.head?_drop]

end Calls

/-- A **walk**: a place among the words of a window. -/
structure Walk where
  /-- The words of the window. -/
  words : Array Word
  /-- The number of the first of them. -/
  offset : Nat
  /-- The index of the current word, or one beyond all words. -/
  index : Nat
  /-- The bits of the current word that are still to be given. -/
  current : Word

namespace Walk

/-- The next position, if one is left, and the walk behind it. -/
def next (walk : Walk) : Option Nat × Walk :=
  if walk.current = 0 then
    match _ : walk.words[walk.index + 1]? with
    | none => (none, { walk with index := walk.index + 1 })
    | some word => next { walk with index := walk.index + 1, current := word }
  else
    (some ((walk.offset + walk.index) * Word.width + walk.current.lowest),
      { walk with current := walk.current &&& (walk.current - 1) })
termination_by walk.words.size - walk.index
decreasing_by
  have hlt := (Array.getElem?_eq_some_iff.mp ‹walk.words[walk.index + 1]? = some _›).1
  omega

/-- The positions still to be given. -/
def members (walk : Walk) : List Nat :=
  Cursor.membersFrom (walk.offset + walk.index) walk.current
    (walk.words.toList.drop (walk.index + 1))

variable {walk after : Walk} {word : Word} {p : Nat}

/-- Where the current word has bits left, a call gives the lowest one and takes it off. -/
theorem next_of_current_ne_zero (h : walk.current ≠ 0) :
    walk.next = (some ((walk.offset + walk.index) * Word.width + walk.current.lowest),
      { walk with current := walk.current &&& (walk.current - 1) }) := by
  rw [next, if_neg h]

/-- Where the current word has no bits left, the walk goes on with the next word. -/
theorem next_of_current_eq_zero (h : walk.current = 0)
    (hword : walk.words[walk.index + 1]? = some word) :
    walk.next = { walk with index := walk.index + 1, current := word }.next := by
  rw [next, if_pos h]
  split
  · next hnone => simp_all
  · next other hother => simp_all

/-- Where there is no next word either, the walk only counts on. -/
theorem next_of_words_end (h : walk.current = 0) (hword : walk.words[walk.index + 1]? = none) :
    walk.next = (none, { walk with index := walk.index + 1 }) := by
  rw [next, if_pos h]
  split
  · rfl
  · next other hother => simp_all

/-- Where the current word has bits left, the lowest one stands for the first position left. -/
theorem members_of_current_ne_zero (h : walk.current ≠ 0) :
    walk.members = ((walk.offset + walk.index) * Word.width + walk.current.lowest) ::
      { walk with current := walk.current &&& (walk.current - 1) }.members := by
  rw [members, members, Word.and_sub_one h]
  cases hahead : walk.words.toList.drop (walk.index + 1) <;>
    simp [Cursor.membersFrom, Cursor.bits_eq_cons h, Nat.mul_comm]

/-- Where the current word has no bits left, the positions left are those from the next word on. -/
theorem members_of_current_eq_zero (h : walk.current = 0)
    (hword : walk.words[walk.index + 1]? = some word) :
    walk.members = { walk with index := walk.index + 1, current := word }.members := by
  obtain ⟨hlt, hget⟩ := Array.getElem?_eq_some_iff.mp hword
  have hdrop : walk.words.toList.drop (walk.index + 1) =
      word :: walk.words.toList.drop (walk.index + 1 + 1) := by
    rw [List.drop_eq_getElem_cons (by simpa using hlt), Array.getElem_toList, hget]
  rw [members, members, hdrop, h, Cursor.membersFrom, Cursor.bits_zero]
  rfl

/-- Where neither the current word has bits left nor is there a next one, no position is left. -/
theorem members_of_words_end (h : walk.current = 0) (hword : walk.words[walk.index + 1]? = none) :
    walk.members = [] := by
  have hsize := Array.getElem?_eq_none_iff.mp hword
  rw [members, h, List.drop_eq_nil_of_le (by simpa using hsize), Cursor.membersFrom,
    Cursor.bits_zero]
  rfl

/-- A call takes the first position off those left. -/
theorem next_eq (walk : Walk) :
    walk.next.1 = walk.members.head? ∧ walk.next.2.members = walk.members.tail := by
  -- One case for each way a call goes: no more words, on to the next word, and a bit that is left.
  induction walk using next.induct with
  | case1 walk hzero hword =>
      have hlater : walk.words[walk.index + 1 + 1]? = none :=
        Array.getElem?_eq_none (Nat.le_succ_of_le (Array.getElem?_eq_none_iff.mp hword))
      rw [next_of_words_end hzero hword, members_of_words_end hzero hword]
      exact ⟨rfl, members_of_words_end hzero hlater⟩
  | case2 walk hzero word hword ih =>
      rw [next_of_current_eq_zero hzero hword, members_of_current_eq_zero hzero hword]
      exact ih
  | case3 walk hzero =>
      rw [next_of_current_ne_zero hzero, members_of_current_ne_zero hzero]
      exact ⟨rfl, rfl⟩

/-- A call gives the first position left, if any. -/
theorem fst_next (walk : Walk) : walk.next.1 = walk.members.head? :=
  walk.next_eq.1

/-- A call takes the first position off those left. -/
theorem members_snd_next (walk : Walk) : walk.next.2.members = walk.members.tail :=
  walk.next_eq.2

/-- Where a call gives none, no position is left. -/
theorem members_of_next_none (h : walk.next = (none, after)) : walk.members = [] := by
  have hhead := walk.fst_next
  rw [h] at hhead
  exact List.head?_eq_none_iff.mp hhead.symm

/-- Where a call gives a position, it was the first of those left, and the others still are. -/
theorem members_of_next_some (h : walk.next = (some p, after)) :
    walk.members = p :: after.members := by
  have hhead := walk.fst_next
  have htail := walk.members_snd_next
  rw [h] at hhead htail
  rw [htail]
  exact (List.cons_head?_tail hhead.symm).symm

/-- Call number `k` gives position number `k` of those left. -/
theorem next_stateAfter (walk : Walk) (k : Nat) :
    (stateAfter next k walk).next = (walk.members[k]?, stateAfter next (k + 1) walk) :=
  RegexPositions.next_stateAfter fst_next members_snd_next k walk

/-- The loop over all positions still to be given: calls until one gives none. -/
def drain (walk : Walk) : List Nat :=
  match _ : walk.next with
  | (none, _) => []
  | (some p, after) => p :: after.drain
termination_by walk.members.length
decreasing_by
  rw [members_of_next_some ‹walk.next = _›]
  exact Nat.lt_succ_self _

/-- The loop gives the positions left, each once. -/
theorem drain_eq (walk : Walk) : walk.drain = walk.members := by
  induction walk using drain.induct with
  | case1 walk after hnext =>
      rw [drain, members_of_next_none hnext]
      split <;> simp_all
  | case2 walk p after hnext ih =>
      rw [drain, members_of_next_some hnext, ← ih]
      split <;> simp_all

/-- How far a walk has counted: at least to the end of the words. -/
def reach (walk : Walk) : Nat := max walk.words.size (walk.index + 1)

/-- Only a call that gives none counts on beyond the words. -/
theorem reach_snd_next (walk : Walk) :
    walk.next.2.reach ≤ walk.reach + if walk.next.1 = none then 1 else 0 := by
  induction walk using next.induct with
  | case1 walk hzero hword =>
      rw [next_of_words_end hzero hword]
      simp only [reach, if_true]
      omega
  | case2 walk hzero word hword ih =>
      have hlt := (Array.getElem?_eq_some_iff.mp hword).1
      rw [next_of_current_eq_zero hzero hword]
      refine Nat.le_trans ih (Nat.add_le_add_right ?_ _)
      simp only [reach]
      omega
  | case3 walk hzero =>
      rw [next_of_current_ne_zero hzero]
      exact Nat.le_refl _

/-- After `k` calls, a walk has counted on once for each call behind the last position. -/
theorem reach_stateAfter (walk : Walk) (k : Nat) :
    (stateAfter next k walk).reach ≤ walk.reach + (k - walk.members.length) := by
  induction k with
  | zero => exact Nat.le_add_right _ _
  | succ k ih =>
      have hcount := (stateAfter next k walk).reach_snd_next
      simp only [next_stateAfter, List.getElem?_eq_none_iff] at hcount
      refine Nat.le_trans hcount ?_
      split <;> omega

end Walk

/-! ### Walks through windows -/

namespace Window

/-- The walk before the first position. -/
def walk (w : Window) : Walk := ⟨w.words, w.offset, 0, w.words[0]?.getD 0⟩

/-- Writes one more item behind what is written down so far, with a separator if it is not the
first. -/
def writeItem (out : String × Bool) (p : Nat) : String × Bool :=
  (out.1 ++ (if out.2 then ", " else "") ++ toString p, true)

/-- What is written down of a window: its positions in ascending order, between braces. -/
def debug (w : Window) : String :=
  (w.walk.drain.foldl writeItem ("\x7b", false)).1 ++ "\x7d"

/-- Behind a first item, separators before the items are separators between them. -/
theorem foldl_writeItem (items : List Nat) (out : String) (first : Nat) :
    (items.foldl writeItem (out ++ toString first, true)).1 =
      out ++ ", ".intercalate ((first :: items).map toString) := by
  induction items generalizing out first with
  | nil => simp
  | cons p items ih =>
      have hwrite : writeItem (out ++ toString first, true) p =
          (out ++ toString first ++ ", " ++ toString p, true) := rfl
      rw [List.foldl_cons, hwrite, ih]
      simp only [List.map_cons, String.intercalate_cons_cons, String.append_assoc]

/-- What is written down are the positions between braces, with a comma between each two. -/
theorem debug_eq (w : Window) :
    w.debug = "\x7b" ++ ", ".intercalate (w.walk.drain.map toString) ++ "\x7d" := by
  rw [debug]
  cases w.walk.drain with
  | nil => rfl
  | cons first items =>
      rw [← foldl_writeItem]
      rfl

end Window

namespace PositionSet

variable {s : PositionSet} {v : Finset Nat}

/-- A walk through the window of a set has all its positions before it. -/
@[simp] theorem members_walk_window (s : PositionSet) : s.window.walk.members = s.toList := by
  have hcursor : s.window.walk.members = s.cursor.members := by
    simp only [Walk.members, Window.walk, window, Cursor.members, cursor, word, Nat.le_refl,
      if_true, Nat.sub_self, Nat.add_zero, Nat.zero_add, List.drop_one]
  rw [hcursor, members_cursor]

/-- The loop over the window of a set gives the list of the set. -/
theorem drain_walk_window (s : PositionSet) : s.window.walk.drain = s.toList := by
  rw [Walk.drain_eq, members_walk_window]

/-- A list **enumerates** a set that has the members of a finite set: it is the list that a loop
over the set is to give. -/
structure Enumerates (items : List Nat) (s : PositionSet) (v : Finset Nat) : Prop where
  /-- The items ascend, so there is none twice. -/
  pairwise : items.Pairwise (· < ·)
  /-- The items are the members. -/
  mem_iff : ∀ p, p ∈ items ↔ p ∈ v
  /-- There are as many items as the size says. -/
  length_eq : items.length = s.size
  /-- The last item is the greatest position. -/
  getLast?_eq : items.getLast? = s.max?
  /-- The first items are the least members: every other member is greater. -/
  take_lt : ∀ k, ∀ p ∈ items.take k, ∀ q ∈ v, q ∉ items.take k → p < q
  /-- A set made of the items is the same set. -/
  ofList_eq : ofList items = s

/-- The last position of the list is the greatest one. -/
theorem getLast?_toList (s : PositionSet) : s.toList.getLast? = s.max? := by
  cases hlast : s.toList.getLast? with
  | none =>
      have hnil := List.getLast?_eq_none_iff.mp hlast
      exact (max?_eq_none_iff.mpr fun p hp => by simpa [hnil] using mem_toList.mpr hp).symm
  | some m =>
      obtain ⟨before, hlist⟩ := List.getLast?_eq_some_iff.mp hlast
      have hsorted := s.pairwise_toList
      rw [hlist, List.pairwise_append] at hsorted
      refine (max?_eq_some_iff.mpr ⟨?_, fun p hp => ?_⟩).symm
      · rw [← mem_toList, hlist]
        exact List.mem_append_right _ List.mem_cons_self
      · rw [← mem_toList, hlist, List.mem_append, List.mem_singleton] at hp
        rcases hp with hp | rfl
        · exact Nat.le_of_lt (hsorted.2.2 p hp m List.mem_cons_self)
        · exact Nat.le_refl p

/-- The list of a set enumerates it. -/
theorem enumerates_toList (h : ∀ p, p ∈ s ↔ p ∈ v) : Enumerates s.toList s v where
  pairwise := s.pairwise_toList
  mem_iff p := mem_toList.trans (h p)
  length_eq := s.length_toList
  getLast?_eq := s.getLast?_toList
  take_lt k p hp q hq hnot := by
    have hsorted := s.pairwise_toList
    rw [← List.take_append_drop k s.toList, List.pairwise_append] at hsorted
    have hmem := mem_toList.mpr ((h q).mpr hq)
    rw [← List.take_append_drop k s.toList, List.mem_append] at hmem
    exact hsorted.2.2 p hp q (hmem.resolve_left hnot)
  ofList_eq := by
    ext p
    rw [mem_ofList, mem_toList]

/-- **Iteration is exact and ordered.** After any steps, the loop over the window of a set ends,
and what it gives enumerates the set. Call number `k` gives item number `k`, both of the walk
through the window and of the cursor; so every call behind the last position gives none, and the
first items can be taken without the others. The walk counts on by one word for each of the calls
behind the last position, so numbers of 64 bits leave room for almost as many of them as there are
numbers (`Safe`). The window made of the items is the same window, and what is written down of the
set are the items in decimal, separated by commas between braces. -/
theorem setsAfter_enumerates (steps : List Step) (i : Nat) :
    Enumerates (windowsAfter steps i).walk.drain (setsAfter steps i) (valuesAfter steps i) ∧
    (∀ k, (stateAfter Walk.next k (windowsAfter steps i).walk).next.1 =
        (windowsAfter steps i).walk.drain[k]? ∧
      (stateAfter Cursor.next k (setsAfter steps i).cursor).next.1 =
        (windowsAfter steps i).walk.drain[k]?) ∧
    (∀ k, (setsAfter steps i).size ≤ k →
      (stateAfter Walk.next k (windowsAfter steps i).walk).next.1 = none ∧
      (stateAfter Cursor.next k (setsAfter steps i).cursor).next.1 = none) ∧
    (∀ k, (stateAfter Walk.next k (windowsAfter steps i).walk).index ≤
      (windowsAfter steps i).words.size + (k - (setsAfter steps i).size)) ∧
    (∀ k, (setsAfter steps i).take k = (windowsAfter steps i).walk.drain.take k) ∧
    Window.ofList (windowsAfter steps i).walk.drain = windowsAfter steps i ∧
    (windowsAfter steps i).debug = toString (setsAfter steps i) ∧
    toString (setsAfter steps i) =
      "\x7b" ++ ", ".intercalate ((windowsAfter steps i).walk.drain.map toString) ++ "\x7d" := by
  have hitems := enumerates_toList (mem_setsAfter steps i)
  have hwalk : ∀ k, (stateAfter Walk.next k (setsAfter steps i).window.walk).next.1 =
      (setsAfter steps i).toList[k]? := fun k => by
    rw [Walk.next_stateAfter, members_walk_window]
  have hcursor : ∀ k, (stateAfter Cursor.next k (setsAfter steps i).cursor).next.1 =
      (setsAfter steps i).toList[k]? := fun k => by
    rw [next_stateAfter Cursor.fst_next Cursor.members_snd_next, members_cursor]
  have hdebug := Window.debug_eq (setsAfter steps i).window
  rw [windowsAfter_eq]
  rw [drain_walk_window] at hdebug ⊢
  refine ⟨hitems, fun k => ⟨hwalk k, hcursor k⟩, fun k hk => ?_, fun k => ?_, take_eq _, ?_,
    hdebug, rfl⟩
  · have hend : (setsAfter steps i).toList[k]? = none :=
      List.getElem?_eq_none (Nat.le_trans (Nat.le_of_eq hitems.length_eq) hk)
    exact ⟨(hwalk k).trans hend, (hcursor k).trans hend⟩
  · have hreach := (setsAfter steps i).window.walk.reach_stateAfter k
    rw [members_walk_window, length_toList] at hreach
    simp only [Walk.reach, Window.walk] at hreach ⊢
    omega
  · rw [Window.ofList_eq, hitems.ofList_eq]

end PositionSet

end RegexPositions
