import RegexPositions.Token.Depth

/-!
# Scanning for a Fault

A scan keeps the depth and stops at the first item at fault. `FaultAt` says that an item is at
fault at the depth where it stands, and `FirstFault` that no item before it is.

* `standsIn_of_mem_itemsOf` — a token is written at its index, and the only item that is no token
  is an escape character with nothing after it;
* `scanDepth_of_firstFault`, `scanDepth_of_no_fault` — a scan fails with the first fault, or
  returns the depth after all items;
* `scanDepth_add_tokenCount` — that depth is the number of operands less the number of operators
  that take two.
-/

namespace RegexPositions

/-- Is the token an operator with two operands? -/
def Token.isBinary : Token → Bool
  | binary _ => true
  | operand _ | escaped _ | endMarker | unary _ | grouping _ => false

/-- The cause of a fault is found in the text: the character that it names stands at its index,
and an escape character at fault is the last character. -/
def Malformed.FoundIn (s : List Char) : Malformed → Prop
  | missingOperand index op => s[index]? = some op
  | unresolvedMetacharacter index symbol => s[index]? = some symbol
  | danglingEscape index => s[index]? = some escape ∧ index + 1 = s.length
  | unconsumedOperands _ | emptyExpression => False

namespace TokenReader

/-! ### The items of an expression -/

/-- The items of an expression from left to right. -/
def itemsOf (expression : String) : List Item :=
  (ofExpression expression).readAll.1.toList

section Items

variable {s : List Char} {reader after : TokenReader} {item : Item}

/-- The item stands in the text: a token is written at its index, and what is no token is an
escape character with nothing after it. -/
def StandsIn (s : List Char) : Item → Prop
  | .ok placed => placed.token.spell <+: s.drop placed.index
  | .error cause => ∃ index, s.drop index = [escape] ∧ cause = .danglingEscape index

/-- A step reads an item that stands in the text, and leaves the reader behind it. -/
theorem standsIn_of_next (hrest : reader.rest = s.drop reader.index)
    (h : reader.next = (some item, after)) :
    StandsIn s item ∧ after.rest = s.drop after.index := by
  have hdrop : ∀ n, s.drop (reader.index + n) = reader.rest.drop n := fun n => by
    rw [hrest, List.drop_drop]
  unfold next at h
  split at h
  · cases h
  · next c hc =>
      split at h
      · next hesc =>
          cases h
          exact ⟨⟨reader.index, by rw [← hrest, hc, hesc], rfl⟩, by rw [hdrop, hc]; rfl⟩
      · cases h
        refine ⟨?_, by rw [hdrop, hc]; rfl⟩
        rw [StandsIn, Token.spell_ofChar, ← hrest]
        exact ⟨[], hc.symm⟩
  · next c d rest hc =>
      split at h
      · next hesc =>
          cases h
          refine ⟨?_, by rw [hdrop, hc]; rfl⟩
          rw [StandsIn, Token.spell, ← hrest, hc, hesc]
          exact List.prefix_append [escape, d] rest
      · cases h
        refine ⟨?_, by rw [hdrop, hc]; rfl⟩
        rw [StandsIn, Token.spell_ofChar, ← hrest, hc]
        exact List.prefix_append [c] (d :: rest)

/-- Whatever is read from some place on in a text stands in the text. -/
theorem standsIn_of_mem_readAll (hrest : reader.rest = s.drop reader.index)
    (h : item ∈ reader.readAll.1) : StandsIn s item := by
  generalize hn : reader.rest.length = n
  induction n using Nat.strongRecOn generalizing reader with
  | ind n ih =>
      rcases hnext : reader.next with ⟨_ | first, after⟩
      · rw [readAll_of_next_none hnext] at h
        simp at h
      · obtain ⟨hfirst, hafter⟩ := standsIn_of_next hrest hnext
        rw [readAll_of_next_some hnext] at h
        rcases Array.mem_append.mp h with h | h
        · obtain rfl : item = first := by simpa using h
          exact hfirst
        · exact ih _ (hn ▸ length_rest_next_lt hnext) hafter h rfl

/-- The items of an expression stand in it. -/
theorem standsIn_of_mem_itemsOf {expression : String} (h : item ∈ itemsOf expression) :
    StandsIn expression.toList item := by
  have hrest : (ofExpression expression).rest = expression.toList.drop 0 := rfl
  exact standsIn_of_mem_readAll hrest (Array.mem_toList_iff.mp h)

/-- Only the empty expression has no items. -/
theorem itemsOf_eq_nil_iff {expression : String} : itemsOf expression = [] ↔ expression = "" := by
  constructor
  · intro h
    rw [itemsOf] at h
    rcases hnext : (ofExpression expression).next with ⟨_ | first, after⟩
    · unfold next at hnext
      split at hnext
      · next hrest => exact String.toList_inj.mp hrest
      · split at hnext <;> cases hnext
      · split at hnext <;> cases hnext
    · rw [readAll_of_next_some hnext] at h
      simp at h
  · rintro rfl
    have hnext : (ofExpression "").next = (none, ofExpression "") := rfl
    rw [itemsOf, readAll_of_next_none hnext]

end Items

/-! ### Faults -/

/-- The depth before item number `k`, where `depth` is that before all items. -/
def depthBefore (depth : Nat) (items : List Item) (k : Nat) : Nat :=
  (items.take k).foldl depthAfter depth

/-- Item number `k` is at fault. -/
def FaultAt (depth : Nat) (items : List Item) (k : Nat) (cause : Malformed) : Prop :=
  ∃ item, items[k]? = some item ∧ fault? (depthBefore depth items k) item = some cause

/-- Item number `k` is at fault, and no item before it is. -/
structure FirstFault (depth : Nat) (items : List Item) (k : Nat) (cause : Malformed) : Prop where
  /-- The item is at fault. -/
  faultAt : FaultAt depth items k cause
  /-- The items before it are not. -/
  not_faultAt : ∀ j < k, ∀ other, ¬FaultAt depth items j other

variable {depth final k : Nat} {cause : Malformed} {item : Item} {items : List Item}

/-- The first item is at fault if it cannot be taken at the depth at the start. -/
theorem faultAt_zero : FaultAt depth (item :: items) 0 cause ↔ fault? depth item = some cause := by
  simp [FaultAt, depthBefore]

/-- A later item is at fault if it is so among the items behind the first, from the depth after
that. -/
theorem faultAt_succ :
    FaultAt depth (item :: items) (k + 1) cause ↔
      FaultAt (depthAfter depth item) items k cause := by
  simp [FaultAt, depthBefore]

/-- The scan stops at a first item that is at fault. -/
theorem scanDepth_cons_of_fault (h : fault? depth item = some cause) :
    scanDepth depth (item :: items) = .error cause := by
  rw [scanDepth, h]

/-- The scan goes on past a first item that is not at fault. -/
theorem scanDepth_cons_of_no_fault (h : fault? depth item = none) :
    scanDepth depth (item :: items) = scanDepth (depthAfter depth item) items := by
  rw [scanDepth, h]

/-- Where an item is at fault, there is a first one. -/
theorem exists_firstFault_of_faultAt (h : FaultAt depth items k cause) :
    ∃ j first, j ≤ k ∧ FirstFault depth items j first := by
  induction k using Nat.strongRecOn generalizing cause with
  | ind k ih =>
      by_cases hearlier : ∃ j < k, ∃ other, FaultAt depth items j other
      · obtain ⟨j, hj, other, hother⟩ := hearlier
        obtain ⟨i, first, hi, hfirst⟩ := ih j hj hother
        exact ⟨i, first, by omega, hfirst⟩
      · refine ⟨k, cause, Nat.le_refl k, h, fun j hj other hother => ?_⟩
        exact hearlier ⟨j, hj, other, hother⟩

/-- A scan fails with the first fault. -/
theorem scanDepth_of_firstFault (h : FirstFault depth items k cause) :
    scanDepth depth items = .error cause := by
  induction items generalizing depth k with
  | nil =>
      obtain ⟨item, hitem, -⟩ := h.faultAt
      cases hitem
  | cons item items ih =>
      cases k with
      | zero => exact scanDepth_cons_of_fault (faultAt_zero.mp h.faultAt)
      | succ k =>
          have hnone : fault? depth item = none := by
            refine Option.eq_none_iff_forall_ne_some.mpr fun other hother => ?_
            exact h.not_faultAt 0 (Nat.succ_pos k) other (faultAt_zero.mpr hother)
          rw [scanDepth_cons_of_no_fault hnone]
          refine ih ⟨faultAt_succ.mp h.faultAt, fun j hj other hother => ?_⟩
          exact h.not_faultAt (j + 1) (Nat.succ_lt_succ hj) other (faultAt_succ.mpr hother)

/-- Without a fault, a scan returns the depth after all items. -/
theorem scanDepth_of_no_fault (h : ∀ k cause, ¬FaultAt depth items k cause) :
    scanDepth depth items = .ok (items.foldl depthAfter depth) := by
  induction items generalizing depth with
  | nil => rfl
  | cons item items ih =>
      have hnone : fault? depth item = none :=
        Option.eq_none_iff_forall_ne_some.mpr fun other hother =>
          h 0 other (faultAt_zero.mpr hother)
      rw [scanDepth_cons_of_no_fault hnone, List.foldl_cons]
      exact ih fun k cause hfault => h (k + 1) cause (faultAt_succ.mpr hfault)

/-- The cause of a fault names a character of the text. -/
theorem foundIn_of_fault? {s : List Char} (hstands : StandsIn s item)
    (h : fault? depth item = some cause) : cause.FoundIn s := by
  have hhead : ∀ {index : Nat} {c : Char}, [c] <+: s.drop index → s[index]? = some c := by
    rintro index c ⟨rest, hrest⟩
    rw [← List.head?_drop, ← hrest]
    rfl
  cases item with
  | error other =>
      obtain ⟨index, hdrop, rfl⟩ := hstands
      obtain rfl : _ = cause := Option.some.inj h
      refine ⟨hhead ⟨[], by rw [hdrop]; rfl⟩, ?_⟩
      have hlength := congrArg List.length hdrop
      rw [List.length_drop, List.length_singleton] at hlength
      omega
  | ok placed =>
      obtain ⟨index, token⟩ := placed
      cases token with
      | operand c => cases h
      | escaped c => cases h
      | endMarker => cases h
      | unary op =>
          simp only [fault?, Option.ite_none_right_eq_some, Option.some.injEq] at h
          obtain ⟨-, rfl⟩ := h
          exact hhead hstands
      | binary op =>
          simp only [fault?, Option.ite_none_right_eq_some, Option.some.injEq] at h
          obtain ⟨-, rfl⟩ := h
          exact hhead hstands
      | grouping c =>
          obtain rfl : _ = cause := Option.some.inj h
          exact hhead hstands

/-! ### The depth at the end -/

/-- The number of items that are a token of some kind. -/
def tokenCount (kind : Token → Bool) (items : List Item) : Nat :=
  items.countP fun
    | .ok placed => kind placed.token
    | .error _ => false

/-- An item that is not at fault leaves a subtree. -/
theorem depthAfter_pos (h : fault? depth item = none) : 0 < depthAfter depth item := by
  cases item with
  | error other => cases h
  | ok placed =>
      obtain ⟨index, token⟩ := placed
      cases token with
      | operand c | escaped c | endMarker => exact Nat.succ_pos depth
      | unary op =>
          simp only [fault?, ite_eq_right_iff, reduceCtorEq, imp_false] at h
          change 0 < depth
          omega
      | binary op =>
          simp only [fault?, ite_eq_right_iff, reduceCtorEq, imp_false] at h
          change 0 < depth - 1
          omega
      | grouping c => cases h

/-- An operand adds one to the depth and an operator with two operands takes one away. -/
theorem depthAfter_add_tokenCount (h : fault? depth item = none) :
    depthAfter depth item + tokenCount Token.isBinary [item] =
      depth + tokenCount Token.isOperand [item] := by
  cases item with
  | error other => cases h
  | ok placed =>
      obtain ⟨index, token⟩ := placed
      cases token with
      | operand c | escaped c | endMarker | unary op => rfl
      | binary op =>
          simp only [fault?, ite_eq_right_iff, reduceCtorEq, imp_false] at h
          change depth - 1 + 1 = depth
          omega
      | grouping c => cases h

/-- The depth at the end is zero only where nothing was read. -/
theorem eq_nil_of_scanDepth_zero (h : scanDepth depth items = .ok 0) : depth = 0 ∧ items = [] := by
  induction items generalizing depth with
  | nil => exact ⟨Except.ok.inj h, rfl⟩
  | cons item items ih =>
      cases hfault : fault? depth item with
      | some cause =>
          rw [scanDepth_cons_of_fault hfault] at h
          cases h
      | none =>
          rw [scanDepth_cons_of_no_fault hfault] at h
          have hpos := depthAfter_pos hfault
          have hzero := (ih h).1
          omega

/-- The depth at the end is the number of operands less the number of operators with two. -/
theorem scanDepth_add_tokenCount (h : scanDepth depth items = .ok final) :
    final + tokenCount Token.isBinary items = depth + tokenCount Token.isOperand items := by
  induction items generalizing depth with
  | nil => rw [Except.ok.inj h]; rfl
  | cons item items ih =>
      cases hfault : fault? depth item with
      | some cause =>
          rw [scanDepth_cons_of_fault hfault] at h
          cases h
      | none =>
          rw [scanDepth_cons_of_no_fault hfault] at h
          have hitem := depthAfter_add_tokenCount hfault
          have hitems := ih h
          have hsplit : ∀ kind, tokenCount kind (item :: items) =
              tokenCount kind [item] + tokenCount kind items := fun kind => by
            rw [← List.singleton_append, tokenCount, List.countP_append]
            rfl
          rw [hsplit, hsplit]
          omega

end TokenReader

end RegexPositions
