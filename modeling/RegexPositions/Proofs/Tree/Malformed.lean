import RegexPositions.Proofs.Token.Depth
import RegexPositions.Tree.Assembly

/-!
# Which Expressions Have a Tree

An assembly has as many pending subtrees as the depth counts, so it fails where a scan of the
items fails, and for the same cause (`Assembly.addItem_of_fault` and
`Assembly.exists_addItem_of_no_fault` for one item, `Assembly.map_length_foldlM_addItem` for all
of them).

* `Tree.ofExpression_eq_error_iff_diagnose?` — the diagnosis that makes no tree is right;
* `Tree.ofExpression_of_scan` — an expression fails with its first fault. Without a fault, the
  depth at the end decides between too few subtrees, a tree, and too many.
-/

namespace RegexPositions

open TokenReader

namespace Assembly

variable {a : Assembly} {item : Item} {cause : Malformed}

/-! ### One item -/

/-- An item at fault ends the assembly. -/
theorem addItem_of_fault (h : fault? a.pending.length item = some cause) :
    a.addItem item = .error cause := by
  cases item with
  | error other => exact congrArg Except.error (Option.some.inj h)
  | ok placed =>
      obtain ⟨index, token⟩ := placed
      cases token with
      | operand c => cases h
      | escaped c => cases h
      | endMarker => cases h
      | unary op =>
          simp only [fault?, Option.ite_none_right_eq_some, Option.some.injEq] at h
          obtain ⟨hlt, rfl⟩ := h
          simp only [addItem, Except.bind, add]
          split
          · next hpending =>
              rw [hpending, List.length_cons] at hlt
              omega
          · rfl
      | binary op =>
          simp only [fault?, Option.ite_none_right_eq_some, Option.some.injEq] at h
          obtain ⟨hlt, rfl⟩ := h
          simp only [addItem, Except.bind, add]
          split
          · next hpending =>
              rw [hpending, List.length_cons, List.length_cons] at hlt
              omega
          · rfl
      | grouping c => exact congrArg Except.error (Option.some.inj h)

/-- Any other item is added, and the depth counts the subtrees that are then pending. -/
theorem exists_addItem_of_no_fault (h : fault? a.pending.length item = none) :
    ∃ b, a.addItem item = .ok b ∧ b.pending.length = depthAfter a.pending.length item := by
  cases item with
  | error other => cases h
  | ok placed =>
      obtain ⟨index, token⟩ := placed
      cases token with
      | operand c => exact ⟨_, rfl, rfl⟩
      | escaped c => exact ⟨_, rfl, rfl⟩
      | endMarker => exact ⟨_, rfl, rfl⟩
      | unary op =>
          simp only [fault?, ite_eq_right_iff, reduceCtorEq, imp_false] at h
          simp only [addItem, Except.bind, add]
          split
          · next operand rest hpending =>
              have hlength : a.pending.length = rest.length + 1 := congrArg List.length hpending
              exact ⟨_, rfl, hlength.symm⟩
          · next hpending =>
              rw [hpending, List.length_nil] at h
              omega
      | binary op =>
          simp only [fault?, ite_eq_right_iff, reduceCtorEq, imp_false] at h
          simp only [addItem, Except.bind, add]
          split
          · next right left rest hpending =>
              have hlength : a.pending.length = rest.length + 2 := congrArg List.length hpending
              refine ⟨_, rfl, ?_⟩
              change rest.length + 1 = a.pending.length - 1
              omega
          · next hpending =>
              rcases hlist : a.pending with _ | ⟨right, _ | ⟨left, rest⟩⟩
              · rw [hlist, List.length_nil] at h
                omega
              · rw [hlist, List.length_singleton] at h
                omega
              · exact absurd hlist (hpending right left rest)
      | grouping c => cases h

/-! ### All items -/

/-- Adding items one after the other fails where the scan fails, and otherwise leaves as many
subtrees pending as the scan counts. -/
theorem map_length_foldlM_addItem (items : List Item) (a : Assembly) :
    (items.foldlM addItem a).map (·.pending.length) = scanDepth a.pending.length items := by
  induction items generalizing a with
  | nil => rfl
  | cons item items ih =>
      rw [List.foldlM_cons]
      cases hfault : fault? a.pending.length item with
      | some cause =>
          rw [scanDepth_cons_of_fault hfault, addItem_of_fault hfault]
          rfl
      | none =>
          obtain ⟨b, hb, hlength⟩ := exists_addItem_of_no_fault hfault
          rw [scanDepth_cons_of_no_fault hfault, ← hlength, hb]
          exact ih b

/-! ### The end -/

/-! The number of pending subtrees decides how an assembly finishes. -/

/-- An expression is reported as empty if no operand waits at the end. -/
theorem finish_eq_emptyExpression_iff :
    a.finish = .error .emptyExpression ↔ a.pending.length = 0 := by
  unfold finish
  split
  · next hpending => simp [hpending]
  · next hpending => simp [hpending]
  · next hnil _ => simpa using hnil

/-- Operands are reported as unconsumed, with their number, if more than one waits at the end. -/
theorem finish_eq_unconsumedOperands_iff {count : Nat} :
    a.finish = .error (.unconsumedOperands count) ↔ 1 < count ∧ a.pending.length = count := by
  unfold finish
  split
  · next hpending =>
      simp only [hpending, List.length_nil, Except.error.injEq, reduceCtorEq, false_iff]
      omega
  · next hpending =>
      simp only [hpending, List.length_singleton, reduceCtorEq, false_iff]
      omega
  · next hnil hone =>
      rw [Except.error.injEq, Malformed.unconsumedOperands.injEq]
      refine (and_iff_right_of_imp fun hcount => ?_).symm
      rcases hlist : a.pending with _ | ⟨root, _ | ⟨next, rest⟩⟩
      · exact absurd hlist hnil
      · exact absurd hlist (hone root)
      · rw [← hcount, hlist, List.length_cons, List.length_cons]
        omega

/-- A tree is made if one operand waits at the end. -/
theorem exists_finish_eq_ok_iff : (∃ tree, a.finish = .ok tree) ↔ a.pending.length = 1 := by
  unfold finish
  split
  · next hpending => simp [hpending]
  · next hpending => simp [hpending]
  · next hone =>
      simp only [reduceCtorEq, exists_false, false_iff, List.length_eq_one_iff, not_exists]
      exact hone

end Assembly

namespace Tree

variable {expression : String} {cause : Malformed} {depth : Nat}

/-- Building a tree is adding all items to an empty assembly and then finishing it. -/
theorem ofExpression_eq_bind (expression : String) :
    Tree.ofExpression expression =
      ((itemsOf expression).foldlM Assembly.addItem .empty).bind Assembly.finish := by
  rw [Tree.ofExpression, Assembly.addAll, ← Array.foldlM_toList, ← itemsOf]
  rfl

/-- Where the scan fails, building fails for the same cause. -/
theorem ofExpression_of_scanDepth_error (h : scanDepth 0 (itemsOf expression) = .error cause) :
    Tree.ofExpression expression = .error cause := by
  have hlength := Assembly.map_length_foldlM_addItem (itemsOf expression) .empty
  rw [ofExpression_eq_bind]
  cases hall : (itemsOf expression).foldlM Assembly.addItem .empty with
  | error other =>
      rw [hall] at hlength
      obtain rfl : other = cause := Except.error.inj (hlength.trans h)
      rfl
  | ok a =>
      rw [hall] at hlength
      cases hlength.trans h

/-- Where the scan succeeds, building ends with as many operands as the depth says. -/
theorem exists_ofExpression_of_scanDepth_ok (h : scanDepth 0 (itemsOf expression) = .ok depth) :
    ∃ a : Assembly, a.pending.length = depth ∧ Tree.ofExpression expression = a.finish := by
  have hlength := Assembly.map_length_foldlM_addItem (itemsOf expression) .empty
  rw [ofExpression_eq_bind]
  cases hall : (itemsOf expression).foldlM Assembly.addItem .empty with
  | error other =>
      rw [hall] at hlength
      cases hlength.trans h
  | ok a =>
      rw [hall] at hlength
      exact ⟨a, Except.ok.inj (hlength.trans h), rfl⟩

/-- What is wrong can be told without making a tree. -/
theorem ofExpression_eq_error_iff_diagnose? :
    Tree.ofExpression expression = .error cause ↔ diagnose? expression = some cause := by
  rw [diagnose?, ← itemsOf]
  cases hscan : scanDepth 0 (itemsOf expression) with
  | error other => rw [ofExpression_of_scanDepth_error hscan, Except.error.injEq, Option.some.injEq]
  | ok depth =>
      obtain ⟨a, hlength, hfinish⟩ := exists_ofExpression_of_scanDepth_ok hscan
      rw [hfinish]
      rcases depth with _ | _ | n
      · rw [Assembly.finish_eq_emptyExpression_iff.mpr hlength, Except.error.injEq]
        exact Option.some_inj.symm
      · obtain ⟨tree, htree⟩ := Assembly.exists_finish_eq_ok_iff.mpr hlength
        simp [htree]
      · rw [Assembly.finish_eq_unconsumedOperands_iff.mpr ⟨by omega, hlength⟩,
          Except.error.injEq]
        exact Option.some_inj.symm

/-- **Which expressions have a tree.** If an item is at fault, the expression fails with the first
fault, which names a character of the expression and its index. Otherwise it fails as empty
exactly if it is empty, it fails with subtrees left over exactly if the depth at the end counts
them, and it has a tree exactly if that depth is one. The depth at the end is the number of
operands less the number of operators with two operands. -/
theorem ofExpression_of_scan (expression : String) :
    (∀ k cause, FaultAt 0 (itemsOf expression) k cause →
      ∃ j first, j ≤ k ∧ FirstFault 0 (itemsOf expression) j first ∧
        Tree.ofExpression expression = .error first ∧ first.FoundIn expression.toList) ∧
    ((∀ k cause, ¬FaultAt 0 (itemsOf expression) k cause) →
      (Tree.ofExpression expression = .error .emptyExpression ↔ expression = "") ∧
      (∀ count, Tree.ofExpression expression = .error (.unconsumedOperands count) ↔
        1 < count ∧ (itemsOf expression).foldl depthAfter 0 = count) ∧
      (itemsOf expression).foldl depthAfter 0 + tokenCount Token.isBinary (itemsOf expression) =
        tokenCount Token.isOperand (itemsOf expression) ∧
      ((∃ tree, Tree.ofExpression expression = .ok tree) ↔
        (itemsOf expression).foldl depthAfter 0 = 1)) := by
  refine ⟨fun k cause hfault => ?_, fun hnone => ?_⟩
  · obtain ⟨j, first, hle, hfirst⟩ := exists_firstFault_of_faultAt hfault
    obtain ⟨item, hitem, hcause⟩ := hfirst.faultAt
    exact ⟨j, first, hle, hfirst, ofExpression_of_scanDepth_error (scanDepth_of_firstFault hfirst),
      foundIn_of_fault? (standsIn_of_mem_itemsOf (List.mem_of_getElem? hitem)) hcause⟩
  · have hscan := scanDepth_of_no_fault hnone
    have hcount := scanDepth_add_tokenCount hscan
    rw [Nat.zero_add] at hcount
    have hempty : (itemsOf expression).foldl depthAfter 0 = 0 ↔ expression = "" := by
      rw [← itemsOf_eq_nil_iff]
      constructor
      · intro hzero
        rw [hzero] at hscan
        exact (eq_nil_of_scanDepth_zero hscan).2
      · intro hnil
        rw [hnil]
        rfl
    obtain ⟨a, hlength, hfinish⟩ := exists_ofExpression_of_scanDepth_ok hscan
    rw [← hempty, hfinish, ← hlength]
    exact ⟨Assembly.finish_eq_emptyExpression_iff,
      fun _ => Assembly.finish_eq_unconsumedOperands_iff, hlength ▸ hcount,
      Assembly.exists_finish_eq_ok_iff⟩

/-- In `a.)\\` three items are at fault, and the operator is the first of them. In `ab+c|` none is,
and two subtrees are left over. -/
theorem ofExpression_of_scan_missing_operand_unconsumed :
    Tree.ofExpression "a.)\\" = .error (.missingOperand 1 '.') ∧
      Tree.ofExpression "ab+c|" = .error (.unconsumedOperands 2) := by
  constructor
  · have hitems : itemsOf "a.)\\" = [.ok ⟨0, .operand 'a'⟩, .ok ⟨1, .binary .concat⟩,
        .ok ⟨2, .grouping ')'⟩, .error (.danglingEscape 3)] := by cbv
    have hfault : FaultAt 0 (itemsOf "a.)\\") 1 (.missingOperand 1 '.') := by
      rw [hitems]
      exact ⟨_, rfl, rfl⟩
    obtain ⟨j, first, hle, hfirst, herror, -⟩ := (ofExpression_of_scan "a.)\\").1 1 _ hfault
    obtain ⟨item, hitem, hcause⟩ := hfirst.faultAt
    rw [hitems] at hitem hcause
    obtain rfl | rfl : j = 0 ∨ j = 1 := by omega
    · cases hitem
      cases hcause
    · cases hitem
      cases hcause
      exact herror
  · have hitems : itemsOf "ab+c|" = [.ok ⟨0, .operand 'a'⟩, .ok ⟨1, .operand 'b'⟩,
        .ok ⟨2, .unary .plus⟩, .ok ⟨3, .operand 'c'⟩, .ok ⟨4, .binary .union⟩] := by cbv
    have hnone : ∀ k cause, ¬FaultAt 0 (itemsOf "ab+c|") k cause := by
      rintro k cause ⟨item, hitem, hcause⟩
      rw [hitems] at hitem hcause
      rcases k with _ | _ | _ | _ | _ | k <;> cases hitem <;> cases hcause
    refine (((ofExpression_of_scan "ab+c|").2 hnone).2.1 2).mpr ⟨by decide, ?_⟩
    rw [hitems]
    rfl

end Tree

end RegexPositions
