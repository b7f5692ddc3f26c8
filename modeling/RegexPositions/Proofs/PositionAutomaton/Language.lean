import Mathlib.Data.List.Chain
import RegexPositions.Proofs.Expr.Letters
import RegexPositions.Proofs.PositionAutomaton.Marked

/-!
# The Language of an Automaton

An expression is closed with an end marker (`Expr.closed`) so that a walk through its positions
can be seen to be complete. A walk spells a word, and the words spelled are those that the
automaton accepts (`Expr.accepts_iff_walks`).

## Main results

* `accepts_iff_mem_language` — where all repetitions are symmetric, the accepted words are those
  of the language of the expression.
* `forall_walks_iff_mem_marked` — the walks are the marked words exactly in this case.
* `not_accepts_of_unlinked` — where two positions are neighbours in some word and not linked, the
  word is lost if no other position has one of the two symbols.
* `recognises_iff_symmetricRepetitions` — an expression and all expressions that differ from it
  in the letters at the leaves have their languages recognised exactly if all repetitions are
  symmetric. Elsewhere links are missing: a repetition links what its operand begins with to what
  it ends with, while a word goes on from what the operand ends with to what it begins with.
-/

open scoped Computability

namespace RegexPositions

namespace PositionAutomaton

variable {automaton : PositionAutomaton}

/-! ### Walks of an automaton -/

/-- A word is read along a walk to the end marker. -/
theorem readsFrom_iff {stop : Nat} (hstop : automaton.endMarker? = some stop) {p : Nat}
    {w : List Char} :
    automaton.ReadsFrom p w ↔ ∃ m, List.Forall₂ automaton.Carries m w ∧
      (m ++ [stop]).head? = some p ∧ (m ++ [stop]).IsChain automaton.Follows := by
  constructor
  · intro h
    induction h with
    | done hp =>
        obtain rfl : stop = _ := Option.some.inj (hstop.symm.trans hp)
        exact ⟨[], .nil, rfl, .singleton _⟩
    | @step p q c w hc hq _ ih =>
        obtain ⟨m, hm, hhead, hchain⟩ := ih
        have hnext : ∀ r ∈ (m ++ [stop]).head?, automaton.Follows p r := by
          intro r hr
          rw [hhead, Option.mem_some_iff] at hr
          exact hr ▸ hq
        exact ⟨p :: m, .cons hc hm, rfl, List.isChain_cons.mpr ⟨hnext, hchain⟩⟩
  · rintro ⟨m, hm, hhead, hchain⟩
    induction hm generalizing p with
    | nil =>
        obtain rfl : stop = p := Option.some.inj hhead
        exact .done hstop
    | @cons a c m w hc _ ih =>
        obtain rfl : a = p := Option.some.inj hhead
        obtain ⟨hnext, hchain⟩ := List.isChain_cons.mp hchain
        obtain ⟨q, hq⟩ : ∃ q, (m ++ [stop]).head? = some q := by
          cases m <;> exact ⟨_, rfl⟩
        exact .step hc (hnext q hq) (ih hq hchain)

end PositionAutomaton

namespace Expr

variable {e : Expr} {p q : Nat} {m : List Nat} {w : List Char}

/-! ### Closed expressions -/

/-- The expression with an end marker behind it. -/
def closed (e : Expr) : Expr :=
  binary .concat e (leaf .endMarker)

/-- How a closed expression is written. -/
theorem spells_closed {expression : String} (h : e.Spells expression.toList) :
    e.closed.Spells (expression ++ "#.").toList := by
  have hclosed : e.closed.Spells (expression.toList ++ ['#'] ++ ['.']) :=
    .binary .concat h .endMarker
  rw [String.toList_append]
  simpa using hclosed

/-- The automaton of an expression with an end marker behind it. -/
def automaton (e : Expr) : PositionAutomaton :=
  .ofTree e.closed.toTree

/-- With an end marker behind it, what spells an expression has an automaton. -/
theorem ofExpression_append_endMarker {expression : String} (h : e.Spells expression.toList) :
    PositionAutomaton.ofExpression (expression ++ "#.") = .ok e.automaton :=
  PositionAutomaton.ofExpression_eq_ok_iff.mpr ⟨e.closed, spells_closed h, rfl⟩

/-- The automaton has one leaf more than the expression, the end marker. -/
theorem leafCount_automaton (e : Expr) : e.automaton.tree.leafCount = e.leafCount + 1 := by
  rw [automaton, tree_ofTree, leafCount_layout]
  rfl

/-- The end marker has the last position. -/
theorem endMarker?_automaton (e : Expr) :
    e.automaton.endMarker? = some e.automaton.tree.leafCount := by
  have hletter : e.closed.letters[e.leafCount]? = some .endMarker := by
    rw [closed, letters, ← length_letters e]
    exact List.getElem?_concat_length
  rw [PositionAutomaton.endMarker?, leafCount_automaton, automaton, tree_ofTree, leaf?_layout,
    hletter]
  rfl

/-- A position carries the symbol that the expression has there. -/
theorem carries_ofTree_iff {c : Char} :
    (PositionAutomaton.ofTree e.toTree).Carries p c ↔ e.HasPosition 1 p ∧ e.symbolAt p = c := by
  rw [PositionAutomaton.Carries, tree_ofTree]
  cases p with
  | zero => exact iff_of_false (by simp [Tree.leaf?]) fun h => absurd h.1.1 (by omega)
  | succ k =>
      rw [leaf?_layout, HasPosition, symbolAt, Nat.add_sub_cancel, ← length_letters e]
      cases hk : e.letters[k]? with
      | none =>
          have hlen := List.getElem?_eq_none_iff.mp hk
          exact iff_of_false (by simp) fun h => absurd h.1.2 (by omega)
      | some letter =>
          obtain ⟨hlt, -⟩ := List.getElem?_eq_some_iff.mp hk
          have hrange : 1 ≤ k + 1 ∧ k + 1 < 1 + e.letters.length := by omega
          simp [hrange, Node.symbol]

/-- The symbols before the end marker are those of the expression. -/
theorem symbolAt_closed (h : e.HasPosition 1 p) : e.closed.symbolAt p = e.symbolAt p := by
  obtain ⟨hp1, hp2⟩ := h
  have hlt : p - 1 < e.letters.length := by
    rw [length_letters]
    omega
  rw [symbolAt, closed, letters, List.getElem?_append_left hlt, symbolAt]

/-- Positions before the end marker carry the symbols of the expression. -/
theorem forall₂_carries_iff (hm : ∀ p ∈ m, e.HasPosition 1 p) :
    List.Forall₂ e.automaton.Carries m w ↔ m.map e.symbolAt = w := by
  induction m generalizing w with
  | nil => simp [eq_comm]
  | cons p m ih =>
      obtain ⟨hp, hm⟩ := List.forall_mem_cons.mp hm
      cases w with
      | nil => simp
      | cons c w =>
          have hclosed : e.closed.HasPosition 1 p := hasPosition_binary p (.inl hp)
          rw [List.forall₂_cons, ih hm, automaton, carries_ofTree_iff, symbolAt_closed hp,
            and_iff_right hclosed, List.map_cons, List.cons.injEq]

/-- The only links that the end marker adds lead to it. -/
theorem linked_closed_iff :
    e.closed.Linked 1 p q ↔
      e.Linked 1 p q ∨ p ∈ (e.attributesFrom 1).last ∧ q = 1 + e.leafCount := by
  rw [closed, linked_concat, or_iff_right (a := (leaf _).Linked _ _ _) not_linked_leaf,
    attributesFrom, Attributes.leaf, PositionSet.mem_singleton]

/-! ### Walks -/

/-- The automaton can go through the positions of `m` one after the other, and then to the end
marker. -/
structure Walks (e : Expr) (m : List Nat) : Prop where
  /-- The walk begins with a first position. -/
  head : ∃ p, (m ++ [1 + e.leafCount]).head? = some p ∧ p ∈ (e.closed.attributesFrom 1).first
  /-- Each step goes along a link. -/
  steps : (m ++ [1 + e.leafCount]).IsChain (e.closed.Linked 1)

/-- A position with another one behind it is no end marker. -/
theorem Walks.hasPosition (h : e.Walks m) : ∀ p ∈ m, e.HasPosition 1 p := by
  obtain ⟨-, hsteps⟩ := h
  induction m with
  | nil => exact fun p hp => absurd hp List.not_mem_nil
  | cons a m ih =>
      obtain ⟨hnext, hsteps⟩ := List.isChain_cons.mp hsteps
      intro p hp
      rcases List.mem_cons.mp hp with rfl | hp
      · obtain ⟨q, hq⟩ : ∃ q, (m ++ [1 + e.leafCount]).head? = some q := by
          cases m <;> exact ⟨_, rfl⟩
        rcases linked_closed_iff.mp (hnext q hq) with hlink | ⟨hlast, -⟩
        · exact (range_of_linked hlink).1
        · exact range_of_mem_last hlast
      · exact ih hsteps p hp

/-- Positions that come one after the other in a walk are linked. -/
theorem Walks.linked {u v : List Nat} (h : e.Walks (u ++ p :: q :: v)) : e.Linked 1 p q := by
  have hsteps := h.steps
  rw [List.append_assoc, List.cons_append, List.cons_append, List.isChain_append_cons_cons]
    at hsteps
  rcases linked_closed_iff.mp hsteps.2.1 with hlink | ⟨-, hstop⟩
  · exact hlink
  · have := (h.hasPosition q (by simp)).2
    omega

/-- The accepted words are those that a walk spells. -/
theorem accepts_iff_walks : e.automaton.Accepts w ↔ ∃ m, e.Walks m ∧ m.map e.symbolAt = w := by
  have hfollows : e.automaton.Follows = e.closed.Linked 1 := by
    funext p q
    exact propext follows_ofTree_iff
  have hstop : e.automaton.endMarker? = some (1 + e.leafCount) := by
    rw [endMarker?_automaton, leafCount_automaton, Nat.add_comm]
  rw [PositionAutomaton.Accepts, automaton, startPositions_ofTree, ← automaton]
  simp only [PositionAutomaton.readsFrom_iff hstop, hfollows]
  constructor
  · rintro ⟨p, hp, m, hm, hhead, hsteps⟩
    have hwalk : e.Walks m := ⟨⟨p, hhead, hp⟩, hsteps⟩
    exact ⟨m, hwalk, (forall₂_carries_iff hwalk.hasPosition).mp hm⟩
  · rintro ⟨m, hwalk, hmap⟩
    obtain ⟨p, hhead, hp⟩ := hwalk.head
    exact ⟨p, hp, m, (forall₂_carries_iff hwalk.hasPosition).mpr hmap, hhead, hwalk.steps⟩

/-! ### Symmetric repetitions -/

/-- Closing an expression adds no repetition, so if all are symmetric, they still are. -/
theorem symmetricFrom_closed (h : e.SymmetricFrom 1) : e.closed.SymmetricFrom 1 :=
  ⟨h, trivial⟩

/-- A marked word of the closed expression is one of the expression and the end marker. -/
theorem append_mem_marked_closed :
    m ++ [1 + e.leafCount] ∈ e.closed.marked 1 ↔ m ∈ e.marked 1 := by
  rw [closed, marked_concat, marked_leaf, Language.mem_mul]
  constructor
  · rintro ⟨u, hu, v, hv, heq⟩
    obtain rfl : v = [1 + e.leafCount] := hv
    obtain rfl : u = m := List.append_cancel_right heq
    exact hu
  · exact fun hm => ⟨m, hm, _, rfl, rfl⟩

/-- Where repetitions are symmetric, the walks are the marked words. -/
theorem walks_iff_mem_marked (h : e.SymmetricFrom 1) : e.Walks m ↔ m ∈ e.marked 1 := by
  have hsteps : e.closed.Linked 1 = e.closed.Precedes 1 := by
    funext p q
    exact propext (linked_iff_precedes (symmetricFrom_closed h))
  have hlast : 1 + e.leafCount ∈ (e.closed.attributesFrom 1).last := by
    have hstop := stop_mem_last 1 e.closed
    rwa [closed, leafCount, leafCount, ← Nat.add_assoc, Nat.add_sub_cancel] at hstop
  have hne : m ++ [1 + e.leafCount] ≠ [] := by simp
  rw [← append_mem_marked_closed, (local_marked 1 e.closed).mem_iff hne, List.getLast?_concat,
    ← hsteps]
  constructor
  · exact fun hwalk => ⟨hwalk.head, ⟨_, rfl, hlast⟩, hwalk.steps⟩
  · rintro ⟨hhead, -, hchain⟩
    exact ⟨hhead, hchain⟩

/-- **Symmetric repetitions suffice.** The accepted words are those of the language. -/
theorem accepts_iff_mem_language (h : e.SymmetricFrom 1) :
    e.automaton.Accepts w ↔ w ∈ e.language := by
  rw [accepts_iff_walks, mem_language_iff]
  simp only [walks_iff_mem_marked h]

/-! ### Other repetitions -/

/-- The walks are the marked words only where repetitions are symmetric. -/
theorem forall_walks_iff_mem_marked :
    (∀ m, e.Walks m ↔ m ∈ e.marked 1) ↔ e.SymmetricFrom 1 := by
  refine ⟨fun hwalks => ?_, fun h _ => walks_iff_mem_marked h⟩
  by_contra hnot
  obtain ⟨p, q, hpq⟩ := exists_unlinked hnot
  obtain ⟨u, v, huv⟩ := exists_mem_marked_of_precedes hpq.precedes
  exact hpq.not_linked ((hwalks _).mpr huv).linked

/-- The word of two neighbours that are not linked is lost, unless their symbols can be read
elsewhere. -/
theorem not_accepts_of_unlinked (h : e.Unlinked 1 p q) {u v : List Nat}
    (hp : ∀ r, e.HasPosition 1 r → e.symbolAt r = e.symbolAt p → r = p)
    (hq : ∀ r, e.HasPosition 1 r → e.symbolAt r = e.symbolAt q → r = q) :
    ¬e.automaton.Accepts ((u ++ p :: q :: v).map e.symbolAt) := by
  rw [accepts_iff_walks]
  rintro ⟨m, hwalk, hmap⟩
  rw [List.map_append, List.map_cons, List.map_cons] at hmap
  obtain ⟨u', m', rfl, -, hmap⟩ := List.map_eq_append_iff.mp hmap
  obtain ⟨p', m', rfl, hsymbol, hmap⟩ := List.map_eq_cons_iff.mp hmap
  obtain ⟨q', v', rfl, hsymbol', -⟩ := List.map_eq_cons_iff.mp hmap
  obtain rfl : p' = p := hp p' (hwalk.hasPosition p' (by simp)) hsymbol
  obtain rfl : q' = q := hq q' (hwalk.hasPosition q' (by simp)) hsymbol'
  exact h.not_linked hwalk.linked

/-- Where a repetition is not symmetric and no two leaves have the same symbol, a word of the
language is lost. -/
theorem exists_not_accepts_of_nodup (h : ¬e.SymmetricFrom 1)
    (hletters : (e.letters.map Letter.symbol).Nodup) :
    ∃ w ∈ e.language, ¬e.automaton.Accepts w := by
  obtain ⟨p, q, hpq⟩ := exists_unlinked h
  obtain ⟨u, v, huv⟩ := exists_mem_marked_of_precedes hpq.precedes
  obtain ⟨hp, hq⟩ := (local_marked 1 e).support_of_next hpq.precedes
  refine ⟨_, mem_language_iff.mpr ⟨_, huv, rfl⟩, not_accepts_of_unlinked hpq ?_ ?_⟩
  · exact fun r hr heq => eq_of_symbolAt_eq hletters hr hp heq
  · exact fun r hr heq => eq_of_symbolAt_eq hletters hr hq heq

/-- Where a repetition is not symmetric, a word is lost with some letters at the leaves. Three
letters are enough, one for each of the neighbours and one for all other leaves. -/
theorem exists_not_accepts_relabel (h : ¬e.SymmetricFrom 1) :
    ∃ letters, ∃ w ∈ (e.relabel letters 1).language,
      ¬(e.relabel letters 1).automaton.Accepts w := by
  obtain ⟨p, q, hpq⟩ := exists_unlinked h
  let letters : Nat → Char := fun r => if r = p then 'p' else if r = q then 'q' else 'r'
  have hletters : ∀ r s, s = p ∨ s = q → letters r = letters s → r = s := by
    intro r s hs heq
    simp only [letters] at heq
    split_ifs at heq <;> first | omega | exact absurd heq (by decide)
  have hunique : ∀ s, s = p ∨ s = q → e.HasPosition 1 s →
      ∀ r, (e.relabel letters 1).HasPosition 1 r →
        (e.relabel letters 1).symbolAt r = (e.relabel letters 1).symbolAt s → r = s := by
    intro s hs hpos r hr heq
    rw [HasPosition, leafCount_relabel] at hr
    rw [symbolAt_relabel letters hr, symbolAt_relabel letters hpos] at heq
    exact hletters r s hs heq
  obtain ⟨u, v, huv⟩ := exists_mem_marked_of_precedes (hpq.relabel letters).precedes
  obtain ⟨hp, hq⟩ := (local_marked 1 e).support_of_next hpq.precedes
  exact ⟨letters, _, mem_language_iff.mpr ⟨_, huv, rfl⟩,
    not_accepts_of_unlinked (hpq.relabel letters) (hunique p (.inl rfl) hp)
      (hunique q (.inr rfl) hq)⟩

end Expr

/-! ### Recognition -/

/-- The tables of an expression **recognise** a language: with an end marker behind it, the
expression has an automaton, which can tell where a word is complete and accepts the words of
the language. -/
def Recognises (expression : String) (l : Language Char) : Prop :=
  ∃ automaton, PositionAutomaton.ofExpression (expression ++ "#.") = .ok automaton ∧
    automaton.endMarker? = some automaton.tree.leafCount ∧ ∀ w, automaton.Accepts w ↔ w ∈ l

/-- An expression recognises a language if the automaton of what it spells accepts just its words.
-/
theorem recognises_iff {e : Expr} {expression : String} {l : Language Char}
    (hs : e.Spells expression.toList) :
    Recognises expression l ↔ ∀ w, e.automaton.Accepts w ↔ w ∈ l := by
  constructor
  · rintro ⟨automaton, hautomaton, -, haccepts⟩
    rw [Expr.ofExpression_append_endMarker hs] at hautomaton
    obtain rfl : e.automaton = automaton := Except.ok.inj hautomaton
    exact haccepts
  · intro haccepts
    exact ⟨e.automaton, Expr.ofExpression_append_endMarker hs, e.endMarker?_automaton, haccepts⟩

/-- Some way of writing the expression with other letters is not recognised, unless all
repetitions are symmetric. -/
theorem symmetricFrom_of_recognises_relabel {e : Expr}
    (h : ∀ letters other, (e.relabel letters 1).Spells other.toList →
      Recognises other (e.relabel letters 1).language) :
    e.SymmetricFrom 1 := by
  by_contra hnot
  obtain ⟨letters, w, hw, hlost⟩ := Expr.exists_not_accepts_relabel hnot
  obtain ⟨s, hs⟩ := (e.relabel letters 1).exists_spells
  rw [← String.toList_ofList (l := s)] at hs
  exact hlost (((recognises_iff hs).mp (h letters _ hs) w).mpr hw)

/-- **When tables recognise the language.** If an expression has a tree, it has an automaton with
an end marker behind it, and the end marker has the last position. The automaton accepts the words
of the language if all repetitions are symmetric. This condition is exact for an expression in
which no two leaves have the same symbol, and for any expression when its letters may be
changed. -/
theorem recognises_iff_symmetricRepetitions {expression : String} {tree : Tree}
    (h : Tree.ofExpression expression = .ok tree) :
    ∃ e : Expr, e.Spells expression.toList ∧ tree.HasSubtree tree.root 1 e ∧
      (∃ automaton, PositionAutomaton.ofExpression (expression ++ "#.") = .ok automaton ∧
        automaton.endMarker? = some automaton.tree.leafCount) ∧
      (tree.decorate.SymmetricRepetitions → Recognises expression e.language) ∧
      ((e.letters.map Letter.symbol).Nodup →
        (Recognises expression e.language ↔ tree.decorate.SymmetricRepetitions)) ∧
      ((∀ letters other, (e.relabel letters 1).Spells other.toList →
        Recognises other (e.relabel letters 1).language) ↔
          tree.decorate.SymmetricRepetitions) := by
  obtain ⟨e, hs, rfl⟩ := Tree.ofExpression_eq_ok_iff.mp h
  have hautomaton : ∃ automaton,
      PositionAutomaton.ofExpression (expression ++ "#.") = .ok automaton ∧
        automaton.endMarker? = some automaton.tree.leafCount :=
    ⟨e.automaton, Expr.ofExpression_append_endMarker hs, e.endMarker?_automaton⟩
  have hsuffices : e.SymmetricFrom 1 → Recognises expression e.language := fun hsymmetric =>
    (recognises_iff hs).mpr fun _ => Expr.accepts_iff_mem_language hsymmetric
  rw [Expr.toTree_eq_layout, Expr.decorate_layout, Expr.symmetricRepetitions_layout]
  refine ⟨e, hs, Expr.hasSubtree_root_layout, hautomaton, hsuffices, ?_, ?_⟩
  · refine fun hletters => ⟨fun hrecognises => ?_, hsuffices⟩
    by_contra hnot
    obtain ⟨w, hw, hlost⟩ := Expr.exists_not_accepts_of_nodup hnot hletters
    exact hlost (((recognises_iff hs).mp hrecognises w).mpr hw)
  · refine ⟨symmetricFrom_of_recognises_relabel, fun hsymmetric letters other hother => ?_⟩
    rw [← Expr.symmetricFrom_relabel_iff letters] at hsymmetric
    exact (recognises_iff hother).mpr fun _ => Expr.accepts_iff_mem_language hsymmetric

/-- The language of `ab|+c.` is recognised. -/
theorem recognises_iff_symmetricRepetitions_union_plus :
    ∃ e : Expr, e.Spells "ab|+c.".toList ∧ Recognises "ab|+c." e.language := by
  let e : Expr := .binary .concat
    (.unary .plus (.binary .union (.leaf (.operand 'a')) (.leaf (.operand 'b'))))
    (.leaf (.operand 'c'))
  have hs : e.Spells "ab|+c.".toList :=
    .binary .concat (.unary .plus (.binary .union (.plain rfl) (.plain rfl)))
      (.plain rfl)
  have htree : Tree.ofExpression "ab|+c." = .ok e.toTree :=
    Tree.ofExpression_eq_ok_iff.mpr ⟨e, hs, rfl⟩
  obtain ⟨e', hs', -, -, hsuffices, -⟩ := recognises_iff_symmetricRepetitions htree
  refine ⟨e', hs', hsuffices ?_⟩
  rw [Expr.toTree_eq_layout, Expr.decorate_layout, Expr.symmetricRepetitions_layout]
  exact ⟨⟨⟨trivial, trivial⟩, fun _ => rfl⟩, trivial⟩

/-- The word `abab` is in the language of `ab.*`, and the automaton does not accept it: no link
leads from position 2 back to position 1. -/
theorem not_accepts_star_concat :
    ∃ (e : Expr) (tree : Tree) (automaton : PositionAutomaton), e.Spells "ab.*".toList ∧
      Tree.ofExpression "ab.*" = .ok tree ∧ tree.HasSubtree tree.root 1 e ∧
      PositionAutomaton.ofExpression ("ab.*" ++ "#.") = .ok automaton ∧
      "abab".toList ∈ e.language ∧ ¬automaton.Accepts "abab".toList := by
  let e : Expr := .unary .star (.binary .concat (.leaf (.operand 'a')) (.leaf (.operand 'b')))
  have hs : e.Spells "ab.*".toList :=
    .unary .star (.binary .concat (.plain rfl) (.plain rfl))
  have hunlinked : e.Unlinked 1 2 1 :=
    ⟨.inr ⟨rfl, by decide, by decide⟩, by decide, by decide⟩
  have hunique : ∀ p, e.HasPosition 1 p → ∀ r, e.HasPosition 1 r →
      e.symbolAt r = e.symbolAt p → r = p :=
    fun p hp r hr => Expr.eq_of_symbolAt_eq (by decide) hr hp
  have hmarked : [1, 2, 1, 2] ∈ e.marked 1 := by
    have honce : [1, 2] ∈ (Expr.binary .concat (.leaf (.operand 'a'))
        (.leaf (.operand 'b'))).marked 1 := ⟨[1], rfl, [2], rfl, rfl⟩
    exact Language.append_mem_kstar honce
      (Language.append_mem_kstar honce (Language.nil_mem_kstar _))
  have hword : "abab".toList = ([1] ++ 2 :: 1 :: [2]).map e.symbolAt := by decide
  refine ⟨e, e.toTree, e.automaton, hs, Tree.ofExpression_eq_ok_iff.mpr ⟨e, hs, rfl⟩, ?_,
    Expr.ofExpression_append_endMarker hs, Expr.mem_language_iff.mpr ⟨_, hmarked, hword.symm⟩, ?_⟩
  · rw [Expr.toTree_eq_layout]
    exact Expr.hasSubtree_root_layout
  · rw [hword]
    exact Expr.not_accepts_of_unlinked hunlinked (hunique 2 ⟨by decide, by decide⟩)
      (hunique 1 ⟨by decide, by decide⟩)

end RegexPositions
