import RegexPositions.Expr.Basic
import RegexPositions.Tree.Assembly

/-!
# The tree of an expression

`Expr.toTree` lays an expression out as a syntax tree: the nodes of the operands, one operand
after the other, and then the operator. The nodes of a subexpression form a block that ends with
its root; `nodesFrom` and `leafIdsFrom` describe the block for the id of its first node and the
position of its first leaf.

The main statement is that assembling does the same from any way of writing the expression, and
succeeds on nothing else: `Tree.ofExpression_eq_ok_iff`.
-/

namespace RegexPositions

namespace Expr

/-- The nodes of an expression whose first node has id `id` and whose first leaf has position
`start`. -/
def nodesFrom (id start : Nat) : Expr → List Node
  | leaf letter => [.fresh (.leaf letter start ∅)]
  | unary op e => e.nodesFrom id start ++ [.fresh (.unary op (id + e.nodeCount - 1))]
  | binary op l r =>
      l.nodesFrom id start ++ r.nodesFrom (id + l.nodeCount) (start + l.leafCount) ++
        [.fresh (.binary op (id + l.nodeCount - 1) (id + l.nodeCount + r.nodeCount - 1))]

/-- The ids of the leaves of an expression whose first node has id `id`. -/
def leafIdsFrom (id : Nat) : Expr → List Nat
  | leaf _ => [id]
  | unary _ e => e.leafIdsFrom id
  | binary _ l r => l.leafIdsFrom id ++ r.leafIdsFrom (id + l.nodeCount)

/-- The nodes of an expression, wherever they stand, are as many as it has. -/
@[simp] theorem length_nodesFrom (id start : Nat) (e : Expr) :
    (e.nodesFrom id start).length = e.nodeCount := by
  induction e generalizing id start with
  | leaf _ => rfl
  | unary _ _ ih => simp [nodesFrom, nodeCount, ih]
  | binary _ _ _ ihl ihr => simp [nodesFrom, nodeCount, ihl, ihr, Nat.add_assoc]

/-- The leaf list of an expression has an id for each leaf. -/
@[simp] theorem length_leafIdsFrom (id : Nat) (e : Expr) :
    (e.leafIdsFrom id).length = e.leafCount := by
  induction e generalizing id with
  | leaf _ => rfl
  | unary _ _ ih => simp [leafIdsFrom, leafCount, ih]
  | binary _ _ _ ihl ihr => simp [leafIdsFrom, leafCount, ihl, ihr]

/-- The **tree of an expression**. -/
def toTree (e : Expr) : Tree where
  nodes := (e.nodesFrom 0 1).toArray
  leaves := (e.leafIdsFrom 0).toArray
  root := e.nodeCount - 1
  root_lt := by
    rw [List.size_toArray, length_nodesFrom]
    exact Nat.sub_one_lt_of_lt e.nodeCount_pos

end Expr

namespace Assembly

/-- Assemblies with the same nodes, leaves and subtrees are equal. -/
theorem ext {a b : Assembly} (hnodes : a.nodes = b.nodes) (hleaves : a.leaves = b.leaves)
    (hpending : a.pending = b.pending) : a = b := by
  cases a
  cases b
  simp_all

/-- The assembly with one more subtree, laid out behind the nodes made so far. -/
def addExpr (a : Assembly) (e : Expr) : Assembly where
  nodes := a.nodes ++ (e.nodesFrom a.nodes.size (a.leaves.size + 1)).toArray
  leaves := a.leaves ++ (e.leafIdsFrom a.nodes.size).toArray
  pending := (a.nodes.size + e.nodeCount - 1) :: a.pending
  pending_lt := by
    intro id hid
    have hpos := e.nodeCount_pos
    simp only [Array.size_append, List.size_toArray, Expr.length_nodesFrom]
    rcases List.mem_cons.mp hid with rfl | hid
    · omega
    · exact Nat.lt_add_right _ (a.pending_lt id hid)

/-- The assembly of several subtrees, the latest first. -/
def ofExprs : List Expr → Assembly
  | [] => empty
  | e :: es => (ofExprs es).addExpr e

/-- An assembly of expressions waits with one operand for each of them. -/
@[simp] theorem length_pending_ofExprs (es : List Expr) :
    (ofExprs es).pending.length = es.length := by
  induction es with
  | nil => rfl
  | cons e es ih => rw [ofExprs, addExpr, List.length_cons, List.length_cons, ih]

/-! ### Tokens -/

/-- A leaf is added like the expression that it is. -/
theorem addLeaf_eq (a : Assembly) (letter : Letter) :
    a.addLeaf letter = a.addExpr (.leaf letter) := by
  apply Assembly.ext <;> simp [addLeaf, addExpr, Expr.nodesFrom, Expr.leafIdsFrom, Expr.nodeCount]

/-- A unary operator takes the last expression and puts the compound one in its place. -/
theorem add_unary (a : Assembly) (e : Expr) (op : UnaryOp) (index : Nat) :
    (a.addExpr e).add ⟨index, .unary op⟩ = .ok (a.addExpr (.unary op e)) := by
  have hpos := e.nodeCount_pos
  simp only [add]
  split
  · next operand rest h =>
      simp only [addExpr, List.cons.injEq] at h
      obtain ⟨rfl, rfl⟩ := h
      rw [Except.ok.injEq]
      apply Assembly.ext <;>
        simp [addOperator, addExpr, Expr.nodesFrom, Expr.leafIdsFrom, Expr.nodeCount]
  · next h => simp [addExpr] at h

/-- A binary operator takes the last two expressions, the earlier of them on the left. -/
theorem add_binary (a : Assembly) (l r : Expr) (op : BinaryOp) (index : Nat) :
    ((a.addExpr l).addExpr r).add ⟨index, .binary op⟩ = .ok (a.addExpr (.binary op l r)) := by
  simp only [add]
  split
  · next right left rest h =>
      simp only [addExpr, List.cons.injEq] at h
      obtain ⟨rfl, rfl, rfl⟩ := h
      rw [Except.ok.injEq]
      have hstart : a.leaves.size + l.leafCount + 1 = a.leaves.size + 1 + l.leafCount := by omega
      apply Assembly.ext
      · simp [addOperator, addExpr, Expr.nodesFrom, hstart]
      · simp [addOperator, addExpr, Expr.leafIdsFrom]
      · simp only [addOperator, addExpr, Array.size_append, List.size_toArray,
          Expr.length_nodesFrom, Expr.nodeCount, List.cons.injEq, and_true]
        omega
  · next h => exact absurd rfl (h _ _ _)

/-! ### Whole expressions -/

/-- Reading a written expression adds its subtree. -/
theorem addAll_of_spells {e : Expr} {s : List Char} (h : e.Spells s) (a : Assembly)
    (index : Nat) (rest : List Char) :
    a.addAll ⟨index, s ++ rest⟩ = (a.addExpr e).addAll ⟨index + s.length, rest⟩ := by
  induction h generalizing a index rest with
  | @plain c hc =>
      have hne : c ≠ escape := fun hesc => by simp [isMeta, hesc] at hc
      rw [List.singleton_append, addAll_of_next_some (TokenReader.next_cons hne _ _),
        Token.ofChar_of_not_isMeta hc, ← addLeaf_eq]
      rfl
  | escaped c =>
      rw [List.cons_append, List.cons_append, List.nil_append,
        addAll_of_next_some (TokenReader.next_escape_cons _ _ _), ← addLeaf_eq]
      rfl
  | endMarker =>
      rw [List.singleton_append, addAll_of_next_some (TokenReader.next_cons (by decide) _ _),
        Token.ofChar_endMarker, ← addLeaf_eq]
      rfl
  | @unary e s op _ ih =>
      have hne : op.symbol ≠ escape := by cases op <;> decide
      rw [List.append_assoc, ih, List.singleton_append,
        addAll_of_next_some (TokenReader.next_cons hne _ _), Token.ofChar_symbol_unary]
      simp only [addItem, Except.bind, add_unary, List.length_append, List.length_singleton,
        Nat.add_assoc]
  | @binary l r s t op _ _ ihl ihr =>
      have hne : op.symbol ≠ escape := by cases op <;> decide
      rw [List.append_assoc, List.append_assoc, ihl, ihr, List.singleton_append,
        addAll_of_next_some (TokenReader.next_cons hne _ _), Token.ofChar_symbol_binary]
      simp only [addItem, Except.bind, add_binary, List.length_append, List.length_singleton,
        Nat.add_assoc]

/-- What has been assembled without fault are expressions, written one after the other. -/
theorem exists_spellsAll_of_addAll {es : List Expr} {s : List Char} {reader : TokenReader}
    {a : Assembly} (hs : Expr.SpellsAll es s) (h : (ofExprs es).addAll reader = .ok a) :
    ∃ es', Expr.SpellsAll es' (s ++ reader.rest) ∧ a = ofExprs es' := by
  obtain ⟨index, rest⟩ := reader
  generalize hn : rest.length = n
  induction n using Nat.strongRecOn generalizing index rest es s with
  | ind n ih =>
  subst hn
  match rest with
  | [] =>
      rw [addAll_of_next_none (TokenReader.next_nil _), Except.ok.injEq] at h
      exact ⟨es, by simpa using hs, h.symm⟩
  | c :: rest =>
      have step : ∀ (index' : Nat) {es' : List Expr} {t rest' : List Char},
          Expr.SpellsAll es' (s ++ t) → c :: rest = t ++ rest' →
          rest'.length < (c :: rest).length →
          (ofExprs es').addAll ⟨index', rest'⟩ = .ok a →
          ∃ es'', Expr.SpellsAll es'' (s ++ (c :: rest)) ∧ a = ofExprs es'' := by
        intro index' es' t rest' hs' heq hlt h'
        obtain ⟨es'', hs'', ha⟩ := ih _ hlt hs' index' rest' h' rfl
        exact ⟨es'', by rwa [heq, ← List.append_assoc], ha⟩
      by_cases hc : c = escape
      · subst hc
        match rest with
        | [] =>
            rw [addAll_of_next_some (TokenReader.next_escape _)] at h
            cases h
        | d :: rest =>
            rw [addAll_of_next_some (TokenReader.next_escape_cons _ _ _)] at h
            have hleaf : (ofExprs (.leaf (.operand d) :: es)).addAll ⟨index + 2, rest⟩ = .ok a := by
              rwa [ofExprs, ← addLeaf_eq]
            refine step _ (.cons hs (.escaped d)) rfl ?_ hleaf
            simp only [List.length_cons]
            omega
      · rw [addAll_of_next_some (TokenReader.next_cons hc _ _)] at h
        rcases Token.char_cases c with hmeta | hesc | rfl | hgroup | ⟨op, rfl⟩ | ⟨op, rfl⟩
        · rw [Token.ofChar_of_not_isMeta hmeta] at h
          refine step (index + 1) (.cons hs (.plain hmeta)) rfl (by simp) ?_
          rwa [ofExprs, ← addLeaf_eq]
        · exact absurd hesc hc
        · refine step (index + 1) (.cons hs .endMarker) rfl (by simp) ?_
          rwa [ofExprs, ← addLeaf_eq]
        · rw [Token.ofChar_of_isGrouping hgroup] at h
          cases h
        · rw [Token.ofChar_symbol_unary] at h
          cases hs with
          | nil => cases h
          | @cons e es s t hs he =>
              rw [addItem, Except.bind, ofExprs, add_unary] at h
              have hnode := Expr.SpellsAll.cons hs (.unary op he)
              rw [← List.append_assoc] at hnode
              exact step _ hnode rfl (by simp) h
        · rw [Token.ofChar_symbol_binary] at h
          cases hs with
          | nil => cases h
          | @cons r es s t hs hr =>
              cases hs with
              | nil => cases h
              | @cons l es s u hs hl =>
                  rw [addItem, Except.bind, ofExprs, ofExprs, add_binary] at h
                  have hnode := Expr.SpellsAll.cons hs (.binary op hl hr)
                  rw [← List.append_assoc, ← List.append_assoc] at hnode
                  exact step _ hnode rfl (by simp) h

/-- Exactly one subtree makes a tree, and it is the tree of its expression. -/
theorem finish_ofExprs_eq_ok_iff {es : List Expr} {tree : Tree} :
    (ofExprs es).finish = .ok tree ↔ ∃ e, es = [e] ∧ tree = e.toTree := by
  match es with
  | [] => simp [ofExprs, finish, empty]
  | [e] => simp [ofExprs, finish, empty, addExpr, Expr.toTree, eq_comm]
  | e :: e' :: es => simp [ofExprs, finish, addExpr]

end Assembly

/-- An expression in reverse Polish form has a tree exactly if it spells a regular expression, and
then it is the tree of that. -/
theorem Tree.ofExpression_eq_ok_iff {expression : String} {tree : Tree} :
    Tree.ofExpression expression = .ok tree ↔
      ∃ e : Expr, e.Spells expression.toList ∧ tree = e.toTree := by
  rw [Tree.ofExpression]
  constructor
  · intro h
    cases ha : Assembly.empty.addAll (.ofExpression expression) with
    | error cause => rw [ha] at h; cases h
    | ok a =>
        rw [ha] at h
        have hnone : Expr.SpellsAll [] [] := .nil
        obtain ⟨es, hs, rfl⟩ := Assembly.exists_spellsAll_of_addAll hnone ha
        obtain ⟨e, rfl, rfl⟩ := Assembly.finish_ofExprs_eq_ok_iff.mp h
        exact ⟨e, Expr.spellsAll_singleton_iff.mp hs, rfl⟩
  · rintro ⟨e, hs, rfl⟩
    have h := Assembly.addAll_of_spells hs .empty 0 []
    rw [List.append_nil, Assembly.addAll_of_next_none (TokenReader.next_nil _)] at h
    rw [TokenReader.ofExpression, h]
    exact Assembly.finish_ofExprs_eq_ok_iff.mpr ⟨e, rfl, rfl⟩

end RegexPositions
