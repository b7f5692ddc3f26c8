import RegexPositions.Proofs.PositionAutomaton.Marked
import RegexPositions.Tree.Pass

/-!
# The Three Stages of a Tree

A built tree is finished by two passes, which may be run in any order and any number of times.
It has three **stages** nevertheless: as built, decorated, and finished. A pass either takes it to
the next stage or changes nothing (`Tree.Stages`), and which stage is reached depends on little of
the list of passes:

* as long as the tree is not decorated, it stays as it was built (`Stages.run_of_not_mem`);
* from then on it is decorated, until the follow table is recorded (`Stages.run_of_mem`);
* after both, in this order, it is finished and stays so (`Stages.run_of_sublist`).

`Tree.run_eq_of_ofExpression` puts this together for the tree of an expression. Trees are
compared with all that is on record in them, down to the words of the position sets.
-/

namespace RegexPositions

/-! ### Running passes -/

namespace Tree

variable {tree : Tree} {passes : List Pass}

/-- The first pass runs first. -/
theorem run_cons (pass : Pass) (passes : List Pass) :
    tree.run (pass :: passes) = (pass.apply tree).run passes := rfl

/-- A pass takes the tree from one **stage** to the next, or changes nothing. -/
structure Stages (tree : Tree) : Prop where
  /-- Nothing can be recorded in a tree as built. -/
  recordFollow_built : tree.recordFollow = tree
  /-- Decorating is done once. -/
  decorate_decorated : tree.decorate.decorate = tree.decorate
  /-- What is recorded does not change the attributes. -/
  decorate_finished : tree.decorate.recordFollow.decorate = tree.decorate.recordFollow
  /-- Recording is done once. -/
  recordFollow_finished : tree.decorate.recordFollow.recordFollow = tree.decorate.recordFollow

namespace Stages

/-- No pass changes a finished tree. -/
theorem run_finished (h : tree.Stages) (passes : List Pass) :
    tree.decorate.recordFollow.run passes = tree.decorate.recordFollow := by
  induction passes with
  | nil => rfl
  | cons pass passes ih =>
      rw [run_cons]
      cases pass with
      | decorate => rwa [Pass.apply, h.decorate_finished]
      | recordFollow => rwa [Pass.apply, h.recordFollow_finished]

/-- Where nothing is recorded, a decorated tree stays as it is. -/
theorem run_decorated_of_not_mem (h : tree.Stages) (hpasses : .recordFollow ∉ passes) :
    tree.decorate.run passes = tree.decorate := by
  induction passes with
  | nil => rfl
  | cons pass passes ih =>
      obtain ⟨hpass, hrest⟩ := not_or.mp (mt List.mem_cons.mpr hpasses)
      cases pass with
      | decorate =>
          rw [run_cons, Pass.apply, h.decorate_decorated]
          exact ih hrest
      | recordFollow => exact absurd rfl hpass

/-- Where something is recorded, a decorated tree becomes finished. -/
theorem run_decorated_of_mem (h : tree.Stages) (hpasses : .recordFollow ∈ passes) :
    tree.decorate.run passes = tree.decorate.recordFollow := by
  induction passes with
  | nil => cases hpasses
  | cons pass passes ih =>
      cases pass with
      | decorate =>
          rw [run_cons, Pass.apply, h.decorate_decorated]
          exact ih ((List.mem_cons.mp hpasses).resolve_left nofun)
      | recordFollow =>
          rw [run_cons, Pass.apply]
          exact h.run_finished passes

/-- As long as the tree is not decorated, it stays as it was built. -/
theorem run_of_not_mem (h : tree.Stages) (hpasses : .decorate ∉ passes) :
    tree.run passes = tree := by
  induction passes with
  | nil => rfl
  | cons pass passes ih =>
      obtain ⟨hpass, hrest⟩ := not_or.mp (mt List.mem_cons.mpr hpasses)
      cases pass with
      | decorate => exact absurd rfl hpass
      | recordFollow =>
          rw [run_cons, Pass.apply, h.recordFollow_built]
          exact ih hrest

/-- Once decorated, and not recorded since, the tree is the decorated one. -/
theorem run_of_mem (h : tree.Stages) (hpasses : .decorate ∈ passes)
    (hnot : ¬[.decorate, .recordFollow].Sublist passes) : tree.run passes = tree.decorate := by
  induction passes with
  | nil => cases hpasses
  | cons pass passes ih =>
      rw [run_cons]
      cases pass with
      | decorate =>
          rw [List.cons_sublist_cons, List.singleton_sublist] at hnot
          exact h.run_decorated_of_not_mem hnot
      | recordFollow =>
          rw [Pass.apply, h.recordFollow_built]
          exact ih ((List.mem_cons.mp hpasses).resolve_left nofun) fun hsub =>
            hnot (hsub.cons _)

/-- Once decorated and later recorded, the tree is finished. -/
theorem run_of_sublist (h : tree.Stages) (hpasses : [.decorate, .recordFollow].Sublist passes) :
    tree.run passes = tree.decorate.recordFollow := by
  induction passes with
  | nil => cases hpasses
  | cons pass passes ih =>
      rw [run_cons]
      cases pass with
      | decorate =>
          rw [List.cons_sublist_cons, List.singleton_sublist] at hpasses
          exact h.run_decorated_of_mem hpasses
      | recordFollow =>
          -- The tree is not decorated yet, and this pass cannot be the later one of the two.
          rw [Pass.apply, h.recordFollow_built]
          have hne : Pass.decorate ≠ .recordFollow := nofun
          exact ih (List.Sublist.of_cons_of_ne hne hpasses)

/-- There is no other stage. -/
theorem run_cases (h : tree.Stages) (passes : List Pass) :
    tree.run passes = tree ∨ tree.run passes = tree.decorate ∨
      tree.run passes = tree.decorate.recordFollow := by
  by_cases hmem : .decorate ∈ passes
  · by_cases hsub : [.decorate, .recordFollow].Sublist passes
    · exact .inr (.inr (h.run_of_sublist hsub))
    · exact .inr (.inl (h.run_of_mem hmem hsub))
  · exact .inl (h.run_of_not_mem hmem)

end Stages

end Tree

/-! ### Trees without attributes -/

/-- Where all nodes are blank, so are the attributes found for any id. -/
theorem attributesAt_of_blank {nodes : Array Node} (h : ∀ node ∈ nodes, node.attributes = .blank)
    (id : Nat) : attributesAt nodes id = .blank := by
  cases hid : nodes[id]? with
  | none =>
      rw [attributesAt, hid]
      rfl
  | some node =>
      rw [attributesAt, hid]
      exact h node (Array.mem_of_getElem? hid)

namespace Tree

variable {tree : Tree}

/-- Where all nodes are blank, links have no sources. -/
theorem sources_of_link?_of_blank (h : ∀ node ∈ tree.nodes, node.attributes = .blank)
    {node : Node} (hnode : node ∈ tree.nodes) {link : Link} (hlink : tree.link? node = some link) :
    link.sources = ∅ := by
  have hblank := h node hnode
  obtain ⟨shape, attributes⟩ := node
  cases shape with
  | leaf letter position follow => cases hlink
  | unary op operand =>
      obtain ⟨-, hlink⟩ := Option.ite_none_right_eq_some.mp hlink
      rw [← Option.some.inj hlink, hblank]
      rfl
  | binary op left right =>
      cases op with
      | concat =>
          rw [← Option.some.inj hlink, attributesAt_of_blank h]
          rfl
      | union => cases hlink

/-- Without attributes on record, nothing is linked. -/
theorem entry_followTable_of_blank (h : ∀ node ∈ tree.nodes, node.attributes = .blank) (p : Nat) :
    tree.followTable.entry p = ∅ := by
  ext q
  rw [mem_entry_followTable]
  refine iff_of_false ?_ (PositionSet.not_mem_empty q)
  rintro ⟨-, link, hlink, hp, -⟩
  obtain ⟨node, hnode, hlink⟩ := Array.mem_filterMap.mp hlink
  rw [sources_of_link?_of_blank h hnode hlink] at hp
  exact PositionSet.not_mem_empty p hp

end Tree

/-! ### The stages of an expression -/

namespace Expr

variable {follow : Nat → PositionSet} {attributes : Nat → Expr → Attributes} {e : Expr}

/-- Passes change what is on record, and nothing else. -/
theorem exists_run_eq_layout (e : Expr) (passes : List Pass) :
    ∃ follow attributes, e.toTree.run passes = e.layout follow attributes := by
  -- By induction on the passes, for whatever is on record when they start.
  have hrun : ∀ follow attributes, ∃ follow' attributes',
      (e.layout follow attributes).run passes = e.layout follow' attributes' := by
    induction passes with
    | nil => exact fun follow attributes => ⟨follow, attributes, rfl⟩
    | cons pass passes ih =>
        intro follow attributes
        rw [Tree.run_cons]
        cases pass with
        | decorate =>
            rw [Pass.apply, decorate_layout]
            exact ih _ _
        | recordFollow =>
            rw [Pass.apply, recordFollow_layout]
            exact ih _ _
  rw [toTree_eq_layout]
  exact hrun _ _

/-- All nodes of a layout without attributes are blank. -/
theorem attributes_of_mem_layoutFrom_blank {id start : Nat} {node : Node}
    (h : node ∈ e.layoutFrom follow (fun _ _ => .blank) id start) : node.attributes = .blank := by
  induction e generalizing id start with
  | leaf letter =>
      obtain rfl := List.mem_singleton.mp h
      rfl
  | unary op e ih =>
      rcases List.mem_append.mp h with h | h
      · exact ih h
      · obtain rfl := List.mem_singleton.mp h
        rfl
  | binary op l r ihl ihr =>
      rw [layoutFrom, List.append_assoc] at h
      rcases List.mem_append.mp h with h | h
      · exact ihl h
      rcases List.mem_append.mp h with h | h
      · exact ihr h
      · obtain rfl := List.mem_singleton.mp h
        rfl

/-- Nothing can be recorded in an expression without attributes. -/
theorem entry_followTable_layout_blank (p : Nat) :
    (e.layout follow fun _ _ => .blank).followTable.entry p = ∅ := by
  refine Tree.entry_followTable_of_blank (fun node hnode => ?_) p
  exact attributes_of_mem_layoutFrom_blank (List.mem_toArray.mp hnode)

/-- The follow table of a decorated tree does not depend on what was recorded before. -/
theorem entry_followTable_layout (e : Expr) (follow : Nat → PositionSet) (p : Nat) :
    (e.layout follow attributesFrom).followTable.entry p = e.follow p := by
  ext q
  rw [mem_entry_followTable_layout, mem_follow]

/-- Recording in a decorated tree gives the links of the expression, as long as nothing else was
recorded before. -/
theorem recordFollow_layout_attributesFrom (h : ∀ p, follow p ∪ e.follow p = e.follow p) :
    (e.layout follow attributesFrom).recordFollow = e.layout e.follow attributesFrom := by
  rw [recordFollow_layout]
  simp only [entry_followTable_layout, h]

/-- Decorating the tree of an expression puts its attributes on record, and no follow sets. -/
theorem decorate_toTree (e : Expr) :
    e.toTree.decorate = e.layout (fun _ => ∅) attributesFrom := by
  rw [toTree_eq_layout, decorate_layout]

/-- The finished tree has the links of the expression on record. -/
theorem recordFollow_decorate_toTree (e : Expr) :
    e.toTree.decorate.recordFollow = e.layout e.follow attributesFrom := by
  rw [decorate_toTree]
  exact recordFollow_layout_attributesFrom fun p => PositionSet.empty_union _

/-- The tree of an expression goes through the three stages. -/
theorem stages_toTree (e : Expr) : e.toTree.Stages where
  recordFollow_built := by
    rw [toTree_eq_layout, recordFollow_layout]
    simp only [entry_followTable_layout_blank, PositionSet.union_empty]
  decorate_decorated := e.toTree.decorate_decorate
  decorate_finished := by rw [recordFollow_decorate_toTree, decorate_layout]
  recordFollow_finished := by
    rw [recordFollow_decorate_toTree]
    exact recordFollow_layout_attributesFrom fun p => PositionSet.union_self _

/-- Decorating leaves the follow sets as they are. -/
theorem follow?_leaf?_decorate_layout (p : Nat) :
    ((e.layout follow attributes).decorate.leaf? p).bind Node.follow? =
      ((e.layout follow attributes).leaf? p).bind Node.follow? := by
  rw [decorate_layout]
  cases p with
  | zero => rfl
  | succ k =>
      rw [leaf?_layout, leaf?_layout]
      cases e.letters[k]? <;> rfl

/-- Nothing follows position 0. -/
theorem follow_zero (e : Expr) : e.follow 0 = ∅ := by
  ext q
  refine iff_of_false (fun hq => ?_) (PositionSet.not_mem_empty q)
  exact absurd (range_of_linked (mem_follow.mp hq)).1.1 (by omega)

/-- The follow table of a decorated tree has the links of the expression. -/
theorem getElem?_followTable_layout {p : Nat} (h : p ≤ e.leafCount) :
    (e.layout follow attributesFrom).followTable[p]? = some (e.follow p) := by
  have hsize : p < (e.layout follow attributesFrom).followTable.size := by
    rw [Tree.size_followTable, leafCount_layout]
    omega
  have hentry := e.entry_followTable_layout follow p
  rw [FollowTable.entry, Array.getElem?_eq_getElem hsize] at hentry
  rw [Array.getElem?_eq_getElem hsize]
  exact congrArg some hentry

/-- A leaf has on record what was put there for its position. -/
theorem follow?_leaf?_layout {p : Nat} (h1 : 1 ≤ p) (h2 : p ≤ e.leafCount) :
    ((e.layout follow attributes).leaf? p).bind Node.follow? = some (follow p) := by
  obtain ⟨k, rfl⟩ := Nat.exists_eq_add_of_le' h1
  have hk : k < e.letters.length := by
    rw [length_letters]
    omega
  rw [leaf?_layout, List.getElem?_eq_getElem hk]
  rfl

end Expr

/-! ### All lists of passes -/

/-- **A tree has three stages.** Whatever passes are run on the tree of an expression, it is the
tree as built if it was never decorated, the finished tree if it was decorated and the follow
table recorded some time after, and the decorated tree otherwise. In particular, recording changes
nothing in the tree as built, both passes change nothing when repeated, and decorating never
changes a follow set. The finished tree is that of the automaton of the expression, and has its
own follow table on record. -/
theorem Tree.run_eq_of_ofExpression {expression : String} {tree : Tree}
    (h : Tree.ofExpression expression = .ok tree) :
    (∀ passes : List Pass,
      (.decorate ∉ passes → tree.run passes = tree) ∧
      (.decorate ∈ passes → ¬[.decorate, .recordFollow].Sublist passes →
        tree.run passes = tree.decorate) ∧
      ([.decorate, .recordFollow].Sublist passes →
        tree.run passes = tree.decorate.recordFollow) ∧
      (tree.run passes).decorate.decorate = (tree.run passes).decorate ∧
      (tree.run passes).recordFollow.recordFollow = (tree.run passes).recordFollow ∧
      ∀ p, ((tree.run passes).decorate.leaf? p).bind Node.follow? =
        ((tree.run passes).leaf? p).bind Node.follow?) ∧
    tree.recordFollow = tree ∧
    PositionAutomaton.ofExpression expression = .ok ⟨tree.decorate.recordFollow⟩ ∧
    tree.decorate.recordFollow.followTable.size = tree.leafCount + 1 ∧
    tree.decorate.recordFollow.followTable[0]? = some ∅ ∧
    ∀ p, 1 ≤ p → p ≤ tree.leafCount →
      tree.decorate.recordFollow.followTable[p]? =
        (tree.decorate.recordFollow.leaf? p).bind Node.follow? := by
  have hautomaton : PositionAutomaton.ofExpression expression =
      .ok ⟨tree.decorate.recordFollow⟩ := by
    rw [PositionAutomaton.ofExpression, h]
    rfl
  obtain ⟨e, -, rfl⟩ := Tree.ofExpression_eq_ok_iff.mp h
  have hstages := e.stages_toTree
  have hcount : e.toTree.leafCount = e.leafCount := by
    rw [Expr.toTree_eq_layout, Expr.leafCount_layout]
  refine ⟨fun passes => ⟨hstages.run_of_not_mem, hstages.run_of_mem, hstages.run_of_sublist,
    ?_, ?_, ?_⟩, hstages.recordFollow_built, hautomaton, ?_, ?_, fun p h1 h2 => ?_⟩
  · obtain ⟨follow, attributes, hrun⟩ := e.exists_run_eq_layout passes
    rw [hrun, Expr.decorate_layout, Expr.decorate_layout]
  · rcases hstages.run_cases passes with hrun | hrun | hrun <;> rw [hrun]
    · rw [hstages.recordFollow_built, hstages.recordFollow_built]
    · exact hstages.recordFollow_finished
    · rw [hstages.recordFollow_finished, hstages.recordFollow_finished]
  · obtain ⟨follow, attributes, hrun⟩ := e.exists_run_eq_layout passes
    rw [hrun]
    exact Expr.follow?_leaf?_decorate_layout
  · rw [Tree.size_followTable, Expr.recordFollow_decorate_toTree, Expr.leafCount_layout, hcount]
  · rw [Expr.recordFollow_decorate_toTree, Expr.getElem?_followTable_layout (Nat.zero_le _),
      Expr.follow_zero]
  · rw [hcount] at h2
    rw [Expr.recordFollow_decorate_toTree, Expr.getElem?_followTable_layout h2,
      Expr.follow?_leaf?_layout h1 h2]

/-- The tree of `ab.*` is at each of its stages after some passes, and no two of them are equal. -/
theorem Tree.run_eq_of_ofExpression_star_concat :
    ∃ tree, Tree.ofExpression "ab.*" = .ok tree ∧
      tree.run [.recordFollow, .recordFollow] = tree ∧
      tree.run [.recordFollow, .decorate, .decorate] = tree.decorate ∧
      tree.run [.recordFollow, .decorate, .recordFollow, .decorate] =
        tree.decorate.recordFollow ∧
      tree.decorate ≠ tree ∧ tree.decorate.recordFollow ≠ tree.decorate := by
  let e : Expr := .unary .star (.binary .concat (.leaf (.operand 'a')) (.leaf (.operand 'b')))
  have hbuild : Tree.ofExpression "ab.*" = .ok e.toTree :=
    Tree.ofExpression_eq_ok_iff.mpr
      ⟨e, .unary .star (.binary .concat (.plain rfl) (.plain rfl)), rfl⟩
  have hrun := (Tree.run_eq_of_ofExpression hbuild).1
  exact ⟨e.toTree, hbuild, (hrun _).1 (by decide), (hrun _).2.1 (by decide) (by decide),
    (hrun _).2.2.1 (by decide), by decide, by decide +kernel⟩

end RegexPositions
