import RegexPositions.Proofs.Tree.Malformed
import RegexPositions.Proofs.Tree.Stages

/-!
# Which Token Makes Which Node

Each token of an expression makes one node, and the nodes stand in the order of their tokens. A
node tells which token has made it (`Shape.token`), up to one thing: whether an operand was
escaped (`Token.unescaped`).

* `Assembly.exists_push_of_add` — what one token does to the nodes;
* `Assembly.exists_tokens_of_foldlM_addItem` — what a whole list of items does;
* `Tree.map_token_of_ofExpression` — the nodes of a tree are those of the tokens, and passes
  change nothing about that (`Tree.map_token_run`).
-/

namespace RegexPositions

/-- The token, with an escaped operand as if it stood for itself. -/
def Token.unescaped : Token → Token
  | escaped c => operand c
  | operand c => operand c
  | endMarker => endMarker
  | unary op => unary op
  | binary op => binary op
  | grouping c => grouping c

/-- The token that makes a node of this shape. -/
def Shape.token : Shape → Token
  | leaf (.operand c) _ _ => .operand c
  | leaf .endMarker _ _ => .endMarker
  | unary op _ => .unary op
  | binary op _ _ => .binary op

/-- Dropping an escape keeps operands operands. -/
theorem Token.isOperand_unescaped (token : Token) :
    token.unescaped.isOperand = token.isOperand := by
  cases token <;> rfl

/-- Operands make leaves. -/
theorem Node.isOperand_token (node : Node) : node.shape.token.isOperand = node.isLeaf := by
  obtain ⟨shape, attributes⟩ := node
  cases shape with
  | leaf letter position follow => cases letter <;> rfl
  | unary op operand => rfl
  | binary op left right => rfl

/-! ### Assembling -/

namespace Assembly

open TokenReader

variable {a b : Assembly}

/-- A token makes one node, behind those made before. -/
theorem exists_push_of_add {placed : PlacedToken} (h : a.add placed = .ok b) :
    ∃ node, b.nodes = a.nodes.push node ∧ node.shape.token = placed.token.unescaped := by
  obtain ⟨index, token⟩ := placed
  cases token with
  | operand c =>
      cases h
      exact ⟨_, rfl, rfl⟩
  | escaped c =>
      cases h
      exact ⟨_, rfl, rfl⟩
  | endMarker =>
      cases h
      exact ⟨_, rfl, rfl⟩
  | unary op =>
      simp only [add] at h
      split at h
      · cases h
        exact ⟨_, rfl, rfl⟩
      · cases h
  | binary op =>
      simp only [add] at h
      split at h
      · cases h
        exact ⟨_, rfl, rfl⟩
      · cases h
  | grouping c => cases h

/-- Items that are assembled without fault are tokens, and each makes a node. -/
theorem exists_tokens_of_foldlM_addItem {items : List Item}
    (h : items.foldlM addItem a = .ok b) :
    ∃ tokens : List PlacedToken, items = tokens.map .ok ∧
      b.nodes.toList.map (·.shape.token) =
        a.nodes.toList.map (·.shape.token) ++ tokens.map (·.token.unescaped) := by
  induction items generalizing a with
  | nil =>
      cases h
      exact ⟨[], rfl, (List.append_nil _).symm⟩
  | cons item items ih =>
      rw [List.foldlM_cons] at h
      cases item with
      | error cause => cases h
      | ok placed =>
          cases hadd : a.add placed with
          | error cause =>
              have hitem : a.addItem (.ok placed) = .error cause := hadd
              rw [hitem] at h
              cases h
          | ok next =>
              have hitem : a.addItem (.ok placed) = .ok next := hadd
              rw [hitem] at h
              obtain ⟨node, hnodes, htoken⟩ := exists_push_of_add hadd
              obtain ⟨tokens, rfl, htokens⟩ := ih h
              refine ⟨placed :: tokens, rfl, ?_⟩
              rw [htokens, hnodes]
              simp [htoken]

/-- The tree has the nodes of the assembly. -/
theorem nodes_of_finish {tree : Tree} (h : a.finish = .ok tree) : tree.nodes = a.nodes := by
  unfold finish at h
  split at h
  · cases h
  · cases h
    rfl
  · cases h

end Assembly

/-! ### Trees -/

namespace Tree

open TokenReader

/-- Items without a fault are the tokens of the expression. -/
theorem tokens_of_itemsOf {expression : String} {tokens : List PlacedToken}
    (h : itemsOf expression = tokens.map .ok) :
    (TokenReader.ofExpression expression).tokens.1 = .ok tokens.toArray := by
  have hread : (TokenReader.ofExpression expression).readAll.1 =
      (tokens.map Except.ok).toArray := by
    rw [← h, itemsOf, Array.toArray_toList]
  have hmap : (tokens.map Except.ok).mapM id = (.ok tokens : Except Malformed _) := by
    rw [List.mapM_map]
    exact List.mapM_pure.trans (congrArg Except.ok (List.map_id tokens))
  change (TokenReader.ofExpression expression).readAll.1.mapM id = _
  rw [hread, List.mapM_toArray, hmap]
  rfl

/-- The items of an expression that has a tree are tokens, and each makes a node. -/
theorem exists_itemsOf_of_ofExpression {expression : String} {tree : Tree}
    (h : Tree.ofExpression expression = .ok tree) :
    ∃ tokens : List PlacedToken, itemsOf expression = tokens.map .ok ∧
      tree.nodes.toList.map (·.shape.token) = tokens.map (·.token.unescaped) := by
  rw [ofExpression_eq_bind] at h
  cases hall : (itemsOf expression).foldlM Assembly.addItem .empty with
  | error cause =>
      rw [hall] at h
      cases h
  | ok a =>
      rw [hall] at h
      obtain ⟨tokens, hitems, htokens⟩ := Assembly.exists_tokens_of_foldlM_addItem hall
      refine ⟨tokens, hitems, ?_⟩
      rw [Assembly.nodes_of_finish h, htokens]
      simp [Assembly.empty]

/-- The nodes of a tree come from the tokens of the expression, one from each. -/
theorem map_token_of_ofExpression {expression : String} {tree : Tree}
    (h : Tree.ofExpression expression = .ok tree) :
    ∃ tokens, (TokenReader.ofExpression expression).tokens.1 = .ok tokens ∧
      tree.nodes.map (·.shape.token) = tokens.map (·.token.unescaped) := by
  obtain ⟨tokens, hitems, htokens⟩ := exists_itemsOf_of_ofExpression h
  refine ⟨tokens.toArray, tokens_of_itemsOf hitems, ?_⟩
  rw [← Array.toList_inj, Array.toList_map, htokens]
  simp

/-- A pass changes no token. -/
theorem map_token_apply (pass : Pass) (tree : Tree) :
    (pass.apply tree).nodes.map (·.shape.token) = tree.nodes.map (·.shape.token) := by
  cases pass with
  | decorate =>
      have hshapes := congrArg (Array.map Shape.token) (map_shape_decorateNodes tree.nodes)
      rwa [Array.map_map, Array.map_map] at hshapes
  | recordFollow =>
      have hnode : ∀ node : Node,
          (node.recordFollow tree.followTable).shape.token = node.shape.token := by
        intro node
        obtain ⟨shape, attributes⟩ := node
        cases shape with
        | leaf letter position follow => cases letter <;> rfl
        | unary op operand => rfl
        | binary op left right => rfl
      change (tree.nodes.map (Node.recordFollow tree.followTable)).map _ = _
      rw [Array.map_map]
      exact Array.map_congr_left fun node _ => hnode node

/-- No pass changes which token a node comes from. -/
theorem map_token_run (passes : List Pass) (tree : Tree) :
    (tree.run passes).nodes.map (·.shape.token) = tree.nodes.map (·.shape.token) := by
  induction passes generalizing tree with
  | nil => rfl
  | cons pass passes ih => rw [run_cons, ih, map_token_apply]

end Tree

end RegexPositions
