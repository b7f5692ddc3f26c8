import RegexPositions.Operator

/-!
# Tokens

The tokens of a regular expression in reverse Polish form. Every token but one is written by a
single character; an escaped operand is written by the escape character `\` and the character
it protects. `Token.ofChar` classifies a character that stands for itself and `Token.spell`
writes a token back (`Token.spell_ofChar`).

A `PlacedToken` knows where it starts. Its place is not part of what it is: `==` compares the
tokens alone (`PlacedToken.beq_iff`).
-/

namespace RegexPositions

/-- Marks the end of an expression when written as its last operand. -/
def endMarker : Char := '#'

/-- Makes an operand of the character after it. -/
def escape : Char := '\\'

/-- Grouping characters are set aside: they are no operands, and nothing gives them a meaning. -/
def isGrouping (c : Char) : Bool :=
  c = '(' || c = ')' || c = '[' || c = ']' || c = '-'

/-- A **metacharacter** stands for itself only where it is escaped. -/
def isMeta (c : Char) : Bool :=
  c = escape || c = endMarker || isGrouping c || (UnaryOp.ofSymbol? c).isSome ||
    (BinaryOp.ofSymbol? c).isSome

/-- A **token** of an expression. -/
inductive Token where
  /-- A character that stands for itself. -/
  | operand (c : Char)
  /-- A character that stands for itself because it is escaped. -/
  | escaped (c : Char)
  /-- The end marker. -/
  | endMarker
  /-- An operator with one operand. -/
  | unary (op : UnaryOp)
  /-- An operator with two operands. -/
  | binary (op : BinaryOp)
  /-- A grouping character. -/
  | grouping (c : Char)
  deriving DecidableEq, Repr

namespace Token

/-- The token that a character writes by itself. -/
def ofChar (c : Char) : Token :=
  if c = RegexPositions.endMarker then endMarker
  else if isGrouping c then grouping c
  else
    match UnaryOp.ofSymbol? c, BinaryOp.ofSymbol? c with
    | some op, _ => unary op
    | none, some op => binary op
    | none, none => operand c

/-- The character that the token is about: of an escaped operand, the one escaped. -/
def toChar : Token → Char
  | operand c | escaped c | grouping c => c
  | endMarker => RegexPositions.endMarker
  | unary op => op.symbol
  | binary op => op.symbol

/-- Operands and end markers become leaves. -/
def isOperand : Token → Bool
  | operand _ | escaped _ | endMarker => true
  | unary _ | binary _ | grouping _ => false

/-- The characters that write the token. -/
def spell : Token → List Char
  | escaped c => [escape, c]
  | token => [token.toChar]

/-- A character that stands for itself is the spelling of its token. -/
theorem spell_ofChar (c : Char) : (ofChar c).spell = [c] := by
  unfold ofChar
  split
  · next h => simp [spell, toChar, h]
  · split
    · simp [spell, toChar]
    · split
      · next op _ h => simp [spell, toChar, UnaryOp.ofSymbol?_eq_some_iff.mp h]
      · next op _ h => simp [spell, toChar, BinaryOp.ofSymbol?_eq_some_iff.mp h]
      · simp [spell, toChar]

/-- A character that is no metacharacter is an operand. -/
theorem ofChar_of_not_isMeta {c : Char} (h : isMeta c = false) : ofChar c = operand c := by
  simp only [isMeta, Bool.or_eq_false_iff, decide_eq_false_iff_not, Option.isSome_eq_false_iff,
    Option.isNone_iff_eq_none] at h
  obtain ⟨⟨⟨⟨_, hend⟩, hgroup⟩, hunary⟩, hbinary⟩ := h
  simp [ofChar, hend, hgroup, hunary, hbinary]

/-- A grouping character is read as such. -/
theorem ofChar_of_isGrouping {c : Char} (h : isGrouping c = true) : ofChar c = grouping c := by
  have hne : c ≠ RegexPositions.endMarker := by
    rintro rfl
    exact absurd h (by decide)
  simp [ofChar, hne, h]

/-- A character is either no metacharacter or one of a few. -/
theorem char_cases (c : Char) :
    isMeta c = false ∨ c = escape ∨ c = RegexPositions.endMarker ∨ isGrouping c = true ∨
      (∃ op : UnaryOp, c = op.symbol) ∨ ∃ op : BinaryOp, c = op.symbol := by
  cases h : isMeta c with
  | false => exact .inl rfl
  | true =>
      simp only [isMeta, Bool.or_eq_true, decide_eq_true_eq, Option.isSome_iff_exists,
        UnaryOp.ofSymbol?_eq_some_iff, BinaryOp.ofSymbol?_eq_some_iff, or_assoc] at h
      exact .inr h

/-- The end marker's character is read as the end marker. -/
theorem ofChar_endMarker : ofChar RegexPositions.endMarker = endMarker := rfl

/-- The symbol of a unary operator is read as the operator. -/
theorem ofChar_symbol_unary (op : UnaryOp) : ofChar op.symbol = unary op := by
  cases op <;> rfl

/-- The symbol of a binary operator is read as the operator. -/
theorem ofChar_symbol_binary (op : BinaryOp) : ofChar op.symbol = binary op := by
  cases op <;> rfl

end Token

/-- A **placed token**: a token and the index of its first character. -/
structure PlacedToken where
  /-- The number of characters before the token. -/
  index : Nat
  /-- The token. -/
  token : Token
  deriving Repr

namespace PlacedToken

/-- Where a token stands does not count. -/
instance : BEq PlacedToken := ⟨fun a b => a.token == b.token⟩

/-- Placed tokens are compared without their places. -/
theorem beq_iff {a b : PlacedToken} : (a == b) = true ↔ a.token = b.token := by
  change (a.token == b.token) = true ↔ a.token = b.token
  exact beq_iff_eq

end PlacedToken

end RegexPositions
