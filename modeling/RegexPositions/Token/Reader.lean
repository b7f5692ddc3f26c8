import RegexPositions.Malformed
import RegexPositions.Token.Basic

/-!
# Reading tokens

A `TokenReader` stands between two tokens of an expression: it knows the number of characters
behind it and the characters ahead. `next` reads one token. `readAll` reads on to the end and
returns what was read, faults included, with the reader at the end; `tokens` stops at the first
fault.

There is one fault, an escape character with nothing to escape. It uses up the last character,
so it can only be the last item (`next_eq_error_iff`).
-/

namespace RegexPositions

/-- A **token reader**: a place in an expression, between two characters. -/
structure TokenReader where
  /-- The number of characters read. -/
  index : Nat
  /-- The characters still to be read. -/
  rest : List Char
  deriving DecidableEq, Repr

namespace TokenReader

/-- What one step reads: a token, or a fault. -/
abbrev Item := Except Malformed PlacedToken

/-- The reader at the start of an expression. -/
def ofExpression (expression : String) : TokenReader := ⟨0, expression.toList⟩

/-- Reads one item, and returns it with the reader behind it; at the end there is none. -/
def next (reader : TokenReader) : Option Item × TokenReader :=
  match reader.rest with
  | [] => (none, reader)
  | [c] =>
      if c = escape then (some (.error (.danglingEscape reader.index)), ⟨reader.index + 1, []⟩)
      else (some (.ok ⟨reader.index, .ofChar c⟩), ⟨reader.index + 1, []⟩)
  | c :: d :: rest =>
      if c = escape then (some (.ok ⟨reader.index, .escaped d⟩), ⟨reader.index + 2, rest⟩)
      else (some (.ok ⟨reader.index, .ofChar c⟩), ⟨reader.index + 1, d :: rest⟩)

/-- At the end of the text there is no next item. -/
theorem next_nil (index : Nat) : next ⟨index, []⟩ = (none, ⟨index, []⟩) := rfl

/-- A character that is no escape character is a token. -/
theorem next_cons {c : Char} (h : c ≠ escape) (index : Nat) (rest : List Char) :
    next ⟨index, c :: rest⟩ = (some (.ok ⟨index, .ofChar c⟩), ⟨index + 1, rest⟩) := by
  cases rest <;> simp [next, h]

/-- An escape character and the character after it are a token. -/
theorem next_escape_cons (index : Nat) (c : Char) (rest : List Char) :
    next ⟨index, escape :: c :: rest⟩ =
      (some (.ok ⟨index, .escaped c⟩), ⟨index + 2, rest⟩) := by
  simp [next]

/-- An escape character with nothing after it dangles. -/
theorem next_escape (index : Nat) :
    next ⟨index, [escape]⟩ = (some (.error (.danglingEscape index)), ⟨index + 1, []⟩) := by
  simp [next]

/-- Reading an item uses up characters. -/
theorem length_rest_next_lt {reader : TokenReader} {item : Item} {after : TokenReader}
    (h : reader.next = (some item, after)) : after.rest.length < reader.rest.length := by
  unfold next at h
  split at h
  · cases h
  · next c hrest => split at h <;> cases h <;> simp [hrest]
  · next c d rest hrest => split at h <;> cases h <;> simp only [hrest, List.length_cons] <;> omega

/-- The items from here to the end after those already read, and the reader at the end. -/
def readOnto (read : Array Item) (reader : TokenReader) : Array Item × TokenReader :=
  match _h : reader.next with
  | (none, after) => (read, after)
  | (some item, after) => readOnto (read.push item) after
termination_by reader.rest.length
decreasing_by exact length_rest_next_lt _h

/-- The items from here to the end, and the reader at the end. -/
def readAll (reader : TokenReader) : Array Item × TokenReader :=
  readOnto #[] reader

/-- Where there is no next item, reading stops. -/
theorem readOnto_of_next_none {read : Array Item} {reader after : TokenReader}
    (h : reader.next = (none, after)) : readOnto read reader = (read, after) := by
  rw [readOnto]
  split <;> simp_all

/-- The next item is put behind those read before, and reading goes on. -/
theorem readOnto_of_next_some {read : Array Item} {reader after : TokenReader} {item : Item}
    (h : reader.next = (some item, after)) :
    readOnto read reader = readOnto (read.push item) after := by
  rw [readOnto]
  split <;> simp_all

/-- What was read before does not matter. -/
theorem readOnto_eq (read : Array Item) (reader : TokenReader) :
    readOnto read reader = (read ++ reader.readAll.1, reader.readAll.2) := by
  suffices h : ∀ n (read : Array Item) (reader : TokenReader), reader.rest.length = n →
      readOnto read reader = (read ++ reader.readAll.1, reader.readAll.2) from h _ _ _ rfl
  intro n
  induction n using Nat.strongRecOn with
  | ind n ih =>
      intro read reader hn
      rcases hnext : reader.next with ⟨_ | item, after⟩
      · simp [readAll, readOnto_of_next_none hnext]
      · have hlt := length_rest_next_lt hnext
        have hread := fun read => ih _ (hn ▸ hlt) read after rfl
        rw [readAll, readOnto_of_next_some hnext, readOnto_of_next_some hnext, hread, hread]
        simp

/-- At the end nothing is read. -/
theorem readAll_of_next_none {reader after : TokenReader} (h : reader.next = (none, after)) :
    reader.readAll = (#[], after) :=
  readOnto_of_next_none h

/-- Reading on takes one step and reads on from there. -/
theorem readAll_of_next_some {reader after : TokenReader} {item : Item}
    (h : reader.next = (some item, after)) :
    reader.readAll = (#[item] ++ after.readAll.1, after.readAll.2) := by
  rw [readAll, readOnto_of_next_some h, readOnto_eq]
  rfl

/-- The tokens from here to the end, or the first fault, and the reader at the end. -/
def tokens (reader : TokenReader) : Except Malformed (Array PlacedToken) × TokenReader :=
  reader.readAll.map (·.mapM id) id

/-- A fault is an escape character that is the last character. -/
theorem next_eq_error_iff {reader after : TokenReader} {cause : Malformed} :
    reader.next = (some (.error cause), after) ↔
      reader.rest = [escape] ∧ cause = .danglingEscape reader.index ∧
        after = ⟨reader.index + 1, []⟩ := by
  unfold next
  split
  · next h => simp [h]
  · next c h =>
      rw [h]
      by_cases hc : c = escape <;> simp [hc, eq_comm]
  · next c d rest h =>
      rw [h]
      by_cases hc : c = escape <;> simp [hc]

end TokenReader

end RegexPositions
