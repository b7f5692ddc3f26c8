import Mathlib.Data.List.Induction
import RegexPositions.Proofs.Token.Depth

/-!
# Reading Undoes Spelling

The items of an expression and the text of it tell the same. Read call by call, the tokens lie
side by side and leave no character out (`TokenReader.Tiles`), so spelling them one after the
other gives the text back. Conversely, what is spelled by tokens that can be read at all
(`Token.Readable`) is read as these tokens.

* `TokenReader.next_cases` — what one call can do; `TokenReader.next_spell` — what it does with
  the spelling of a token;
* `exists_readable_spelling` — every text is spelled by such tokens, up to an escape character at
  its end that escapes nothing. Which of the two it is depends on how many escape characters the
  text ends with (`trailingEscapes_flatMap_spell`);
* `TokenReader.tiles_itemsOf` — the calls of a reader;
* `TokenReader.itemsOf_spelling` — all of it, in both directions.
-/

namespace RegexPositions

/-! ### Tokens that can be read -/

/-- There are five grouping characters. -/
theorem isGrouping_eq_true_iff {c : Char} :
    isGrouping c = true ↔ c ∈ ['(', ')', '[', ']', '-'] := by
  simp [isGrouping, or_assoc]

/-- The metacharacters. -/
theorem isMeta_eq_true_iff {c : Char} :
    isMeta c = true ↔ c ∈ ['\\', '#', '(', ')', '[', ']', '-', '*', '+', '?', '.', '|'] := by
  constructor
  · intro h
    rcases Token.char_cases c with hmeta | rfl | rfl | hgroup | ⟨op, rfl⟩ | ⟨op, rfl⟩
    · rw [hmeta] at h
      cases h
    · decide
    · decide
    · have hinfix : ['(', ')', '[', ']', '-'] <:+:
          ['\\', '#', '(', ')', '[', ']', '-', '*', '+', '?', '.', '|'] :=
        ⟨['\\', '#'], ['*', '+', '?', '.', '|'], rfl⟩
      exact hinfix.subset (isGrouping_eq_true_iff.mp hgroup)
    · cases op <;> decide
    · cases op <;> decide
  · have hall :
        ['\\', '#', '(', ')', '[', ']', '-', '*', '+', '?', '.', '|'].all isMeta = true := by
      decide
    exact List.all_eq_true.mp hall c

namespace Token

/-- The number of characters that write the token. -/
def width : Token → Nat
  | escaped _ => 2
  | operand _ | endMarker | unary _ | binary _ | grouping _ => 1

/-- A token is **readable** if it is the token of its spelling: an operand that is not escaped is no
metacharacter, and a grouping character is one. -/
def Readable : Token → Prop
  | operand c => c ∉ ['\\', '#', '(', ')', '[', ']', '-', '*', '+', '?', '.', '|']
  | grouping c => c ∈ ['(', ')', '[', ']', '-']
  | escaped _ | endMarker | unary _ | binary _ => True

/-- A token is spelled with as many characters as it is wide. -/
theorem length_spell (token : Token) : token.spell.length = token.width := by
  cases token <;> rfl

/-- Only an escaped token is spelled with an escape character. -/
theorem spell_eq_singleton {token : Token} (h : token.Readable) :
    (∃ c, token = escaped c) ∨ ∃ c, c ≠ escape ∧ token.spell = [c] ∧ ofChar c = token := by
  cases token with
  | operand c =>
      have hmeta : isMeta c = false := Bool.eq_false_iff.mpr (mt isMeta_eq_true_iff.mp h)
      refine .inr ⟨c, ?_, rfl, ofChar_of_not_isMeta hmeta⟩
      rintro rfl
      exact h (by decide)
  | escaped c => exact .inl ⟨c, rfl⟩
  | endMarker => exact .inr ⟨_, by decide, rfl, ofChar_endMarker⟩
  | unary op => exact .inr ⟨op.symbol, by cases op <;> decide, rfl, ofChar_symbol_unary op⟩
  | binary op => exact .inr ⟨op.symbol, by cases op <;> decide, rfl, ofChar_symbol_binary op⟩
  | grouping c =>
      refine .inr ⟨c, ?_, rfl, ofChar_of_isGrouping (isGrouping_eq_true_iff.mpr h)⟩
      rintro rfl
      have hnot : escape ∉ ['(', ')', '[', ']', '-'] := by decide
      exact hnot h

/-- What a character writes by itself is readable. -/
theorem readable_ofChar {c : Char} (h : c ≠ escape) : (ofChar c).Readable := by
  rcases char_cases c with hmeta | hesc | rfl | hgroup | ⟨op, rfl⟩ | ⟨op, rfl⟩
  · rw [ofChar_of_not_isMeta hmeta]
    exact mt isMeta_eq_true_iff.mpr (Bool.eq_false_iff.mp hmeta)
  · exact absurd hesc h
  · trivial
  · rw [ofChar_of_isGrouping hgroup]
    exact isGrouping_eq_true_iff.mp hgroup
  · rw [ofChar_symbol_unary]
    trivial
  · rw [ofChar_symbol_binary]
    trivial

end Token

/-! ### Texts -/

/-- The number of escape characters at the end of a text, after the last other character. -/
def trailingEscapes (s : List Char) : Nat :=
  (s.reverse.takeWhile (· = escape)).length

/-- One more character at the end adds to the escape characters there, or leaves none. -/
theorem trailingEscapes_concat (s : List Char) (c : Char) :
    trailingEscapes (s ++ [c]) = if c = escape then trailingEscapes s + 1 else 0 := by
  rw [trailingEscapes, List.reverse_concat, List.takeWhile_cons]
  by_cases hc : c = escape <;> simp [hc, trailingEscapes]

/-- The spellings of tokens leave an even number of escape characters at the end: there, each token
with one has two. -/
theorem trailingEscapes_flatMap_spell {tokens : List Token} (h : ∀ token ∈ tokens, token.Readable) :
    trailingEscapes (tokens.flatMap Token.spell) % 2 = 0 := by
  induction tokens using List.reverseRecOn with
  | nil => rfl
  | append_singleton before token ih =>
      rw [List.flatMap_append, List.flatMap_singleton]
      rcases Token.spell_eq_singleton (h token (by simp)) with ⟨c, rfl⟩ | ⟨c, hc, hspell, -⟩
      · have hbefore := ih fun other hother => h other (List.mem_append_left _ hother)
        rw [Token.spell, ← List.singleton_append, ← List.append_assoc, trailingEscapes_concat,
          trailingEscapes_concat, if_pos rfl]
        split
        · omega
        · rfl
      · rw [hspell, trailingEscapes_concat, if_neg hc]

/-- Every text is spelled by tokens, up to an escape character that escapes nothing. -/
theorem exists_readable_spelling : (s : List Char) →
    ∃ tokens : List Token, (∀ token ∈ tokens, token.Readable) ∧
      (s = tokens.flatMap Token.spell ∨ s = tokens.flatMap Token.spell ++ [escape])
  | [] => ⟨[], nofun, .inl rfl⟩
  | [c] => by
      by_cases hc : c = escape
      · exact ⟨[], nofun, .inr (by rw [hc]; rfl)⟩
      · refine ⟨[.ofChar c], ?_, .inl ?_⟩
        · exact List.forall_mem_singleton.mpr (Token.readable_ofChar hc)
        · rw [List.flatMap_singleton, Token.spell_ofChar]
  | c :: d :: rest => by
      by_cases hc : c = escape
      · obtain ⟨tokens, hreadable, hrest⟩ := exists_readable_spelling rest
        refine ⟨.escaped d :: tokens, List.forall_mem_cons.mpr ⟨trivial, hreadable⟩, ?_⟩
        rw [List.flatMap_cons, Token.spell, hc]
        exact hrest.imp (congrArg ([escape, d] ++ ·)) (congrArg ([escape, d] ++ ·))
      · obtain ⟨tokens, hreadable, hrest⟩ := exists_readable_spelling (d :: rest)
        refine ⟨.ofChar c :: tokens,
          List.forall_mem_cons.mpr ⟨Token.readable_ofChar hc, hreadable⟩, ?_⟩
        rw [List.flatMap_cons, Token.spell_ofChar]
        exact hrest.imp (congrArg ([c] ++ ·)) (congrArg ([c] ++ ·))

namespace TokenReader

/-! ### One call -/

variable {reader after : TokenReader} {token : Token} {rest : List Char} {index : Nat}

/-- Before the spelling of a readable token, a reader reads that token. -/
theorem next_spell (h : token.Readable) (index : Nat) (rest : List Char) :
    next ⟨index, token.spell ++ rest⟩ =
      (some (.ok ⟨index, token⟩), ⟨index + token.width, rest⟩) := by
  rw [← Token.length_spell]
  rcases Token.spell_eq_singleton h with ⟨c, rfl⟩ | ⟨c, hc, hspell, htoken⟩
  · exact next_escape_cons index c rest
  · rw [hspell, List.singleton_append, next_cons hc, htoken]
    rfl

/-- **What a call does.** At the end it returns nothing and stays; before an escape character that
is the last one it reports that; otherwise it returns the token that is spelled there. -/
theorem next_cases (reader : TokenReader) :
    (reader.rest = [] ∧ reader.next = (none, reader)) ∨
    (reader.rest = [escape] ∧
      reader.next = (some (.error (.danglingEscape reader.index)), ⟨reader.index + 1, []⟩)) ∨
    ∃ token rest, reader.rest = token.spell ++ rest ∧
      reader.next = (some (.ok ⟨reader.index, token⟩), ⟨reader.index + token.width, rest⟩) := by
  obtain ⟨index, text⟩ := reader
  obtain ⟨tokens, hreadable, htext⟩ := exists_readable_spelling text
  cases tokens with
  | nil =>
      rcases htext with rfl | rfl
      · exact .inl ⟨rfl, rfl⟩
      · exact .inr (.inl ⟨rfl, next_escape index⟩)
  | cons token tokens =>
      have hread := next_spell (hreadable token List.mem_cons_self) index
      rw [List.flatMap_cons] at htext
      rcases htext with rfl | rfl
      · exact .inr (.inr ⟨token, _, rfl, hread _⟩)
      · rw [List.append_assoc]
        exact .inr (.inr ⟨token, _, rfl, hread _⟩)

/-! ### All calls -/

/-- The reader after some calls. -/
def skip (reader : TokenReader) : Nat → TokenReader
  | 0 => reader
  | calls + 1 => skip reader.next.2 calls

/-- The tokens placed side by side, the first one at `index`. -/
def placeFrom (index : Nat) : List Token → List PlacedToken
  | [] => []
  | token :: tokens => ⟨index, token⟩ :: placeFrom (index + token.width) tokens

/-- Placing tokens keeps them and their order. -/
theorem map_token_placeFrom (index : Nat) (tokens : List Token) :
    (placeFrom index tokens).map (·.token) = tokens := by
  induction tokens generalizing index with
  | nil => rfl
  | cons token tokens ih => rw [placeFrom, List.map_cons, ih]

/-- What is read from a place on begins with the next item. -/
theorem toList_readAll_of_next_some {item : Item} (h : reader.next = (some item, after)) :
    reader.readAll.1.toList = item :: after.readAll.1.toList := by
  rw [readAll_of_next_some h, Array.toList_append]
  rfl

/-- Where there is no next item, nothing more is read. -/
theorem toList_readAll_of_next_none (h : reader.next = (none, after)) :
    reader.readAll.1.toList = [] := by
  rw [readAll_of_next_none h]

/-- What tokens spell is read as these tokens, whatever comes after it. -/
theorem toList_readAll_flatMap_spell {tokens : List Token}
    (h : ∀ token ∈ tokens, token.Readable) (index : Nat) (rest : List Char) :
    (TokenReader.mk index (tokens.flatMap Token.spell ++ rest)).readAll.1.toList =
      (placeFrom index tokens).map .ok ++
        (TokenReader.mk (index + (tokens.flatMap Token.spell).length) rest).readAll.1.toList := by
  induction tokens generalizing index with
  | nil => rfl
  | cons token tokens ih =>
      obtain ⟨htoken, htokens⟩ := List.forall_mem_cons.mp h
      rw [List.flatMap_cons, List.append_assoc,
        toList_readAll_of_next_some (next_spell htoken index _), ih htokens, List.length_append,
        Token.length_spell, Nat.add_assoc]
      rfl

/-- One more call takes the reader one item further. -/
theorem skip_succ (reader : TokenReader) (k : Nat) :
    reader.skip (k + 1) = (reader.skip k).next.2 := by
  induction k generalizing reader with
  | zero => rfl
  | succ k ih => rw [skip, ih, skip]

/-- The calls return the items one after the other, and then nothing. -/
theorem next_skip (reader : TokenReader) (k : Nat) :
    (reader.skip k).next = (reader.readAll.1.toList[k]?, reader.skip (k + 1)) := by
  refine Prod.ext ?_ (reader.skip_succ k).symm
  induction k generalizing reader with
  | zero =>
      rcases hnext : reader.next with ⟨_ | item, after⟩
      · rw [toList_readAll_of_next_none hnext, skip, hnext]
        rfl
      · rw [toList_readAll_of_next_some hnext, skip, hnext]
        rfl
  | succ k ih =>
      rw [skip, ih]
      rcases next_cases reader with ⟨-, hnext⟩ | ⟨-, hnext⟩ | ⟨token, rest, -, hnext⟩
      · rw [hnext, toList_readAll_of_next_none hnext]
        rfl
      · rw [toList_readAll_of_next_some hnext, hnext]
        rfl
      · rw [toList_readAll_of_next_some hnext, hnext]
        rfl

/-- The reader stands in the text: behind the characters that it has counted. -/
def In (reader : TokenReader) (s : List Char) : Prop :=
  ∃ read, s = read ++ reader.rest ∧ reader.index = read.length

variable {s : List Char}

/-- A call keeps the reader in the text. -/
theorem In.next (h : reader.In s) : reader.next.2.In s := by
  obtain ⟨read, hs, hindex⟩ := h
  rcases next_cases reader with ⟨hrest, hnext⟩ | ⟨hrest, hnext⟩ | ⟨token, rest, hrest, hnext⟩
  · rw [hnext]
    exact ⟨read, hs, hindex⟩
  · rw [hnext]
    refine ⟨read ++ [escape], ?_, ?_⟩
    · rw [hs, hrest, List.append_nil]
    · rw [hindex, List.length_append]
      rfl
  · rw [hnext]
    refine ⟨read ++ token.spell, ?_, ?_⟩
    · rw [hs, hrest, List.append_assoc]
    · rw [hindex, List.length_append, Token.length_spell]

/-- A reader stays in its text, whatever it has read. -/
theorem In.skip (h : reader.In s) (k : Nat) : (reader.skip k).In s := by
  induction k with
  | zero => exact h
  | succ k ih =>
      rw [skip_succ]
      exact ih.next

/-- The items **tile** the text: `readers k` is the reader after `k` calls, which returns item
number `k`. A token begins where the reader stands, and the next call begins where the token ends. -/
structure Tiles (s : List Char) (items : List Item) (readers : Nat → TokenReader) : Prop where
  /-- The first call begins with the first character. -/
  index_zero : (readers 0).index = 0
  /-- The calls return the items one after the other, and then nothing. -/
  next_eq : ∀ k, (readers k).next = (items[k]?, readers (k + 1))
  /-- A token is at the place of the reader, is spelled there, and is all that is used up. -/
  token : ∀ k placed, items[k]? = some (.ok placed) →
    placed.index = (readers k).index ∧
    (s.drop placed.index).take placed.token.width = placed.token.spell ∧
    (readers (k + 1)).index = placed.index + placed.token.width
  /-- After the last item the reader is at the end of the text, and stays there. -/
  at_end : ∀ k, items.length ≤ k → readers k = ⟨s.length, []⟩

/-- The items of an expression tile it. -/
theorem tiles_itemsOf (expression : String) :
    Tiles expression.toList (itemsOf expression) (ofExpression expression).skip := by
  have hstart : (ofExpression expression).In expression.toList := ⟨[], rfl, rfl⟩
  have hnext : ∀ k, ((ofExpression expression).skip k).next =
      ((itemsOf expression)[k]?, (ofExpression expression).skip (k + 1)) := next_skip _
  refine ⟨rfl, hnext, fun k placed hk => ?_, fun k hk => ?_⟩
  · obtain ⟨read, hs, hindex⟩ := hstart.skip k
    have hread := hnext k
    rw [hk] at hread
    rcases next_cases ((ofExpression expression).skip k) with
      ⟨-, hnone⟩ | ⟨-, herror⟩ | ⟨token, rest, hrest, hok⟩
    · cases hnone.symm.trans hread
    · cases herror.symm.trans hread
    · obtain ⟨hplaced, hafter⟩ := Prod.mk.inj (hok.symm.trans hread)
      cases hplaced
      refine ⟨rfl, ?_, ?_⟩
      · rw [hindex, hs, List.drop_left, hrest, List.take_left' (Token.length_spell token)]
      · rw [← hafter]
  · obtain ⟨read, hs, hindex⟩ := hstart.skip k
    have hread := hnext k
    rw [List.getElem?_eq_none hk] at hread
    rcases next_cases ((ofExpression expression).skip k) with
      ⟨hrest, -⟩ | ⟨-, herror⟩ | ⟨token, rest, -, hok⟩
    · have hlength : expression.toList.length = read.length := by
        rw [hs, hrest, List.append_nil]
      rw [hlength, ← hindex, ← hrest]
    · cases herror.symm.trans hread
    · cases hok.symm.trans hread

/-- The items of an expression are the tokens that spell it, and a fault at its end if it ends with
an escape character that escapes nothing. -/
theorem exists_itemsOf_eq (expression : String) :
    ∃ tokens : List Token, (∀ token ∈ tokens, token.Readable) ∧
      (expression.toList = tokens.flatMap Token.spell ∧
          itemsOf expression = (placeFrom 0 tokens).map .ok ∨
        expression.toList = tokens.flatMap Token.spell ++ [escape] ∧
          itemsOf expression = (placeFrom 0 tokens).map .ok ++
            [.error (.danglingEscape (tokens.flatMap Token.spell).length)]) := by
  obtain ⟨tokens, hreadable, htext⟩ := exists_readable_spelling expression.toList
  have hread := toList_readAll_flatMap_spell hreadable 0
  refine ⟨tokens, hreadable, htext.imp (fun h => ⟨h, ?_⟩) fun h => ⟨h, ?_⟩⟩
  · have hall := hread []
    rw [toList_readAll_of_next_none (next_nil _), List.append_nil, List.append_nil, ← h] at hall
    exact hall
  · have hall := hread [escape]
    rw [toList_readAll_of_next_some (next_escape _), toList_readAll_of_next_none (next_nil _),
      Nat.zero_add, ← h] at hall
    exact hall

/-- Readable tokens spelled one after the other are read back in their places. -/
theorem itemsOf_ofList {tokens : List Token} (h : ∀ token ∈ tokens, token.Readable) :
    itemsOf (String.ofList (tokens.flatMap Token.spell)) = (placeFrom 0 tokens).map .ok := by
  have hall := toList_readAll_flatMap_spell h 0 []
  rw [toList_readAll_of_next_none (next_nil _), List.append_nil, List.append_nil] at hall
  rw [itemsOf, ofExpression, String.toList_ofList]
  exact hall

/-- **Reading undoes spelling.** The items of an expression tile it. They are tokens, whose
spellings one after the other are the expression, unless it ends with an odd number of escape
characters: then the last item is the fault of the last of them, and it is missing from the
spellings. Conversely, what readable tokens spell is read as these tokens. -/
theorem itemsOf_spelling :
    (∀ expression : String,
      Tiles expression.toList (itemsOf expression) (ofExpression expression).skip ∧
      (∃ tokens : List PlacedToken,
        itemsOf expression = tokens.map .ok ∧
          expression.toList = tokens.flatMap (·.token.spell) ∨
        itemsOf expression =
            tokens.map .ok ++ [.error (.danglingEscape (expression.toList.length - 1))] ∧
          expression.toList = tokens.flatMap (·.token.spell) ++ [escape]) ∧
      ((∃ cause, .error cause ∈ itemsOf expression) ↔
        trailingEscapes expression.toList % 2 = 1)) ∧
    ∀ tokens : List Token, (∀ token ∈ tokens, token.Readable) →
      ∃ placed : List PlacedToken,
        itemsOf (String.ofList (tokens.flatMap Token.spell)) = placed.map .ok ∧
        placed.map (·.token) = tokens := by
  refine ⟨fun expression => ⟨tiles_itemsOf expression, ?_⟩, fun tokens h => ?_⟩
  · obtain ⟨tokens, hreadable, hitems⟩ := exists_itemsOf_eq expression
    have hspell : (placeFrom 0 tokens).flatMap (·.token.spell) = tokens.flatMap Token.spell := by
      rw [← List.flatMap_map, map_token_placeFrom]
    have heven := trailingEscapes_flatMap_spell hreadable
    rcases hitems with ⟨htext, hitems⟩ | ⟨htext, hitems⟩
    · refine ⟨⟨placeFrom 0 tokens, .inl ⟨hitems, by rw [htext, hspell]⟩⟩, ?_⟩
      refine iff_of_false ?_ (by rw [htext]; omega)
      rintro ⟨cause, hcause⟩
      rw [hitems] at hcause
      obtain ⟨placed, -, hplaced⟩ := List.mem_map.mp hcause
      cases hplaced
    · have hlength : expression.toList.length - 1 = (tokens.flatMap Token.spell).length := by
        rw [htext, List.length_append]
        rfl
      refine ⟨⟨placeFrom 0 tokens, .inr ⟨by rw [hitems, hlength], by rw [htext, hspell]⟩⟩, ?_⟩
      refine iff_of_true ?_ ?_
      · rw [hitems]
        exact ⟨_, List.mem_append_right _ List.mem_cons_self⟩
      · rw [htext, trailingEscapes_concat, if_pos rfl]
        omega
  · exact ⟨placeFrom 0 tokens, itemsOf_ofList h, map_token_placeFrom 0 tokens⟩

/-- The text `a\\\*` is read as three tokens, two of them escaped. With one more escape character at
its end, it has one that escapes nothing. -/
theorem itemsOf_spelling_escapes :
    (∃ placed : List PlacedToken, itemsOf "a\\\\\\*" = placed.map .ok ∧
      placed.map (·.token) = [.operand 'a', .escaped '\\', .escaped '*']) ∧
    ∃ cause, .error cause ∈ itemsOf "a\\\\\\*\\" := by
  have hreadable : ∀ token ∈ [Token.operand 'a', .escaped '\\', .escaped '*'], token.Readable := by
    simp [Token.Readable]
  have hread := itemsOf_spelling.2 _ hreadable
  have htext : String.ofList ([Token.operand 'a', .escaped '\\', .escaped '*'].flatMap
      Token.spell) = "a\\\\\\*" := rfl
  rw [htext] at hread
  exact ⟨hread, (itemsOf_spelling.1 "a\\\\\\*\\").2.2.mpr (by decide)⟩

end TokenReader

end RegexPositions
