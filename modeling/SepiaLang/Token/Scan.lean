import SepiaLang.Token.Basic
import SepiaLang.Token.Cursor

/-!
# Scanning

A source text is cut into tokens from left to right. Blanks and comments separate tokens and are
dropped. Names, numbers and operators are taken as long as possible. A string without a closing
quote ends with the text, and a character that belongs to no token is a token of its own, of kind
`illegal`.

* `Cursor.nextToken`: the token ahead; past the last one it is `eof` for ever.
* `scan`: all tokens of a text, `eof` included.
* `length_rest_nextToken_lt`: every token but `eof` takes something off the text, so `scan` ends.
-/

namespace SepiaLang

/-- The characters that are a token on their own. -/
def single? (c : Char) : Option Kind :=
  match c with
  | '(' => some .lparen
  | ')' => some .rparen
  | '{' => some .lbrace
  | '}' => some .rbrace
  | '[' => some .lbracket
  | ']' => some .rbracket
  | ',' => some .comma
  | ';' => some .semicolon
  | ':' => some .colon
  | _ => none

/-- The operators that start with a character: those with a second character, and what the character
is alone. -/
def compound? (c : Char) : Option (List (Char × Kind) × Kind) :=
  match c with
  | '+' => some ([('=', .plusEq), ('+', .increment)], .plus)
  | '-' => some ([('>', .openBlock), ('=', .minusEq), ('-', .decrement)], .minus)
  | '*' => some ([('=', .mulEq)], .asterisk)
  | '/' => some ([('=', .slashEq)], .slash)
  | '<' => some ([('=', .ltEq)], .lt)
  | '>' => some ([('=', .gtEq)], .gt)
  | '=' => some ([('=', .eq)], .assign)
  | '!' => some ([('=', .notEq)], .bang)
  | '|' => some ([('|', .or)], .illegal)
  | '&' => some ([('&', .and)], .illegal)
  | _ => none

namespace Cursor

/-- A token that starts at the cursor. -/
def token (c : Cursor) (kind : Kind) (literal : String) : Token :=
  { kind, literal, line := c.line, column := c.column }

/-- The operator ahead, with the cursor left on its last character. There is none where the
character under the cursor starts no operator. -/
def readOperator (c : Cursor) : Option (Token × Cursor) :=
  (compound? c.current).map fun (longer, alone) =>
    match longer.lookup c.peek with
    | some kind => (c.token kind (String.ofList [c.current, c.peek]), c.advance)
    | none => (c.token alone (String.singleton c.current), c)

/-- A string, a word, a number or a character that belongs to no token, told by the character `ch` at
the cursor. -/
def otherTokenAt (c : Cursor) (ch : Char) : Token × Cursor :=
  if ch = '"' then
    (c.token .string c.readString.1, c.readString.2.advance)
  else if isLetter ch then
    (c.token (.ofWord c.readWord.1) c.readWord.1, c.readWord.2)
  else if isDigit ch then
    (c.token .int c.readDigits.1, c.readDigits.2)
  else
    (c.token .illegal (String.singleton ch), c.advance)

/-- The token at the cursor, on the character `ch`, and the cursor after it. -/
def tokenAt (c : Cursor) (ch : Char) : Token × Cursor :=
  match single? ch, c.readOperator with
  | some kind, _ => (c.token kind (String.singleton ch), c.advance)
  | none, some (t, c') => (t, c'.advance)
  | none, none => c.otherTokenAt ch

/-- The next token and the cursor after it. At the end of the text it is `eof`, and the cursor
stays. -/
def nextToken (c : Cursor) : Token × Cursor :=
  match c.skipGap.rest with
  | [] => (c.skipGap.token .eof "", c.skipGap)
  | ch :: _ => c.skipGap.tokenAt ch

/-- A token takes at least one character. -/
theorem length_rest_tokenAt_lt (c : Cursor) (ch : Char) (tail : List Char)
    (h : c.rest = ch :: tail) : (c.tokenAt ch).2.rest.length < c.rest.length := by
  have moved (n : Nat) (hn : 0 < n) : (c.advanceBy n).rest.length < c.rest.length := by
    rw [rest_advanceBy, List.length_drop, h, List.length_cons]
    omega
  have run (p : Char → Bool) (hp : p ch = true) :
      (c.readWhile p).2.rest.length < c.rest.length :=
    moved _ (by rw [h, List.takeWhile_cons_of_pos hp]; exact Nat.succ_pos _)
  have twice : (c.advanceBy 2).rest.length < c.rest.length := moved 2 (by decide)
  unfold tokenAt
  split
  · exact moved 1 (by decide)
  · rename_i t c' _ hop
    simp only [readOperator, Option.map_eq_some_iff] at hop
    obtain ⟨⟨longer, alone⟩, _, hop⟩ := hop
    split at hop
    · cases hop
      exact twice
    · cases hop
      exact moved 1 (by decide)
  · unfold otherTokenAt
    split
    · refine Nat.lt_of_le_of_lt ?_ (moved (c.rest.tail.takeWhile (· != '"')).length.succ
        (Nat.succ_pos _))
      rw [rest_advance, List.length_tail]
      exact Nat.sub_le _ _
    · split
      · exact run _ (by assumption)
      · split
        · exact run _ (by assumption)
        · exact moved 1 (by decide)

/-- Every token but the last takes something off the text. -/
theorem length_rest_nextToken_lt (c : Cursor) (h : c.nextToken.1.kind ≠ .eof) :
    c.nextToken.2.rest.length < c.rest.length := by
  have gap : c.skipGap.rest.length ≤ c.rest.length := by simp [skipGap]
  revert h
  unfold nextToken
  split
  · exact fun h => absurd rfl h
  · next ch tail hrest =>
    exact fun _ => Nat.lt_of_lt_of_le (length_rest_tokenAt_lt _ ch tail hrest) gap

/-- The tokens ahead up to the first `eof`. -/
def tokens (c : Cursor) : List Token :=
  if c.nextToken.1.kind = .eof then [c.nextToken.1]
  else c.nextToken.1 :: c.nextToken.2.tokens
termination_by c.rest.length
decreasing_by exact length_rest_nextToken_lt c (by assumption)

end Cursor

/-- The tokens of a source text, ending with `eof`. -/
def scan (source : String) : List Token := (Cursor.start source.toList).tokens

end SepiaLang
