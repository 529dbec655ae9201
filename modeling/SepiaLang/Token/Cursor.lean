/-!
# Cursors

A cursor stands on a character of a source text and knows the line and the column of that character.
It may also stand past the end, where it reads the character `nul`, and go on counting columns
there.

* `Cursor.advance`, `Cursor.advanceBy`: one or more steps forward.
* `gapLength`, `Cursor.skipGap`: over the blanks and the comments before the next piece of text.
* `Cursor.readWord`, `Cursor.readDigits`, `Cursor.readString`: the longest piece of its class.
* `rest_advanceBy`, `position_advanceBy`: what steps do to the text ahead and to the position.
-/

namespace SepiaLang

/-- What a cursor reads past the end of the text. -/
def nul : Char := Char.ofNat 0

/-- A blank of the source language. -/
def isLayout (c : Char) : Bool := c == ' ' || c == '\t' || c == '\r' || c == '\n'

/-- A character that names are made of. -/
def isLetter (c : Char) : Bool :=
  ('a' ≤ c && c ≤ 'z') || ('A' ≤ c && c ≤ 'Z') || c == '_'

/-- A character that numbers are made of. -/
def isDigit (c : Char) : Bool := '0' ≤ c && c ≤ '9'

/-- A character inside a comment. A comment ends before a line feed, and before `nul`, which stands
for the end of the text. -/
def inComment (c : Char) : Bool := c != '\n' && c != nul

/-- A place in a source text: the text from there on, how many characters lie before it, and its
line and column. -/
structure Cursor where
  rest : List Char
  position : Nat := 0
  line : Nat := 1
  column : Nat := 1
  deriving DecidableEq, Repr

namespace Cursor

/-- The start of a text. -/
def start (source : List Char) : Cursor := { rest := source }

/-- The character under the cursor. -/
def current (c : Cursor) : Char := c.rest.headD nul

/-- The character after the one under the cursor. -/
def peek (c : Cursor) : Char := c.rest.tail.headD nul

/-- One step forward. The step over a line feed leads to the first column of the next line. -/
def advance (c : Cursor) : Cursor :=
  if c.current = '\n' then
    { rest := c.rest.tail, position := c.position + 1, line := c.line + 1, column := 1 }
  else
    { rest := c.rest.tail, position := c.position + 1, line := c.line, column := c.column + 1 }

/-- Several steps forward. -/
def advanceBy (c : Cursor) : Nat → Cursor
  | 0 => c
  | n + 1 => c.advance.advanceBy n

@[simp]
theorem rest_advance (c : Cursor) : c.advance.rest = c.rest.tail := by
  unfold advance; split <;> rfl

@[simp]
theorem position_advance (c : Cursor) : c.advance.position = c.position + 1 := by
  unfold advance; split <;> rfl

@[simp]
theorem rest_advanceBy (c : Cursor) (n : Nat) : (c.advanceBy n).rest = c.rest.drop n := by
  induction n generalizing c with
  | zero => rfl
  | succ n ih => simp [advanceBy, ih]

@[simp]
theorem position_advanceBy (c : Cursor) (n : Nat) :
    (c.advanceBy n).position = c.position + n := by
  induction n generalizing c with
  | zero => rfl
  | succ n ih => simp [advanceBy, ih]; omega

/-- Over the blanks ahead. -/
def skipLayout (c : Cursor) : Cursor := c.advanceBy (c.rest.takeWhile isLayout).length

/-- To the end of the comment ahead. -/
def skipComment (c : Cursor) : Cursor := c.advanceBy (c.rest.takeWhile inComment).length

/-- The characters of a class ahead, and the cursor after them. -/
def readWhile (p : Char → Bool) (c : Cursor) : String × Cursor :=
  let run := c.rest.takeWhile p
  (String.ofList run, c.advanceBy run.length)

/-- The letters ahead. -/
def readWord (c : Cursor) : String × Cursor := c.readWhile isLetter

/-- The digits ahead. -/
def readDigits (c : Cursor) : String × Cursor := c.readWhile isDigit

/-- The text after the character under the cursor up to the next double quote or the end. The cursor
is left on that quote, or past the end. -/
def readString (c : Cursor) : String × Cursor :=
  let run := c.rest.tail.takeWhile (· != '"')
  (String.ofList run, c.advanceBy (run.length + 1))

end Cursor

/-- How many characters of blanks and comments a text starts with; with `comment` set, the text
starts inside a comment. -/
def gapLength (comment : Bool) : List Char → Nat
  | [] => 0
  | c :: rest =>
    if comment then
      if c = '\n' then gapLength false rest + 1
      else if inComment c then gapLength true rest + 1
      else 0
    else if isLayout c then gapLength false rest + 1
    else if c = '#' then gapLength true rest + 1
    else 0

/-- Over the blanks and comments ahead. -/
def Cursor.skipGap (c : Cursor) : Cursor := c.advanceBy (gapLength false c.rest)

end SepiaLang
