import SepiaLang.Text.Printable

/-!
# Quoted text

How a text is shown inside a message so that it can be told apart from the words around it: between
quotes, with everything that cannot be seen written by its number.

* `quoted`: the whole text. Apostrophes stand around it, unless it holds an apostrophe and no double
  quote.
* `escaped`: one character inside given quotes.
* `hexPadded`: a number in hexadecimal, filled up with zeros.
-/

namespace SepiaLang.Text

/-- The character `U+0027`. -/
def apostrophe : Char := Char.ofNat 39

/-- At least `width` hexadecimal digits, in lower case. -/
def hexPadded (width n : Nat) : List Char :=
  let digits := Nat.toDigits 16 n
  List.replicate (width - digits.length) '0' ++ digits

/-- A character by its number, in the shortest of the three forms that holds it. -/
def byNumber (c : Char) : List Char :=
  if c.toNat < 0x100 then '\\' :: 'x' :: hexPadded 2 c.toNat
  else if c.toNat < 0x10000 then '\\' :: 'u' :: hexPadded 4 c.toNat
  else '\\' :: 'U' :: hexPadded 8 c.toNat

/-- A character between two marks `mark`: the mark and the backslash are escaped, line breaks and
tabs have letters of their own, and what is not printable is written by its number. -/
def escaped (mark c : Char) : List Char :=
  if c = mark ∨ c = '\\' then ['\\', c]
  else if c = '\n' then ['\\', 'n']
  else if c = '\r' then ['\\', 'r']
  else if c = '\t' then ['\\', 't']
  else if isPrintable c then [c]
  else byNumber c

/-- The quotes that stand around a text. -/
def markFor (text : List Char) : Char :=
  if apostrophe ∈ text ∧ '"' ∉ text then '"' else apostrophe

/-- A text between quotes. -/
def quoted (text : String) : String :=
  let mark := markFor text.toList
  String.ofList (mark :: text.toList.flatMap (escaped mark) ++ [mark])

end SepiaLang.Text
