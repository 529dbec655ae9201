/-!
# Integers written in decimal

An integer is written as an optional sign and digits of any script, with single underscores between
them where they help the eye, and blanks around the whole. Numerals of more than `maxDigits` digits
are refused, leading zeros counted.

The blanks are the characters of the Unicode property `White_Space` and the four separators `U+001C`
to `U+001F`. Every script with decimal digits has them in ten consecutive code points, from zero to
nine; the zeros are listed here in increasing order, after version 14.0 of the Unicode character data.

* `isBlank`, `strip`: the blanks, and a text without those at its two ends.
* `digit?`: the value of a decimal digit of any script.
* `ofDigits`: the value of a list of digits.
* `readInt`: the integer that a text writes, or why there is none.
-/

namespace SepiaLang.Text

/-! ## White space -/

/-- The four characters `U+001C` to `U+001F`, which separate files, groups, records and units. -/
def isSeparator (c : Char) : Bool := 0x1C ≤ c.toNat && c.toNat ≤ 0x1F

/-- White space. -/
def isBlank (c : Char) : Bool :=
  let n := c.toNat
  (9 ≤ n && n ≤ 13) || isSeparator c || n == 0x20 || n == 0x85 || n == 0xA0 || n == 0x1680 ||
    (0x2000 ≤ n && n ≤ 0x200A) || n == 0x2028 || n == 0x2029 || n == 0x202F || n == 0x205F ||
    n == 0x3000

/-- The list without the elements at its end that satisfy `p`. -/
def dropWhileEnd {α : Type} (p : α → Bool) (l : List α) : List α :=
  (l.reverse.dropWhile p).reverse

/-- The text without the blanks at its two ends. -/
def strip (text : String) : String :=
  String.ofList (dropWhileEnd isBlank (text.toList.dropWhile isBlank))

/-! ## Decimal digits -/

/-- The code points of the digit zero. -/
def zeros : List Nat :=
  [0x30, 0x660, 0x6F0, 0x7C0, 0x966, 0x9E6, 0xA66, 0xAE6, 0xB66, 0xBE6, 0xC66, 0xCE6, 0xD66, 0xDE6,
   0xE50, 0xED0, 0xF20, 0x1040, 0x1090, 0x17E0, 0x1810, 0x1946, 0x19D0, 0x1A80, 0x1A90, 0x1B50,
   0x1BB0, 0x1C40, 0x1C50, 0xA620, 0xA8D0, 0xA900, 0xA9D0, 0xA9F0, 0xAA50, 0xABF0, 0xFF10, 0x104A0,
   0x10D30, 0x11066, 0x110F0, 0x11136, 0x111D0, 0x112F0, 0x11450, 0x114D0, 0x11650, 0x116C0,
   0x11730, 0x118E0, 0x11950, 0x11C50, 0x11D50, 0x11DA0, 0x16A60, 0x16AC0, 0x16B50, 0x1D7CE,
   0x1D7D8, 0x1D7E2, 0x1D7EC, 0x1D7F6, 0x1E140, 0x1E2F0, 0x1E950, 0x1FBF0]

/-- The value of a decimal digit of any script. -/
def digit? (c : Char) : Option Nat :=
  (zeros.find? fun z => z ≤ c.toNat && c.toNat < z + 10).map (c.toNat - ·)

/-! ## Numerals -/

/-- Why a text writes no integer: it does not have the form of one, or it has more than `maxDigits`
digits. -/
inductive NumeralError where
  | malformed
  | tooLong (digits : Nat)
  deriving DecidableEq, Repr

/-- The largest number of digits that is read. -/
def maxDigits : Nat := 4300

/-- A blank that may stand around a numeral: the four separators may not. -/
def isPadding (c : Char) : Bool := isBlank c && !isSeparator c

/-- The character may occur in the run of digits of a numeral. -/
def isDigitOrMark (c : Char) : Bool := c == '_' || (digit? c).isSome

/-- The value of a list of digits, the most significant one first. -/
def ofDigits (digits : List Nat) : Nat := digits.foldl (fun n d => 10 * n + d) 0

/-- Reads a numeral without a sign. Every group of digits between underscores must hold a digit; the
length is judged before what follows the digits. -/
def readUnsigned (text : List Char) : Except NumeralError Nat :=
  let run := text.takeWhile isDigitOrMark
  let digits := run.filterMap digit?
  if (run.splitOnP (· == '_')).any List.isEmpty then .error .malformed
  else if maxDigits < digits.length then .error (.tooLong digits.length)
  else if (text.dropWhile isDigitOrMark).all isPadding then .ok (ofDigits digits)
  else .error .malformed

/-- The integer that a text writes. -/
def readInt (text : String) : Except NumeralError Int :=
  match text.toList.dropWhile isPadding with
  | '-' :: rest => (readUnsigned rest).map fun n => -(n : Int)
  | '+' :: rest => (readUnsigned rest).map fun n => (n : Int)
  | rest => (readUnsigned rest).map fun n => (n : Int)

end SepiaLang.Text
