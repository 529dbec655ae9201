import SepiaLang.Text.Quoted

/-!
# Text from bytes

A file is read as text in two steps. The first is the decoder of UTF-8, one byte at a time. Between
bytes it remembers the character under way: how many bytes it still needs and which of them may come
next. A text is refused at the first byte that no well-formed text can have there. Lines may end by a line feed, a carriage return or the two
together; the second step leaves line feeds alone.

* `decodeUtf8`: the characters of a list of bytes.
* `Utf8Error.message`: where and why a list of bytes was refused.
* `unixLines`: the text with a line feed for every line end.
-/

namespace SepiaLang.Text

/-- Why bytes are no text: a character cannot start with the byte, a character that was begun cannot
go on with it, or the bytes end inside a character. -/
inductive Utf8Fault where
  | badStart
  | badContinuation
  | truncated
  deriving DecidableEq, Repr

/-- The first fault of a list of bytes: its cause, the position of the first byte of the character
at fault, the number of bytes of it that were read, and that first byte. -/
structure Utf8Error where
  fault : Utf8Fault
  start : Nat
  length : Nat
  byte : UInt8
  deriving DecidableEq, Repr

/-- A character under way: where it starts, its first byte, the bits read so far, how many bytes it
still needs, and the bounds of the next one. With nothing needed, the decoder stands between
characters. -/
structure Pending where
  start : Nat := 0
  byte : UInt8 := 0
  bits : Nat := 0
  needed : Nat := 0
  low : Nat := 0x80
  high : Nat := 0xBF

/-- The character that a byte starts, at a position. The bounds of the second byte keep out forms
that are longer than needed, surrogates and what lies beyond the last code point. -/
def Pending.start? (position : Nat) (byte : UInt8) : Option Pending :=
  let b := byte.toNat
  if b < 0x80 then some { start := position, byte, bits := b, needed := 0 }
  else if 0xC2 ≤ b ∧ b ≤ 0xDF then some { start := position, byte, bits := b % 32, needed := 1 }
  else if 0xE0 ≤ b ∧ b ≤ 0xEF then
    some { start := position, byte, bits := b % 16, needed := 2
           low := if b = 0xE0 then 0xA0 else 0x80, high := if b = 0xED then 0x9F else 0xBF }
  else if 0xF0 ≤ b ∧ b ≤ 0xF4 then
    some { start := position, byte, bits := b % 8, needed := 3
           low := if b = 0xF0 then 0x90 else 0x80, high := if b = 0xF4 then 0x8F else 0xBF }
  else none

/-- Decodes the bytes from position `position` on, with the character `under` under way, after the
characters `before`, latest first. -/
def decodeFrom (position : Nat) (under : Pending) (before : List Char) :
    List UInt8 → Except Utf8Error (List Char)
  | [] =>
    if under.needed = 0 then .ok before.reverse
    else .error ⟨.truncated, under.start, position - under.start, under.byte⟩
  | byte :: rest =>
    if under.needed = 0 then
      match Pending.start? position byte with
      | none => .error ⟨.badStart, position, 1, byte⟩
      | some next =>
        if next.needed = 0 then decodeFrom (position + 1) {} (Char.ofNat next.bits :: before) rest
        else decodeFrom (position + 1) next before rest
    else if under.low ≤ byte.toNat ∧ byte.toNat ≤ under.high then
      let bits := under.bits * 64 + byte.toNat % 64
      if under.needed = 1 then decodeFrom (position + 1) {} (Char.ofNat bits :: before) rest
      else
        decodeFrom (position + 1)
          { under with bits, needed := under.needed - 1, low := 0x80, high := 0xBF } before rest
    else .error ⟨.badContinuation, under.start, position - under.start, under.byte⟩

/-- The characters that a list of bytes encodes. -/
def decodeUtf8 (bytes : List UInt8) : Except Utf8Error (List Char) := decodeFrom 0 {} [] bytes

/-- The words for a fault. -/
def Utf8Fault.words : Utf8Fault → String
  | .badStart => "invalid start byte"
  | .badContinuation => "invalid continuation byte"
  | .truncated => "unexpected end of data"

/-- The words for the first fault of a list of bytes. -/
def Utf8Error.message (e : Utf8Error) : String :=
  let place :=
    if e.length = 1 then
      "byte 0x" ++ String.ofList (hexPadded 2 e.byte.toNat) ++ " in position " ++ toString e.start
    else "bytes in position " ++ toString e.start ++ "-" ++ toString (e.start + e.length - 1)
  "'utf-8' codec can't decode " ++ place ++ ": " ++ e.fault.words

/-- The text with a line feed for every line end, where a carriage return with a line feed after it
counts as one. -/
def unixLines : List Char → List Char
  | [] => []
  | '\r' :: '\n' :: rest => '\n' :: unixLines rest
  | c :: rest => (if c = '\r' then '\n' else c) :: unixLines rest

end SepiaLang.Text
