import SepiaLang.Assoc
import SepiaLang.Json.Basic
import SepiaLang.Text.Numeral

/-!
# Reading JSON

A value is read from left to right, and the first character that cannot be part of one is reported.
Beyond the format itself, `NaN` and the infinities are read as numbers. Of fields with the same name
the last one counts, in the place of the first. Arrays and objects may be nested to a limit only.

* `Json.readWithin`, `Json.read`: the value that a text writes, or where and why there is none.
* `JsonError.message`: the wording, with the place in the text.
-/

namespace SepiaLang

/-- What a text lacks to be JSON. -/
inductive JsonFault where
  | value
  | propertyName
  | colon
  | comma
  | extraData
  | openString
  | controlCharacter
  | badEscape
  | badUnicodeEscape
  | byteOrderMark
  deriving DecidableEq, Repr

/-- The words for a fault. -/
def JsonFault.words : JsonFault → String
  | value => "Expecting value"
  | propertyName => "Expecting property name enclosed in double quotes"
  | colon => "Expecting ':' delimiter"
  | comma => "Expecting ',' delimiter"
  | extraData => "Extra data"
  | openString => "Unterminated string starting at"
  | controlCharacter => "Invalid control character at"
  | badEscape => "Invalid \\escape"
  | badUnicodeEscape => "Invalid \\uXXXX escape"
  | byteOrderMark => "Unexpected UTF-8 BOM (decode using utf-8-sig)"

/-- What holds other values. -/
inductive JsonContainer where
  | array
  | object
  deriving DecidableEq, Repr

/-- The name of a sort of container. -/
def JsonContainer.name : JsonContainer → String
  | array => "array"
  | object => "object"

/-- Why a text is no JSON value that can be read: it does not have the form, seen at a position, an
integer has too many digits, or a container is nested too deeply in others. -/
inductive JsonError where
  | malformed (fault : JsonFault) (position : Nat)
  | longInteger (digits : Nat)
  | tooDeep (container : JsonContainer)
  deriving DecidableEq, Repr

/-- The wording for numerals with too many digits. -/
def longIntegerMessage (digits : Nat) : String :=
  "Exceeds the limit (" ++ toString Text.maxDigits ++
    " digits) for integer string conversion: value has " ++ toString digits ++
    " digits; use sys.set_int_max_str_digits() to increase the limit"

/-- The wording for containers that are nested too deeply. -/
def deepContainerMessage (container : JsonContainer) : String :=
  "maximum recursion depth exceeded while decoding a JSON " ++ container.name ++
    " from a unicode string"

/-- The line and the column of a position in a text, counted from one. -/
def lineAndColumn (text : List Char) (position : Nat) : Nat × Nat :=
  let before := text.take position
  (before.count '\n' + 1, (before.reverse.takeWhile (· != '\n')).length + 1)

/-- The wording of an error in a text. -/
def JsonError.message (text : List Char) : JsonError → String
  | malformed fault position =>
    let (line, column) := lineAndColumn text position
    fault.words ++ ": line " ++ toString line ++ " column " ++ toString column ++ " (char " ++
      toString position ++ ")"
  | longInteger digits => longIntegerMessage digits
  | tooDeep container => deepContainerMessage container

namespace Json

/-- A place in a text: what is ahead, and how many characters lie before it. -/
structure Place where
  rest : List Char
  position : Nat
  deriving Repr

namespace Place

/-- So many characters further on. -/
def skip (p : Place) (n : Nat) : Place := { rest := p.rest.drop n, position := p.position + n }

/-- Over the blanks ahead. -/
def skipBlanks (p : Place) : Place :=
  p.skip (p.rest.takeWhile fun c => c == ' ' || c == '\t' || c == '\n' || c == '\r').length

/-- What is wrong here. -/
def fault {α : Type} (p : Place) (f : JsonFault) : Except JsonError α :=
  .error (.malformed f p.position)

end Place

/-! ## Strings -/

/-- The value of a hexadecimal digit. -/
def hexDigit? (c : Char) : Option Nat :=
  if '0' ≤ c ∧ c ≤ '9' then some (c.toNat - '0'.toNat)
  else if 'a' ≤ c ∧ c ≤ 'f' then some (c.toNat - 'a'.toNat + 10)
  else if 'A' ≤ c ∧ c ≤ 'F' then some (c.toNat - 'A'.toNat + 10)
  else none

/-- The number that four hexadecimal digits write, if they are there and more text follows. -/
def hex4? : List Char → Option Nat
  | a :: b :: c :: d :: _ :: _ => do
    let a ← hexDigit? a
    let b ← hexDigit? b
    let c ← hexDigit? c
    let d ← hexDigit? d
    return ((a * 16 + b) * 16 + c) * 16 + d
  | _ => none

/-- The second half of a pair of surrogates, which starts with a backslash. -/
def lowSurrogate? : List Char → Option Nat
  | '\\' :: 'u' :: digits => do
    let n ← hex4? digits
    if 0xDC00 ≤ n ∧ n ≤ 0xDFFF then some n else none
  | _ => none

/-- The character that a letter after a backslash stands for. -/
def shortEscape? (c : Char) : Option Char :=
  match c with
  | '"' | '\\' | '/' => some c
  | 'b' => some (Char.ofNat 8)
  | 'f' => some (Char.ofNat 12)
  | 'n' => some '\n'
  | 'r' => some '\r'
  | 't' => some '\t'
  | _ => none

/-- A character by its number. Halves of pairs that stand alone are no characters and are replaced.
-/
def charOfNumber (n : Nat) : Char :=
  if 0xD800 ≤ n ∧ n ≤ 0xDFFF then Char.ofNat 0xFFFD else Char.ofNat n

/-- The rest of a string that began at position `start`, after the characters `before`, latest
first. -/
def stringFrom (start : Nat) : Nat → List Char → Place → Except JsonError (String × Place)
  | 0, _, _ => .error (.malformed .openString start)
  | n + 1, before, p =>
    match p.rest with
    | [] => .error (.malformed .openString start)
    | '"' :: _ => .ok (String.ofList before.reverse, p.skip 1)
    | '\\' :: [] => .error (.malformed .openString start)
    | '\\' :: 'u' :: digits =>
      match hex4? digits with
      | none => (p.skip 1).fault .badUnicodeEscape
      | some high =>
        match if 0xD800 ≤ high ∧ high ≤ 0xDBFF then lowSurrogate? (digits.drop 4) else none with
        | some low =>
          let c := Char.ofNat (0x10000 + (high - 0xD800) * 0x400 + (low - 0xDC00))
          stringFrom start n (c :: before) (p.skip 12)
        | none => stringFrom start n (charOfNumber high :: before) (p.skip 6)
    | '\\' :: c :: _ =>
      match shortEscape? c with
      | some c' => stringFrom start n (c' :: before) (p.skip 2)
      | none => p.fault .badEscape
    | c :: _ =>
      if c.toNat < 0x20 then p.fault .controlCharacter
      else stringFrom start n (c :: before) (p.skip 1)

/-- A string, from its opening quote. The bound is on its length. -/
def string? (bound : Nat) (p : Place) : Except JsonError (String × Place) :=
  stringFrom p.position bound [] (p.skip 1)

/-! ## Numbers -/

/-- A digit of a number. -/
def isDecimal (c : Char) : Bool := '0' ≤ c && c ≤ '9'

/-- The value of a run of decimal digits. -/
def decimalValue (digits : List Char) : Nat :=
  Text.ofDigits (digits.map fun c => c.toNat - '0'.toNat)

/-- The digits before the point: a zero alone, or digits that do not start with one. -/
def wholePart (cs : List Char) : List Char :=
  match cs with
  | '0' :: _ => ['0']
  | cs => cs.takeWhile isDecimal

/-- The digits after the point, if there are any. -/
def fractionPart : List Char → List Char
  | '.' :: rest => rest.takeWhile isDecimal
  | _ => []

/-- The exponent, and how many characters it takes. -/
def exponentPart : List Char → Option (Int × Nat)
  | e :: '-' :: rest => exponentOf e rest fun n => (-(n : Int), 2)
  | e :: '+' :: rest => exponentOf e rest fun n => (n, 2)
  | e :: rest => exponentOf e rest fun n => (n, 1)
  | [] => none
where
  /-- The digits of an exponent after its mark `e` and its sign. -/
  exponentOf (e : Char) (rest : List Char) (f : Nat → Int × Nat) : Option (Int × Nat) :=
    let digits := rest.takeWhile isDecimal
    if (e == 'e' || e == 'E') && !digits.isEmpty then
      some ((f (decimalValue digits)).1, (f 0).2 + digits.length)
    else none

/-- A number without its sign, which takes `sign` characters. -/
def number? (negative : Bool) (p : Place) (sign : Nat) : Except JsonError (Json × Place) :=
  let body := p.rest.drop sign
  let whole := wholePart body
  let fraction := fractionPart (body.drop whole.length)
  let point := if fraction.isEmpty then 0 else fraction.length + 1
  let exponent := exponentPart (body.drop (whole.length + point))
  if whole.isEmpty then p.fault .value
  else
    match fraction, exponent with
    | [], none =>
      if Text.maxDigits < whole.length then .error (.longInteger whole.length)
      else
        .ok (.int (Binary64.withSign negative (decimalValue whole)), p.skip (sign + whole.length))
    | _, _ =>
      let (power, size) := exponent.getD (0, 0)
      let digits := decimalValue (whole ++ fraction)
      .ok (.float (Binary64.ofDecimal negative digits (power - fraction.length)),
        p.skip (sign + whole.length + point + size))

/-! ## Values -/

/-- The words that are values. -/
def words : List (List Char × Json) :=
  [("null".toList, .null), ("true".toList, .bool true), ("false".toList, .bool false),
   ("NaN".toList, .float .nan), ("Infinity".toList, .float (.infinite false)),
   ("-Infinity".toList, .float (.infinite true))]

/-- A word or a number. -/
def scalar? (p : Place) : Except JsonError (Json × Place) :=
  match words.find? fun (word, _) => word.isPrefixOf p.rest with
  | some (word, value) => .ok (value, p.skip word.length)
  | none =>
    match p.rest with
    | '-' :: _ => number? true p 1
    | _ => number? false p 0

mutual

/-- A value. The bound is on how far the reader goes in and along, and `room` says how many more
containers may be opened inside each other. -/
def value? : Nat → Nat → Place → Except JsonError (Json × Place)
  | 0, _, p => p.fault .value
  | n + 1, room, p =>
    match p.rest, room with
    | '"' :: _, _ =>
      match string? n p with
      | .ok (text, p') => .ok (.string text, p')
      | .error e => .error e
    | '[' :: _, 0 => .error (.tooDeep .array)
    | '[' :: _, room + 1 =>
      let p' := (p.skip 1).skipBlanks
      match p'.rest with
      | ']' :: _ => .ok (.array [], p'.skip 1)
      | _ => items? n room [] p'
    | '{' :: _, 0 => .error (.tooDeep .object)
    | '{' :: _, room + 1 =>
      let p' := (p.skip 1).skipBlanks
      match p'.rest with
      | '}' :: _ => .ok (.object [], p'.skip 1)
      | _ => fields? n room [] p'
    | _, _ => scalar? p

/-- The rest of an array, after the items `before`, latest first. -/
def items? : Nat → Nat → List Json → Place → Except JsonError (Json × Place)
  | 0, _, _, p => p.fault .value
  | n + 1, room, before, p =>
    match value? n room p with
    | .error e => .error e
    | .ok (item, p) =>
      let p := p.skipBlanks
      match p.rest with
      | ']' :: _ => .ok (.array (item :: before).reverse, p.skip 1)
      | ',' :: _ => items? n room (item :: before) (p.skip 1).skipBlanks
      | _ => p.fault .comma

/-- The rest of an object, after the fields `before`. -/
def fields? : Nat → Nat → List (String × Json) → Place → Except JsonError (Json × Place)
  | 0, _, _, p => p.fault .propertyName
  | n + 1, room, before, p =>
    match p.rest with
    | '"' :: _ =>
      match string? n p with
      | .error e => .error e
      | .ok (name, p) =>
        let p := p.skipBlanks
        match p.rest with
        | ':' :: _ =>
          match value? n room (p.skip 1).skipBlanks with
          | .error e => .error e
          | .ok (value, p) =>
            let p := p.skipBlanks
            let fields := Assoc.put (·.1 == name) (name, value) before
            match p.rest with
            | '}' :: _ => .ok (.object fields, p.skip 1)
            | ',' :: _ => fields? n room fields (p.skip 1).skipBlanks
            | _ => p.fault .comma
        | _ => p.fault .colon
    | _ => p.fault .propertyName

end

/-- The value that a text writes with at most `room` containers inside each other. -/
def readWithin (room : Nat) (text : List Char) : Except JsonError Json :=
  let start : Place := { rest := text, position := 0 }
  if text.head? = some (Char.ofNat 0xFEFF) then start.fault .byteOrderMark
  else
    match value? (2 * text.length + 2) room start.skipBlanks with
    | .error e => .error e
    | .ok (value, p) =>
      let p := p.skipBlanks
      if p.rest.isEmpty then .ok value else p.fault .extraData

/-- How deeply containers may be nested. -/
def nestingLimit : Nat := 950

/-- The value that a text writes. -/
def read (text : List Char) : Except JsonError Json := readWithin nestingLimit text

end Json

end SepiaLang
