import SepiaLang.Json.Reader
import SepiaLang.Syntax.Basic

/-!
# Trees from JSON

The tree that a JSON value stands for. The reader is forgiving: it takes fields in any order,
ignores those it does not know, takes any node in any place, reads numbers from texts, takes any
value for a truth value, and keeps whatever stands for a name, an operator or the content of a
string. The first thing that it cannot take is reported.

* `DecodeError`: what it cannot take, with `DecodeError.message`.
* **`Json.decode`**: the tree of a value.
* `Node.ofJson`: the same with texts for its texts.
-/

namespace SepiaLang

/-- Why a JSON value stands for no tree. Where a value has the wrong sort, the sort is given: a
field that must hold a list (`notList`), the entry of a map, which must be a pair (`notPair`, or
`tooFew` and `tooMany` for its parts), and an integer (`notNumber`). An integer may also be a text
that is no numeral or has too many digits, no number at all or an infinity. -/
inductive DecodeError where
  | notObject
  | unknownForm (text : String)
  | missing (field : String)
  | notList (sort : String)
  | notPair (sort : String)
  | tooFew (parts : Nat)
  | tooMany
  | notNumber (sort : String)
  | badNumeral (text : String)
  | longInteger (digits : Nat)
  | nanInteger
  | infiniteInteger
  deriving DecidableEq, Repr

/-- The quoted text inside a message, of which at most 200 characters are shown. -/
def shortQuoted (text : String) : String := String.ofList ((Text.quoted text).toList.take 200)

/-- The wording of an error. -/
def DecodeError.message : DecodeError → String
  | notObject => "Invalid AST object"
  | unknownForm text => "Unknown AST node type: " ++ text
  | missing field => Text.quoted field
  | notList sort => "'" ++ sort ++ "' object is not iterable"
  | notPair sort => "cannot unpack non-iterable " ++ sort ++ " object"
  | tooFew parts => "not enough values to unpack (expected 2, got " ++ toString parts ++ ")"
  | tooMany => "too many values to unpack (expected 2)"
  | notNumber sort =>
    "int() argument must be a string, a bytes-like object or a real number, not '" ++ sort ++ "'"
  | badNumeral text => "invalid literal for int() with base 10: " ++ shortQuoted text
  | longInteger digits => longIntegerMessage digits
  | nanInteger => "cannot convert float NaN to integer"
  | infiniteInteger => "cannot convert float infinity to integer"

namespace Decode

/-- What is decoded, or why not. -/
abbrev Result (α : Type) := Except DecodeError α

/-! ## Fields -/

/-- A field with a bound on its size. -/
abbrev Field (fields : List (String × Json)) := { j : Json // sizeOf j < sizeOf fields }

/-- The field of a given name, if there is one. -/
def field? (name : String) : (fields : List (String × Json)) → Option (Field fields)
  | [] => none
  | (key, value) :: rest =>
    if key = name then some ⟨value, by simp; omega⟩
    else (field? name rest).map fun ⟨j, h⟩ => ⟨j, by simp; omega⟩

/-- The field of a given name. -/
def field (name : String) (fields : List (String × Json)) : Result (Field fields) :=
  match field? name fields with
  | some f => .ok f
  | none => .error (.missing name)

/-- The field of a given name as it is, whatever stands there for a text. -/
def text (name : String) (fields : List (String × Json)) : Result Json :=
  (field name fields).map (·.val)

/-- The name of the sort of node that the field `type` gives. -/
def formOf (fields : List (String × Json)) : Json := ((field? "type" fields).map (·.val)).getD .null

/-! ## Parts that hold no nodes -/

/-- An integer, from a number, a truth value or a text. -/
def integer : Json → Result Int
  | .int n => .ok n
  | .bool b => .ok (if b then 1 else 0)
  | .float (.finite negative mantissa exponent) =>
    .ok (Binary64.truncate negative mantissa exponent)
  | .float (.infinite _) => .error .infiniteInteger
  | .float .nan => .error .nanInteger
  | .string s =>
    match Text.readInt s with
    | .ok n => .ok n
    | .error .malformed => .error (.badNumeral s)
    | .error (.tooLong digits) => .error (.longInteger digits)
  | j => .error (.notNumber j.sort)

/-- The parameters of a function, as they are. A text gives its characters, and an object the names
of its fields. -/
def parameters : Json → Result (List (Ident Unit Json))
  | .array items => .ok (items.map fun j => { text := j, note := () })
  | .string s => .ok (s.toList.map fun c => { text := .string (String.singleton c), note := () })
  | .object fields => .ok (fields.map fun (name, _) => { text := .string name, note := () })
  | j => .error (.notList j.sort)

/-- What is wrong with so many texts in the place of a key and a value: there are not two of them,
or they are no nodes. -/
def textPair (parts : Nat) : DecodeError :=
  if parts = 2 then .notObject else if parts < 2 then .tooFew parts else .tooMany

/-! ## Nodes -/

mutual

/-- The tree of a JSON value. -/
def node : Json → Result (Node Unit Json)
  | .null => .ok .absent
  | .object fields => do
    match formOf fields with
    | .string "Program" => return .program (← nodes (← field "statements" fields).1)
    | .string "ExpressionStatement" =>
      return .expressionStmt () (← node (← field "expression" fields).1)
    | .string "ValueStatement" =>
      let name ← text "name" fields
      return .valueStmt () { text := name, note := () } (← node (← field "value" fields).1)
    | .string "UpdateStatement" =>
      let name ← text "name" fields
      return .updateStmt () { text := name, note := () } (← node (← field "value" fields).1)
    | .string "ReturnStatement" => return .returnStmt () (← node (← field "value" fields).1)
    | .string "BlockStatement" => return .block () (← nodes (← field "statements" fields).1)
    | .string "IntegerLiteral" => return .integer () (← integer (← field "value" fields).1)
    | .string "BooleanLiteral" => return .boolean () (← field "value" fields).1.truthy
    | .string "StringLiteral" => return .string () (← text "value" fields)
    | .string "Identifier" => return .identifier () (← text "value" fields)
    | .string "PrefixExpression" =>
      let op ← text "operator" fields
      return .unary () op (← node (← field "right" fields).1)
    | .string "InfixExpression" =>
      let op ← text "operator" fields
      let left ← node (← field "left" fields).1
      let right ← node (← field "right" fields).1
      return .binary () op left right
    | .string "IfExpression" =>
      let condition ← node (← field "condition" fields).1
      let consequence ← node (← field "consequence" fields).1
      match field? "alternative" fields with
      | some ⟨j, _⟩ => return .conditional () condition consequence (← node j)
      | none => return .conditional () condition consequence .absent
    | .string "FunctionLiteral" =>
      let ps ← parameters (← field "parameters" fields).1
      return .function () ps (← node (← field "body" fields).1)
    | .string "CallExpression" =>
      let f ← node (← field "function" fields).1
      return .call () f (← nodes (← field "arguments" fields).1)
    | .string "ArrayLiteral" => return .array () (← nodes (← field "elements" fields).1)
    | .string "IndexExpression" =>
      let left ← node (← field "left" fields).1
      return .index () left (← node (← field "index" fields).1)
    | .string "MapLiteral" => return .map () (← pairs (← field "pairs" fields).1)
    | form => .error (.unknownForm form.describe)
  | _ => .error .notObject

/-- The trees of a list. Texts and objects are lists of texts, which are no nodes. -/
def nodes : Json → Result (List (Node Unit Json))
  | .array items => nodesOf items
  | .string s => if s = "" then .ok [] else .error .notObject
  | .object fields => if fields.isEmpty then .ok [] else .error .notObject
  | j => .error (.notList j.sort)

/-- The trees of some JSON values. -/
def nodesOf : List Json → Result (List (Node Unit Json))
  | [] => .ok []
  | j :: rest => do
    let n ← node j
    return n :: (← nodesOf rest)

/-- The entries of a map literal. -/
def pairs : Json → Result (List (Node Unit Json × Node Unit Json))
  | .array items => pairsOf items
  | .string s => if s = "" then .ok [] else .error (textPair 1)
  | .object [] => .ok []
  | .object ((name, _) :: _) => .error (textPair name.length)
  | j => .error (.notList j.sort)

/-- The entries that some JSON values give. -/
def pairsOf : List Json → Result (List (Node Unit Json × Node Unit Json))
  | [] => .ok []
  | j :: rest => do
    let p ← pair j
    return p :: (← pairsOf rest)

/-- An entry of a map literal. -/
def pair : Json → Result (Node Unit Json × Node Unit Json)
  | .array [k, v] => do
    let key ← node k
    return (key, ← node v)
  | .array items => .error (if items.length < 2 then .tooFew items.length else .tooMany)
  | .string s => .error (textPair s.length)
  | .object fields => .error (textPair fields.length)
  | j => .error (.notPair j.sort)

end

end Decode

/-- **The tree of a JSON value**, with the values that stand for its texts as they are. -/
def Json.decode (j : Json) : Except DecodeError (Node Unit Json) := Decode.node j

/-- The tree of a JSON value, with texts. Anything but a text is taken as it is described. -/
def Node.ofJson (j : Json) : Except DecodeError (Node Unit) := j.decode.map (mapTexts Json.describe)

end SepiaLang
