import SepiaLang.Json.Decimal
import SepiaLang.Text.Quoted

/-!
# JSON

Values of the JSON format, with integers of any size kept apart from floating-point numbers, and the
fields of an object in the order in which they were first given.

* `Json`.
* `Json.sort`: the name of the sort of a value.
* `Json.describe`: a value inside a message.
-/

namespace SepiaLang

/-- A JSON value. -/
inductive Json where
  | null
  | bool (b : Bool)
  | int (n : Int)
  | float (x : Binary64)
  | string (text : String)
  | array (items : List Json)
  | object (fields : List (String × Json))
  deriving Inhabited, Repr

namespace Json

/-- The name of the sort of a value in messages. -/
def sort : Json → String
  | null => "NoneType"
  | bool _ => "bool"
  | int _ => "int"
  | float _ => "float"
  | string _ => "str"
  | array _ => "list"
  | object _ => "dict"

/-- Everything but `null`, `false`, zero and what is empty counts as true. -/
def truthy : Json → Bool
  | null => false
  | bool b => b
  | int n => n != 0
  | float x => !x.isZero
  | string text => text != ""
  | array items => !items.isEmpty
  | object fields => !fields.isEmpty

mutual

/-- A value with its strings in quotes. -/
def literal : Json → String
  | null => "None"
  | bool b => if b then "True" else "False"
  | int n => toString n
  | float x => x.render
  | string text => Text.quoted text
  | array items => "[" ++ String.intercalate ", " (literalItems items) ++ "]"
  | object fields => "\x7b" ++ String.intercalate ", " (literalFields fields) ++ "\x7d"

/-- Values with their strings in quotes. -/
def literalItems : List Json → List String
  | [] => []
  | item :: rest => item.literal :: literalItems rest

/-- Fields with their names in quotes. -/
def literalFields : List (String × Json) → List String
  | [] => []
  | (name, value) :: rest => (Text.quoted name ++ ": " ++ value.literal) :: literalFields rest

end

/-- A value inside a message: a string as it is, anything else as a literal. -/
def describe : Json → String
  | string text => text
  | j => j.literal

end Json

end SepiaLang
