import SepiaLang.Syntax.Basic

/-!
# Values

What a program computes with. Strings, arrays, maps and functions have an identity, a number that is
given out when they are made; copies keep it. Two strings with the same text are different values
for the program unless they are the same one.

* `Key`, `Entry`: the entries of maps, each under its key.
* `Value`, `ValueType`.
* `Value.truthy`: what counts as true in a condition.
* `Value.identical`: the two are one and the same value.
-/

namespace SepiaLang

/-- The types of values. -/
inductive ValueType where
  | integer
  | boolean
  | string
  | null
  | array
  | map
  | function
  | native
  | returned
  | error
  deriving DecidableEq, Repr

/-- The name of a type in messages. -/
def ValueType.name : ValueType → String
  | integer => "INTEGER"
  | boolean => "BOOLEAN"
  | string => "STRING"
  | null => "NULL"
  | array => "ARRAY"
  | map => "MAP"
  | function => "FUNCTION"
  | native => "BUILTIN"
  | returned => "RETURN_VALUE"
  | error => "ERROR"

/-- A key of a map. -/
inductive Key where
  | integer (n : Int)
  | boolean (b : Bool)
  | string (text : String)
  deriving DecidableEq, Repr

/-- An entry of a map: the key that it stands under, and the two values that were given for it. -/
structure Entry (α : Type) where
  under : Key
  key : α
  value : α

/-- The two values of an entry. -/
def Entry.pair {α : Type} (e : Entry α) : α × α := (e.key, e.value)

/-- A value. The entries of a map are in the order in which their keys were first given. A function
has the number of the scope that it was made in, and a native function only its name. A value on its
way out of a function is marked as `returned`. -/
inductive Value where
  | integer (n : Int)
  | boolean (b : Bool)
  | null
  | string (id : Nat) (text : String)
  | array (id : Nat) (elements : List Value)
  | map (id : Nat) (entries : List (Entry Value))
  | function (id : Nat) (params : List String) (body : Node Unit) (scope : Nat)
  | native (name : String)
  | returned (value : Value)
  | error (id : Nat) (message : String)
  deriving Inhabited

namespace Value

/-- The type of a value. -/
def type : Value → ValueType
  | integer _ => .integer
  | boolean _ => .boolean
  | null => .null
  | string .. => .string
  | array .. => .array
  | map .. => .map
  | function .. => .function
  | native _ => .native
  | returned _ => .returned
  | error .. => .error

/-- Everything but `false` and `null` counts as true. -/
def truthy : Value → Bool
  | boolean b => b
  | null => false
  | _ => true

/-- The two are one and the same value. Integers and values on their way out have no identity. -/
def identical : Value → Value → Bool
  | boolean a, boolean b => a == b
  | null, null => true
  | string i _, string j _ => i == j
  | array i _, array j _ => i == j
  | map i _, map j _ => i == j
  | function i _ _ _, function j _ _ _ => i == j
  | native a, native b => a == b
  | error i _, error j _ => i == j
  | _, _ => false

end Value

end SepiaLang
