import SepiaLang.Syntax.Render
import SepiaLang.Value.Basic

/-!
# The text of a value

* `Value.inspect`: how a value is shown to the user. A string shows as its text, without quotes, and
  a function as its source.
* `Value.shown?`: the same, if the value is not nested too deeply.
* `Value.symbol?`: the name of a value that there is only one of.
-/

namespace SepiaLang.Value

mutual

/-- How a value is shown to the user. -/
def inspect : Value → String
  | integer n => toString n
  | boolean b => if b then "true" else "false"
  | null => "null"
  | string _ text => text
  | array _ elements => "[" ++ String.intercalate ", " (inspectAll elements) ++ "]"
  | map _ entries => "\x7b" ++ String.intercalate ", " (inspectEntries entries) ++ "\x7d"
  | function _ params body _ =>
    "fn(" ++ String.intercalate ", " params ++ ") -> " ++ body.render ++ " end"
  | native name => "builtin " ++ name
  | returned value => value.inspect
  | error _ message => "ERROR: " ++ message

/-- The texts of values. -/
def inspectAll : List Value → List String
  | [] => []
  | v :: rest => v.inspect :: inspectAll rest

/-- The texts of the entries of a map. -/
def inspectEntries : List (Entry Value) → List String
  | [] => []
  | ⟨_, k, v⟩ :: rest => (k.inspect ++ ": " ++ v.inspect) :: inspectEntries rest

end

/-- The value has at most `limit` parts inside each other, with those of the trees of functions. -/
def fits : Nat → Value → Bool
  | 0, _ => false
  | limit + 1, array _ elements => elements.all (fits limit)
  | limit + 1, map _ entries => entries.all fun e => fits limit e.key && fits limit e.value
  | limit + 1, function _ _ body _ => body.fits limit
  | limit + 1, returned value => fits limit value
  | _ + 1, _ => true

/-- How a value that is not nested too deeply is shown. -/
def shown? (v : Value) : Option String := if v.fits displayLimit then some v.inspect else none

/-- The name of `null` and of native functions, of which there is only one each. -/
def symbol? : Value → Option String
  | null => some "NULL"
  | native name => some ("<builtin " ++ name ++ ">")
  | _ => none

end SepiaLang.Value
