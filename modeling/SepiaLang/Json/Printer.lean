import SepiaLang.Json.Basic

/-!
# Printing JSON

* `Json.pretty`: a value over several lines, every level indented by two spaces, with all characters
  written as they are except quotes, backslashes and controls.
-/

namespace SepiaLang.Json

/-- A character inside a string. -/
def escapedChar (c : Char) : List Char :=
  if c = '"' ∨ c = '\\' then ['\\', c]
  else if c = '\n' then ['\\', 'n']
  else if c = '\r' then ['\\', 'r']
  else if c = '\t' then ['\\', 't']
  else if c.toNat = 8 then ['\\', 'b']
  else if c.toNat = 12 then ['\\', 'f']
  else if c.toNat < 0x20 then '\\' :: 'u' :: Text.hexPadded 4 c.toNat
  else [c]

/-- A string between quotes. -/
def quotedString (text : String) : String :=
  String.ofList ('"' :: text.toList.flatMap escapedChar ++ ['"'])

/-- A line break and the indentation of a level. -/
def newLine (level : Nat) : String := String.ofList ('\n' :: List.replicate (2 * level) ' ')

/-- Parts between brackets, each on a line of its own. -/
def bracketed (level : Nat) (left right : String) (parts : List String) : String :=
  if parts.isEmpty then left ++ right
  else
    left ++ newLine (level + 1) ++ String.intercalate ("," ++ newLine (level + 1)) parts ++
      newLine level ++ right

mutual

/-- A value that starts at a level of indentation. -/
def prettyAt (level : Nat) : Json → String
  | null => "null"
  | bool b => if b then "true" else "false"
  | int n => toString n
  | float x => x.render
  | string text => quotedString text
  | array items => bracketed level "[" "]" (prettyItems (level + 1) items)
  | object fields => bracketed level "\x7b" "\x7d" (prettyFields (level + 1) fields)

/-- Values that start at a level of indentation. -/
def prettyItems (level : Nat) : List Json → List String
  | [] => []
  | item :: rest => prettyAt level item :: prettyItems level rest

/-- Fields that start at a level of indentation. -/
def prettyFields (level : Nat) : List (String × Json) → List String
  | [] => []
  | (name, value) :: rest =>
    (quotedString name ++ ": " ++ prettyAt level value) :: prettyFields level rest

end

/-- A value over several lines. -/
def pretty (j : Json) : String := prettyAt 0 j

end SepiaLang.Json
