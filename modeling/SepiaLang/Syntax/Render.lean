import SepiaLang.Syntax.Depth

/-!
# Canonical source form

The text of a tree. Every operation stands in parentheses, so that the text shows how the tree is
built; a missing child shows as `None`, except in an expression statement, whose text is then empty.

* `Node.render`: the text of a tree.
* `Node.shown?`: the same, if the tree is not nested too deeply.
-/

namespace SepiaLang.Node

variable {α : Type}

mutual

/-- The canonical source form of a tree. -/
def render : Node α → String
  | absent => "None"
  | program body => String.join (renderAll body)
  | expressionStmt _ absent => ""
  | expressionStmt _ e => e.render
  | valueStmt _ x e => "value " ++ x.text ++ " = " ++ e.render ++ ";"
  | updateStmt _ x e => "update " ++ x.text ++ " = " ++ e.render ++ ";"
  | returnStmt _ e => "return " ++ e.render ++ ";"
  | block _ body => String.intercalate " " (renderAll body)
  | integer _ n => toString n
  | boolean _ b => if b then "true" else "false"
  | string _ s => "\"" ++ s ++ "\""
  | identifier _ x => x
  | unary _ op e => "(" ++ op ++ e.render ++ ")"
  | binary _ op l r => "(" ++ l.render ++ " " ++ op ++ " " ++ r.render ++ ")"
  | conditional _ c t absent => "if " ++ c.render ++ " -> " ++ t.render ++ " end"
  | conditional _ c t e =>
    "if " ++ c.render ++ " -> " ++ t.render ++ " end else -> " ++ e.render ++ " end"
  | function _ ps b =>
    "fn(" ++ String.intercalate ", " (ps.map (·.text)) ++ ") -> " ++ b.render ++ " end"
  | call _ f args => f.render ++ "(" ++ String.intercalate ", " (renderAll args) ++ ")"
  | array _ es => "[" ++ String.intercalate ", " (renderAll es) ++ "]"
  | index _ l i => "(" ++ l.render ++ "[" ++ i.render ++ "])"
  | map _ ps => "\x7b" ++ String.intercalate ", " (renderPairs ps) ++ "\x7d"

/-- The canonical source forms of trees. -/
def renderAll : List (Node α) → List String
  | [] => []
  | n :: rest => n.render :: renderAll rest

/-- The texts of the entries of a map literal. -/
def renderPairs : List (Node α × Node α) → List String
  | [] => []
  | (k, v) :: rest => (k.render ++ ": " ++ v.render) :: renderPairs rest

end

/-- The canonical source form of a tree that is not nested too deeply. -/
def shown? (n : Node α) : Option String := if n.fits displayLimit then some n.render else none

end SepiaLang.Node
