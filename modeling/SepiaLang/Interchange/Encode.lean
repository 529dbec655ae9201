import SepiaLang.Json.Basic
import SepiaLang.Syntax.Depth

/-!
# Trees as JSON

Every node is an object whose field `type` names its sort; the other fields hold its parts. Notes
are not kept. A missing child is `null`.

* `Node.toJsonWith`: the JSON form of a tree, whatever stands for its texts.
* `Node.toJson`: the same for a tree with texts.
* `Node.encode?`: the same, if the tree is not nested too deeply.
-/

namespace SepiaLang.Node

variable {α τ : Type}

/-- An object that stands for a node of the given sort. -/
def record (form : String) (fields : List (String × Json)) : Json :=
  .object (("type", .string form) :: fields)

mutual

/-- The JSON form of a tree, given that of its texts. -/
def toJsonWith (g : τ → Json) : Node α τ → Json
  | absent => .null
  | n@(program body) => record n.form [("statements", .array (toJsonAllWith g body))]
  | n@(expressionStmt _ e) => record n.form [("expression", toJsonWith g e)]
  | n@(valueStmt _ x e) => record n.form [("name", g x.text), ("value", toJsonWith g e)]
  | n@(updateStmt _ x e) => record n.form [("name", g x.text), ("value", toJsonWith g e)]
  | n@(returnStmt _ e) => record n.form [("value", toJsonWith g e)]
  | n@(block _ body) => record n.form [("statements", .array (toJsonAllWith g body))]
  | n@(integer _ value) => record n.form [("value", .int value)]
  | n@(boolean _ value) => record n.form [("value", .bool value)]
  | n@(string _ text) => record n.form [("value", g text)]
  | n@(identifier _ name) => record n.form [("value", g name)]
  | n@(unary _ op e) => record n.form [("operator", g op), ("right", toJsonWith g e)]
  | n@(binary _ op l r) =>
    record n.form [("operator", g op), ("left", toJsonWith g l), ("right", toJsonWith g r)]
  | n@(conditional _ c t e) =>
    record n.form [("condition", toJsonWith g c), ("consequence", toJsonWith g t),
      ("alternative", toJsonWith g e)]
  | n@(function _ ps b) =>
    record n.form [("parameters", .array (ps.map fun p => g p.text)), ("body", toJsonWith g b)]
  | n@(call _ f args) =>
    record n.form [("function", toJsonWith g f), ("arguments", .array (toJsonAllWith g args))]
  | n@(array _ es) => record n.form [("elements", .array (toJsonAllWith g es))]
  | n@(index _ l i) => record n.form [("left", toJsonWith g l), ("index", toJsonWith g i)]
  | n@(map _ ps) => record n.form [("pairs", .array (toJsonPairsWith g ps))]

/-- The JSON forms of trees. -/
def toJsonAllWith (g : τ → Json) : List (Node α τ) → List Json
  | [] => []
  | n :: rest => toJsonWith g n :: toJsonAllWith g rest

/-- The JSON forms of the entries of a map literal. -/
def toJsonPairsWith (g : τ → Json) : List (Node α τ × Node α τ) → List Json
  | [] => []
  | (k, v) :: rest => .array [toJsonWith g k, toJsonWith g v] :: toJsonPairsWith g rest

end

/-- The JSON form of a tree. -/
def toJson (n : Node α) : Json := n.toJsonWith .string

/-- The JSON form of a tree that is not nested too deeply. -/
def encode? (n : Node α) : Option Json := if n.fits displayLimit then some n.toJson else none

end SepiaLang.Node
