import SepiaLang.Syntax.Basic

/-!
# Walking a tree

* `Node.preorder`: the nodes of a tree, each before its children and the children from left to
  right. Bound names and parameters are visited like any other name; missing children are passed
  over.
-/

namespace SepiaLang

/-- A node as it is met on a walk: the name of its sort and its note, if it has one. -/
structure Visit (α : Type) where
  form : String
  note : Option α
  deriving DecidableEq, Repr

/-- The visit of a bound name. -/
def Ident.visit {α : Type} (i : Ident α) : Visit α :=
  { form := (Node.identifier i.note i.text).form, note := some i.note }

namespace Node

variable {α : Type}

/-- The note of a node. The whole program has none. -/
def note? : Node α → Option α
  | absent | program _ => none
  | expressionStmt a _ | valueStmt a _ _ | updateStmt a _ _ | returnStmt a _ | block a _
  | integer a _ | boolean a _ | string a _ | identifier a _ | unary a _ _ | binary a _ _ _
  | conditional a _ _ _ | function a _ _ | call a _ _ | array a _ | index a _ _ | map a _ => some a

/-- The visit of a node itself. -/
def visit (n : Node α) : Visit α := { form := n.form, note := n.note? }

mutual

/-- The nodes of a tree in preorder. -/
def preorder : Node α → List (Visit α)
  | absent => []
  | n@(program body) => n.visit :: preorderAll body
  | n@(expressionStmt _ e) => n.visit :: e.preorder
  | n@(valueStmt _ x e) => n.visit :: x.visit :: e.preorder
  | n@(updateStmt _ x e) => n.visit :: x.visit :: e.preorder
  | n@(returnStmt _ e) => n.visit :: e.preorder
  | n@(block _ body) => n.visit :: preorderAll body
  | n@(integer ..) => [n.visit]
  | n@(boolean ..) => [n.visit]
  | n@(string ..) => [n.visit]
  | n@(identifier ..) => [n.visit]
  | n@(unary _ _ e) => n.visit :: e.preorder
  | n@(binary _ _ l r) => n.visit :: (l.preorder ++ r.preorder)
  | n@(conditional _ c t e) => n.visit :: (c.preorder ++ t.preorder ++ e.preorder)
  | n@(function _ ps b) => n.visit :: (ps.map Ident.visit ++ b.preorder)
  | n@(call _ f args) => n.visit :: (f.preorder ++ preorderAll args)
  | n@(array _ es) => n.visit :: preorderAll es
  | n@(index _ l i) => n.visit :: (l.preorder ++ i.preorder)
  | n@(map _ ps) => n.visit :: preorderPairs ps

/-- The nodes of several trees in preorder. -/
def preorderAll : List (Node α) → List (Visit α)
  | [] => []
  | n :: rest => n.preorder ++ preorderAll rest

/-- The nodes of the entries of a map literal, each key before its value. -/
def preorderPairs : List (Node α × Node α) → List (Visit α)
  | [] => []
  | (k, v) :: rest => k.preorder ++ v.preorder ++ preorderPairs rest

end

end Node

end SepiaLang
