/-!
# Syntax trees

The tree of a program. There is one type for all nodes, because a tree that comes from a file may
have any node in any place; the reader of source text builds sensible trees only. Every node but the
whole program carries a note: the token it was read from, or nothing. Names, operators and the
contents of strings are texts, but in a tree that is being loaded anything may stand for them.

* `Node`: a tree, with `Node.absent` in the place of a child that is missing.
* `Node.form`: the name of the sort of node.
* `Node.mapNotes`, `Node.strip`: the same tree with other notes, or with none.
* `Node.mapTexts`: the same tree with other texts.
-/

namespace SepiaLang

/-- A name that is bound: by a statement or as a parameter. -/
structure Ident (α : Type) (τ : Type := String) where
  text : τ
  note : α
  deriving DecidableEq, Repr

/-- A syntax tree with notes of type `α` and texts of type `τ`. Operators are kept as they are
written. A missing child is `absent`, and so is the alternative of a choice without an `else`. -/
inductive Node (α : Type) (τ : Type := String) where
  | absent
  | program (body : List (Node α τ))
  | expressionStmt (note : α) (expr : Node α τ)
  | valueStmt (note : α) (name : Ident α τ) (value : Node α τ)
  | updateStmt (note : α) (name : Ident α τ) (value : Node α τ)
  | returnStmt (note : α) (value : Node α τ)
  | block (note : α) (body : List (Node α τ))
  | integer (note : α) (value : Int)
  | boolean (note : α) (value : Bool)
  | string (note : α) (text : τ)
  | identifier (note : α) (name : τ)
  | unary (note : α) (operator : τ) (operand : Node α τ)
  | binary (note : α) (operator : τ) (left right : Node α τ)
  | conditional (note : α) (condition consequence alternative : Node α τ)
  | function (note : α) (params : List (Ident α τ)) (body : Node α τ)
  | call (note : α) (callee : Node α τ) (args : List (Node α τ))
  | array (note : α) (elements : List (Node α τ))
  | index (note : α) (left index : Node α τ)
  | map (note : α) (pairs : List (Node α τ × Node α τ))
  deriving Repr, Inhabited

/-- The same name with another note. -/
def Ident.map {α β τ : Type} (f : α → β) (i : Ident α τ) : Ident β τ :=
  { text := i.text, note := f i.note }

namespace Node

variable {α β τ σ : Type}

/-- The name of the sort of node. -/
def form : Node α τ → String
  | absent => "NoneType"
  | program _ => "Program"
  | expressionStmt .. => "ExpressionStatement"
  | valueStmt .. => "ValueStatement"
  | updateStmt .. => "UpdateStatement"
  | returnStmt .. => "ReturnStatement"
  | block .. => "BlockStatement"
  | integer .. => "IntegerLiteral"
  | boolean .. => "BooleanLiteral"
  | string .. => "StringLiteral"
  | identifier .. => "Identifier"
  | unary .. => "PrefixExpression"
  | binary .. => "InfixExpression"
  | conditional .. => "IfExpression"
  | function .. => "FunctionLiteral"
  | call .. => "CallExpression"
  | array .. => "ArrayLiteral"
  | index .. => "IndexExpression"
  | map .. => "MapLiteral"

mutual

/-- The same tree with the notes changed by `f`. -/
def mapNotes (f : α → β) : Node α τ → Node β τ
  | absent => absent
  | program body => program (mapNotesAll f body)
  | expressionStmt a e => expressionStmt (f a) (mapNotes f e)
  | valueStmt a x e => valueStmt (f a) (x.map f) (mapNotes f e)
  | updateStmt a x e => updateStmt (f a) (x.map f) (mapNotes f e)
  | returnStmt a e => returnStmt (f a) (mapNotes f e)
  | block a body => block (f a) (mapNotesAll f body)
  | integer a n => integer (f a) n
  | boolean a b => boolean (f a) b
  | string a s => string (f a) s
  | identifier a x => identifier (f a) x
  | unary a op e => unary (f a) op (mapNotes f e)
  | binary a op l r => binary (f a) op (mapNotes f l) (mapNotes f r)
  | conditional a c t e => conditional (f a) (mapNotes f c) (mapNotes f t) (mapNotes f e)
  | function a ps b => function (f a) (ps.map (·.map f)) (mapNotes f b)
  | call a g args => call (f a) (mapNotes f g) (mapNotesAll f args)
  | array a es => array (f a) (mapNotesAll f es)
  | index a l i => index (f a) (mapNotes f l) (mapNotes f i)
  | map a ps => map (f a) (mapNotesPairs f ps)

/-- The same trees with the notes changed by `f`. -/
def mapNotesAll (f : α → β) : List (Node α τ) → List (Node β τ)
  | [] => []
  | n :: rest => mapNotes f n :: mapNotesAll f rest

/-- The same pairs of trees with the notes changed by `f`. -/
def mapNotesPairs (f : α → β) : List (Node α τ × Node α τ) → List (Node β τ × Node β τ)
  | [] => []
  | (k, v) :: rest => (mapNotes f k, mapNotes f v) :: mapNotesPairs f rest

end

/-- The tree without notes. Two trees are structurally equal when they are equal without notes. -/
def strip (n : Node α τ) : Node Unit τ := n.mapNotes fun _ => ()

mutual

/-- The same tree with the texts changed by `g`. -/
def mapTexts (g : τ → σ) : Node α τ → Node α σ
  | absent => absent
  | program body => program (mapTextsAll g body)
  | expressionStmt a e => expressionStmt a (mapTexts g e)
  | valueStmt a x e => valueStmt a { text := g x.text, note := x.note } (mapTexts g e)
  | updateStmt a x e => updateStmt a { text := g x.text, note := x.note } (mapTexts g e)
  | returnStmt a e => returnStmt a (mapTexts g e)
  | block a body => block a (mapTextsAll g body)
  | integer a n => integer a n
  | boolean a b => boolean a b
  | string a s => string a (g s)
  | identifier a x => identifier a (g x)
  | unary a op e => unary a (g op) (mapTexts g e)
  | binary a op l r => binary a (g op) (mapTexts g l) (mapTexts g r)
  | conditional a c t e => conditional a (mapTexts g c) (mapTexts g t) (mapTexts g e)
  | function a ps b =>
    function a (ps.map fun x => { text := g x.text, note := x.note }) (mapTexts g b)
  | call a f args => call a (mapTexts g f) (mapTextsAll g args)
  | array a es => array a (mapTextsAll g es)
  | index a l i => index a (mapTexts g l) (mapTexts g i)
  | map a ps => map a (mapTextsPairs g ps)

/-- The same trees with the texts changed by `g`. -/
def mapTextsAll (g : τ → σ) : List (Node α τ) → List (Node α σ)
  | [] => []
  | n :: rest => mapTexts g n :: mapTextsAll g rest

/-- The same pairs of trees with the texts changed by `g`. -/
def mapTextsPairs (g : τ → σ) : List (Node α τ × Node α τ) → List (Node α σ × Node α σ)
  | [] => []
  | (k, v) :: rest => (mapTexts g k, mapTexts g v) :: mapTextsPairs g rest

end

mutual

theorem mapNotes_id : ∀ n : Node α τ, mapNotes id n = n
  | absent | integer .. | boolean .. | string .. | identifier .. => rfl
  | program body | block _ body | array _ body => by simp [mapNotes, mapNotesAll_id body]
  | expressionStmt _ e | returnStmt _ e | unary _ _ e => by simp [mapNotes, mapNotes_id e]
  | valueStmt _ x e | updateStmt _ x e => by simp [mapNotes, Ident.map, mapNotes_id e]
  | binary _ _ l r | index _ l r => by simp [mapNotes, mapNotes_id l, mapNotes_id r]
  | conditional _ c t e => by simp [mapNotes, mapNotes_id c, mapNotes_id t, mapNotes_id e]
  | function _ ps b => by simp [mapNotes, Ident.map, mapNotes_id b]
  | call _ f args => by simp [mapNotes, mapNotes_id f, mapNotesAll_id args]
  | map _ ps => by simp [mapNotes, mapNotesPairs_id ps]

theorem mapNotesAll_id : ∀ ns : List (Node α τ), mapNotesAll id ns = ns
  | [] => rfl
  | n :: ns => by simp [mapNotesAll, mapNotes_id n, mapNotesAll_id ns]

theorem mapNotesPairs_id : ∀ ps : List (Node α τ × Node α τ), mapNotesPairs id ps = ps
  | [] => rfl
  | (k, v) :: ps => by simp [mapNotesPairs, mapNotes_id k, mapNotes_id v, mapNotesPairs_id ps]

end

mutual

theorem mapTexts_id : ∀ n : Node α τ, mapTexts id n = n
  | absent | integer .. | boolean .. | string .. | identifier .. => rfl
  | program body | block _ body | array _ body => by simp [mapTexts, mapTextsAll_id body]
  | expressionStmt _ e | returnStmt _ e | unary _ _ e => by simp [mapTexts, mapTexts_id e]
  | valueStmt _ x e | updateStmt _ x e => by simp [mapTexts, mapTexts_id e]
  | binary _ _ l r | index _ l r => by simp [mapTexts, mapTexts_id l, mapTexts_id r]
  | conditional _ c t e => by simp [mapTexts, mapTexts_id c, mapTexts_id t, mapTexts_id e]
  | function _ ps b => by simp [mapTexts, mapTexts_id b]
  | call _ f args => by simp [mapTexts, mapTexts_id f, mapTextsAll_id args]
  | map _ ps => by simp [mapTexts, mapTextsPairs_id ps]

theorem mapTextsAll_id : ∀ ns : List (Node α τ), mapTextsAll id ns = ns
  | [] => rfl
  | n :: ns => by simp [mapTextsAll, mapTexts_id n, mapTextsAll_id ns]

theorem mapTextsPairs_id : ∀ ps : List (Node α τ × Node α τ), mapTextsPairs id ps = ps
  | [] => rfl
  | (k, v) :: ps => by simp [mapTextsPairs, mapTexts_id k, mapTexts_id v, mapTextsPairs_id ps]

end

section Composition

variable {ρ : Type} (g : σ → ρ) (f : τ → σ)

mutual

theorem mapTexts_mapTexts : ∀ n : Node α τ, mapTexts g (mapTexts f n) = mapTexts (g ∘ f) n
  | absent | integer .. | boolean .. | string .. | identifier .. => rfl
  | program body | block _ body | array _ body => by simp [mapTexts, mapTextsAll_mapTextsAll body]
  | expressionStmt _ e | returnStmt _ e | unary _ _ e => by simp [mapTexts, mapTexts_mapTexts e]
  | valueStmt _ x e | updateStmt _ x e => by simp [mapTexts, mapTexts_mapTexts e]
  | binary _ _ l r | index _ l r => by simp [mapTexts, mapTexts_mapTexts l, mapTexts_mapTexts r]
  | conditional _ c t e => by
    simp [mapTexts, mapTexts_mapTexts c, mapTexts_mapTexts t, mapTexts_mapTexts e]
  | function _ ps b => by simp [mapTexts, mapTexts_mapTexts b]
  | call _ h args => by simp [mapTexts, mapTexts_mapTexts h, mapTextsAll_mapTextsAll args]
  | map _ ps => by simp [mapTexts, mapTextsPairs_mapTextsPairs ps]

theorem mapTextsAll_mapTextsAll : ∀ ns : List (Node α τ),
    mapTextsAll g (mapTextsAll f ns) = mapTextsAll (g ∘ f) ns
  | [] => rfl
  | n :: ns => by simp [mapTextsAll, mapTexts_mapTexts n, mapTextsAll_mapTextsAll ns]

theorem mapTextsPairs_mapTextsPairs : ∀ ps : List (Node α τ × Node α τ),
    mapTextsPairs g (mapTextsPairs f ps) = mapTextsPairs (g ∘ f) ps
  | [] => rfl
  | (k, v) :: ps => by
    simp [mapTextsPairs, mapTexts_mapTexts k, mapTexts_mapTexts v, mapTextsPairs_mapTextsPairs ps]

end

end Composition

end Node

end SepiaLang
