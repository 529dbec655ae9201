import Mathlib.Data.List.Basic
import SepiaLang.Interchange.Decode
import SepiaLang.Interchange.Encode

/-!
# Trees and their JSON form

The JSON form of a tree keeps all of it but the notes. Many JSON values stand for the same tree, and
one of them is its form: reading a value and writing the tree again leads there, and stays there. What
stands for a name, an operator or the content of a string is kept as it is, whether it is a text or not.

* `Node.decode_toJsonWith`: the tree of the JSON form of a tree is that tree without notes.
* `Node.ofJson_toJson`: the same for trees with texts.
* `Json.reencode`: a value read and written again.
* **`reencode_normal`**: that gives the one form of the tree, and the values that it leaves alone are
  the forms of trees.
-/

namespace SepiaLang

variable {α τ : Type}

/-! ## Reading a record -/

namespace Decode

variable {β : Type}

@[simp] theorem ok_bind (a : α) (f : α → Result β) : (Except.ok a >>= f) = f a := rfl

@[simp] theorem pure_eq_ok (a : α) : (pure a : Result α) = .ok a := rfl

@[simp] theorem formOf_cons (form : Json) (fields : List (String × Json)) :
    formOf (("type", form) :: fields) = form := by
  simp [formOf, field?]

end Decode

/-! ## Trees -/

namespace Node

open Decode

section ToJson

variable (g : τ → Json)

mutual

theorem node_toJsonWith : ∀ n : Node α τ, node (n.toJsonWith g) = .ok (mapTexts g (mapNotes (fun _ => ()) n))
  | absent => by simp [toJsonWith, node, mapNotes, mapTexts]
  | program body => by
    simp [toJsonWith, record, form, node, mapNotes, mapTexts, nodes, field, field?, nodesOf_toJsonAllWith body]
  | block _ body => by
    simp [toJsonWith, record, form, node, mapNotes, mapTexts, nodes, field, field?, nodesOf_toJsonAllWith body]
  | expressionStmt _ e => by
    simp [toJsonWith, record, form, node, mapNotes, mapTexts, field, field?, node_toJsonWith e]
  | valueStmt _ x e => by
    simp [toJsonWith, record, form, node, mapNotes, mapTexts, Ident.map, text, field, field?, Except.map,
      node_toJsonWith e]
  | updateStmt _ x e => by
    simp [toJsonWith, record, form, node, mapNotes, mapTexts, Ident.map, text, field, field?, Except.map,
      node_toJsonWith e]
  | returnStmt _ e => by
    simp [toJsonWith, record, form, node, mapNotes, mapTexts, field, field?, node_toJsonWith e]
  | .integer _ n => by
    simp [toJsonWith, record, form, node, mapNotes, mapTexts, field, field?, Decode.integer]
  | boolean _ b => by simp [toJsonWith, record, form, node, mapNotes, mapTexts, field, field?, Json.truthy]
  | string _ s => by simp [toJsonWith, record, form, node, mapNotes, mapTexts, text, field, field?, Except.map]
  | identifier _ x => by
    simp [toJsonWith, record, form, node, mapNotes, mapTexts, text, field, field?, Except.map]
  | unary _ op e => by
    simp [toJsonWith, record, form, node, mapNotes, mapTexts, text, field, field?, Except.map,
      node_toJsonWith e]
  | binary _ op l r => by
    simp [toJsonWith, record, form, node, mapNotes, mapTexts, text, field, field?, Except.map,
      node_toJsonWith l, node_toJsonWith r]
  | conditional _ c t e => by
    simp [toJsonWith, record, form, node, mapNotes, mapTexts, field, field?, node_toJsonWith c,
      node_toJsonWith t, node_toJsonWith e]
  | function _ ps b => by
    simp [toJsonWith, record, form, node, mapNotes, mapTexts, field, field?, parameters, Ident.map,
      node_toJsonWith b]
  | call _ f args => by
    simp [toJsonWith, record, form, node, mapNotes, mapTexts, nodes, field, field?, node_toJsonWith f,
      nodesOf_toJsonAllWith args]
  | array _ es => by
    simp [toJsonWith, record, form, node, mapNotes, mapTexts, nodes, field, field?, nodesOf_toJsonAllWith es]
  | index _ l i => by
    simp [toJsonWith, record, form, node, mapNotes, mapTexts, field, field?, node_toJsonWith l,
      node_toJsonWith i]
  | map _ ps => by
    simp [toJsonWith, record, form, node, mapNotes, mapTexts, Decode.pairs, field, field?,
      pairsOf_toJsonPairsWith ps]

theorem nodesOf_toJsonAllWith : ∀ ns : List (Node α τ),
    nodesOf (toJsonAllWith g ns) = .ok (mapTextsAll g (mapNotesAll (fun _ => ()) ns))
  | [] => by simp [toJsonAllWith, nodesOf, mapNotesAll, mapTextsAll]
  | n :: ns => by
    simp [toJsonAllWith, nodesOf, mapNotesAll, mapTextsAll, node_toJsonWith n, nodesOf_toJsonAllWith ns]

theorem pairsOf_toJsonPairsWith : ∀ ps : List (Node α τ × Node α τ),
    pairsOf (toJsonPairsWith g ps) = .ok (mapTextsPairs g (mapNotesPairs (fun _ => ()) ps))
  | [] => by simp [toJsonPairsWith, pairsOf, mapNotesPairs, mapTextsPairs]
  | (k, v) :: ps => by
    simp [toJsonPairsWith, pairsOf, pair, mapNotesPairs, mapTextsPairs, node_toJsonWith k, node_toJsonWith v,
      pairsOf_toJsonPairsWith ps]

end

mutual

/-- The notes leave no trace in the JSON form. -/
theorem toJsonWith_mapNotes {β : Type} (f : α → β) : ∀ n : Node α τ,
    (mapNotes f n).toJsonWith g = n.toJsonWith g
  | absent | .integer .. | boolean .. | string .. | identifier .. => by simp [mapNotes, toJsonWith, form]
  | program body | block _ body | array _ body => by
    simp [mapNotes, toJsonWith, form, toJsonAllWith_mapNotesAll f body]
  | expressionStmt _ e | returnStmt _ e | unary _ _ e => by
    simp [mapNotes, toJsonWith, form, toJsonWith_mapNotes f e]
  | valueStmt _ x e | updateStmt _ x e => by
    simp [mapNotes, toJsonWith, form, Ident.map, toJsonWith_mapNotes f e]
  | binary _ _ l r | index _ l r => by
    simp [mapNotes, toJsonWith, form, toJsonWith_mapNotes f l, toJsonWith_mapNotes f r]
  | conditional _ c t e => by
    simp [mapNotes, toJsonWith, form, toJsonWith_mapNotes f c, toJsonWith_mapNotes f t,
      toJsonWith_mapNotes f e]
  | function _ ps b => by
    simp [mapNotes, toJsonWith, form, Ident.map, Function.comp_def, toJsonWith_mapNotes f b]
  | call _ h args => by
    simp [mapNotes, toJsonWith, form, toJsonWith_mapNotes f h, toJsonAllWith_mapNotesAll f args]
  | map _ ps => by simp [mapNotes, toJsonWith, form, toJsonPairsWith_mapNotesPairs f ps]

theorem toJsonAllWith_mapNotesAll {β : Type} (f : α → β) : ∀ ns : List (Node α τ),
    toJsonAllWith g (mapNotesAll f ns) = toJsonAllWith g ns
  | [] => by simp [mapNotesAll, toJsonAllWith]
  | n :: ns => by
    simp [mapNotesAll, toJsonAllWith, toJsonWith_mapNotes f n, toJsonAllWith_mapNotesAll f ns]

theorem toJsonPairsWith_mapNotesPairs {β : Type} (f : α → β) : ∀ ps : List (Node α τ × Node α τ),
    toJsonPairsWith g (mapNotesPairs f ps) = toJsonPairsWith g ps
  | [] => by simp [mapNotesPairs, toJsonPairsWith]
  | (k, v) :: ps => by
    simp [mapNotesPairs, toJsonPairsWith, toJsonWith_mapNotes f k, toJsonWith_mapNotes f v,
      toJsonPairsWith_mapNotesPairs f ps]

end

end ToJson

theorem toJson_mapNotes {β : Type} (f : α → β) (n : Node α) : (mapNotes f n).toJson = n.toJson :=
  toJsonWith_mapNotes .string f n

/-- A tree without notes is its own strip. -/
@[simp] theorem strip_eq_self (n : Node Unit τ) : n.strip = n := mapNotes_id n

/-- **The JSON form of a tree stands for the tree**, whatever stands for its texts. -/
theorem decode_toJsonWith (g : τ → Json) (n : Node α τ) : (n.toJsonWith g).decode = .ok (mapTexts g n.strip) :=
  node_toJsonWith g n

/-- Texts stand for themselves. -/
theorem mapTexts_describe_string (n : Node α) : mapTexts Json.describe (mapTexts Json.string n) = n := by
  rw [mapTexts_mapTexts]
  exact mapTexts_id n

theorem ofJson_toJson (n : Node α) : ofJson n.toJson = .ok n.strip := by
  rw [ofJson, toJson, decode_toJsonWith]
  exact congrArg Except.ok (mapTexts_describe_string n.strip)

end Node

/-! ## Values read and written again -/

/-- A JSON value that stands for a tree, as the JSON form of that tree. -/
def Json.reencode (j : Json) : Except DecodeError Json := j.decode.map (Node.toJsonWith id)

/-- **The JSON form of a tree is a normal form.** The form of a tree stands for that tree, whatever its notes
and whatever stands for its texts; where these are texts, nothing is lost when it is read as a tree with
texts. A value that stands for a tree, in whatever form, is led to the form of that tree, which stands for it
as well and is led nowhere else. So the values that are led to themselves are exactly the forms of trees. -/
theorem reencode_normal :
    (∀ t : Node α Json, (t.toJsonWith id).decode = .ok t.strip) ∧
    (∀ n : Node α, n.toJson.decode = .ok (n.strip.mapTexts .string) ∧ Node.ofJson n.toJson = .ok n.strip) ∧
    (∀ (j : Json) (t : Node Unit Json), j.decode = .ok t →
      j.reencode = .ok (t.toJsonWith id) ∧ (t.toJsonWith id).decode = j.decode ∧
        (t.toJsonWith id).reencode = .ok (t.toJsonWith id)) ∧
    ∀ j : Json, j.reencode = .ok j ↔ ∃ t : Node Unit Json, t.toJsonWith id = j := by
  have hread {β : Type} (t : Node β Json) : (t.toJsonWith id).decode = .ok t.strip := by
    rw [Node.decode_toJsonWith, Node.mapTexts_id]
  have hfixed (t : Node Unit Json) : (t.toJsonWith id).reencode = .ok (t.toJsonWith id) := by
    rw [Json.reencode, hread, Node.strip_eq_self]
    rfl
  refine ⟨hread, fun n => ⟨Node.decode_toJsonWith _ n, n.ofJson_toJson⟩, fun j t ht => ⟨?_, ?_, hfixed t⟩,
    fun j => ⟨?_, ?_⟩⟩
  · rw [Json.reencode, ht]
    rfl
  · rw [hread, ht, Node.strip_eq_self]
  · intro hj
    cases ht : j.decode with
    | error e => rw [Json.reencode, ht] at hj; cases hj
    | ok t =>
      rw [Json.reencode, ht] at hj
      exact ⟨t, Except.ok.inj hj⟩
  · rintro ⟨t, rfl⟩
    exact hfixed t

/-- A loose form: a field too many, none for the alternative, texts for the integer and for the parameters,
and a number for the content of a string, which stays a number. -/
theorem reencode_normal_loose :
    let loose := Json.object [("note", .null), ("type", .string "IfExpression"),
      ("condition", .object [("type", .string "IntegerLiteral"), ("value", .string " 7_0 ")]),
      ("consequence", .object [("type", .string "FunctionLiteral"), ("parameters", .string "ab"),
        ("body", .object [("type", .string "StringLiteral"), ("value", .int 5)])])]
    let tree : Node Unit Json := .conditional () (.integer () 70)
      (.function () [⟨.string "a", ()⟩, ⟨.string "b", ()⟩] (.string () (.int 5))) .absent
    loose.decode = .ok tree ∧ loose.reencode = .ok (tree.toJsonWith id) ∧
      (tree.toJsonWith id).decode = loose.decode ∧
      (tree.toJsonWith id).reencode = .ok (tree.toJsonWith id) := by
  intro loose tree
  have hloose : loose.decode = .ok tree := by cbv
  exact ⟨hloose, (reencode_normal (α := Unit)).2.2.1 loose tree hloose⟩

end SepiaLang
