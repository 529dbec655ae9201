import SepiaLang.Syntax.Basic

/-!
# Nesting of trees

The text of a tree and its form for files are made only up to a certain depth of nesting.

* `Node.children`: the parts of a node. `Node.children_mapNotes`: with other notes they are the same.
* `Node.needed`: the parts that it cannot do without.
* `Node.fits`: a tree is nested no deeper than a limit.
* `Node.fits_of_le`: a tree that fits a limit fits every larger one.
-/

namespace SepiaLang

/-- How deeply something may be nested for its text to be made. -/
def displayLimit : Nat := 500

namespace Node

variable {α β : Type}

/-- The parts of a node, from left to right. -/
def children : Node α → List (Node α)
  | absent | integer .. | boolean .. | string .. | identifier .. => []
  | program body | block _ body => body
  | expressionStmt _ e | valueStmt _ _ e | updateStmt _ _ e | returnStmt _ e | unary _ _ e
  | function _ _ e => [e]
  | binary _ _ l r | index _ l r => [l, r]
  | conditional _ c t e => [c, t, e]
  | call _ f args => f :: args
  | array _ es => es
  | map _ ps => ps.flatMap fun (k, v) => [k, v]

theorem mapNotesAll_eq_map (f : α → β) (ns : List (Node α)) : mapNotesAll f ns = ns.map (mapNotes f) := by
  induction ns with
  | nil => rfl
  | cons n ns ih => rw [mapNotesAll, ih, List.map_cons]

theorem mapNotesPairs_eq_map (f : α → β) : ∀ ps : List (Node α × Node α),
    mapNotesPairs f ps = ps.map fun p => (mapNotes f p.1, mapNotes f p.2)
  | [] => rfl
  | _ :: ps => congrArg _ (mapNotesPairs_eq_map f ps)

theorem children_mapNotes (f : α → β) (n : Node α) :
    (n.mapNotes f).children = n.children.map (mapNotes f) := by
  cases n <;>
    simp [mapNotes, children, mapNotesAll_eq_map, mapNotesPairs_eq_map, List.flatMap_map, List.map_flatMap]

/-- The parts that a node cannot do without. A choice needs no `else` branch. -/
def needed : Node α → List (Node α)
  | conditional _ c t _ => [c, t]
  | n => n.children

theorem needed_mapNotes (f : α → β) (n : Node α) : (n.mapNotes f).needed = n.needed.map (mapNotes f) := by
  have h := children_mapNotes f n
  cases n with
  | conditional => simp only [mapNotes, needed, List.map_cons, List.map_nil]
  | _ => simpa only [mapNotes, needed] using h

/-- Only the `else` branch of a choice may be missing. -/
theorem mem_needed_or_alternative {n m : Node α} (h : m ∈ n.children) :
    m ∈ n.needed ∨ ∃ a c t, n = conditional a c t m := by
  cases n with
  | conditional a c t e =>
    simp only [children, List.mem_cons, List.not_mem_nil, or_false] at h
    rcases h with rfl | rfl | rfl
    · exact .inl List.mem_cons_self
    · exact .inl (List.mem_cons_of_mem _ List.mem_cons_self)
    · exact .inr ⟨a, c, t, rfl⟩
  | _ => exact .inl h

theorem mem_children_of_mem_needed {n m : Node α} (h : m ∈ n.needed) : m ∈ n.children := by
  cases n with
  | conditional a c t e => exact List.mem_append_left [e] h
  | _ => exact h

/-- The tree has at most `limit` nodes above each other. -/
def fits : Nat → Node α → Bool
  | 0, _ => false
  | limit + 1, n => n.children.all (fits limit)

/-- A tree that fits a limit fits every larger one. -/
theorem fits_of_le {n m : Nat} (h : n ≤ m) {t : Node α} (ht : t.fits n = true) :
    t.fits m = true := by
  induction n generalizing m t with
  | zero => exact absurd ht (by simp [fits])
  | succ n ih =>
    obtain ⟨m, rfl⟩ : ∃ k, m = k + 1 := ⟨m - 1, by omega⟩
    rw [fits, List.all_eq_true] at ht ⊢
    exact fun c hc => ih (by omega) (ht c hc)

end Node

end SepiaLang
