import SepiaLang.Syntax.Basic

/-!
# Structural equality of trees

Two trees are alike when they differ in their notes at most.

* `Node.alike`: the test.
* **`Node.alike_iff`**: it holds exactly when the trees without notes are equal.
-/

namespace SepiaLang

variable {α β : Type}

/-- The names are the same, whatever their notes. -/
def Ident.alike (i : Ident α) (j : Ident β) : Bool := i.text == j.text

/-- The lists of names are the same, whatever their notes. -/
def Ident.alikeAll (is : List (Ident α)) (js : List (Ident β)) : Bool :=
  is.map (·.text) == js.map (·.text)

namespace Node

mutual

/-- The trees are equal up to their notes. -/
def alike : Node α → Node β → Bool
  | absent, absent => true
  | program b, program b' => alikeAll b b'
  | expressionStmt _ e, expressionStmt _ e' => alike e e'
  | valueStmt _ x e, valueStmt _ x' e' => x.alike x' && alike e e'
  | updateStmt _ x e, updateStmt _ x' e' => x.alike x' && alike e e'
  | returnStmt _ e, returnStmt _ e' => alike e e'
  | block _ b, block _ b' => alikeAll b b'
  | integer _ n, integer _ n' => n == n'
  | boolean _ b, boolean _ b' => b == b'
  | string _ s, string _ s' => s == s'
  | identifier _ x, identifier _ x' => x == x'
  | unary _ op e, unary _ op' e' => op == op' && alike e e'
  | binary _ op l r, binary _ op' l' r' => op == op' && (alike l l' && alike r r')
  | conditional _ c t e, conditional _ c' t' e' => alike c c' && (alike t t' && alike e e')
  | function _ ps b, function _ ps' b' => Ident.alikeAll ps ps' && alike b b'
  | call _ f args, call _ f' args' => alike f f' && alikeAll args args'
  | array _ es, array _ es' => alikeAll es es'
  | index _ l i, index _ l' i' => alike l l' && alike i i'
  | map _ ps, map _ ps' => alikePairs ps ps'
  | _, _ => false

/-- The trees are equal one by one, up to their notes. -/
def alikeAll : List (Node α) → List (Node β) → Bool
  | [], [] => true
  | n :: ns, m :: ms => alike n m && alikeAll ns ms
  | _, _ => false

/-- The pairs of trees are equal one by one, up to their notes. -/
def alikePairs : List (Node α × Node α) → List (Node β × Node β) → Bool
  | [], [] => true
  | (k, v) :: ns, (k', v') :: ms => alike k k' && (alike v v' && alikePairs ns ms)
  | _, _ => false

end

/-- Names are alike exactly when they are equal without their notes. -/
theorem ident_alike_iff (i : Ident α) (j : Ident β) :
    i.alike j = true ↔ i.map (fun _ => ()) = j.map (fun _ => ()) := by
  simp [Ident.alike, Ident.map]

/-- Lists of names are alike exactly when they are equal without their notes. -/
theorem ident_alikeAll_iff (is : List (Ident α)) (js : List (Ident β)) :
    Ident.alikeAll is js = true ↔
      is.map (·.map fun _ => ()) = js.map (·.map fun _ => ()) := by
  unfold Ident.alikeAll
  induction is generalizing js with
  | nil => cases js <;> simp
  | cons i is ih =>
    cases js with
    | nil => simp
    | cons j js => simp_all [Ident.map]

mutual

theorem alike_iff_mapNotes : ∀ (n : Node α) (m : Node β),
    alike n m = true ↔ mapNotes (fun _ => ()) n = mapNotes (fun _ => ()) m
  | expressionStmt _ e, m => by
    cases m
    case expressionStmt _ e' => simp [alike, mapNotes, alike_iff_mapNotes e e']
    all_goals simp [alike, mapNotes]
  | valueStmt _ x e, m => by
    cases m
    case valueStmt _ x' e' => simp [alike, mapNotes, ident_alike_iff, alike_iff_mapNotes e e']
    all_goals simp [alike, mapNotes]
  | updateStmt _ x e, m => by
    cases m
    case updateStmt _ x' e' => simp [alike, mapNotes, ident_alike_iff, alike_iff_mapNotes e e']
    all_goals simp [alike, mapNotes]
  | returnStmt _ e, m => by
    cases m
    case returnStmt _ e' => simp [alike, mapNotes, alike_iff_mapNotes e e']
    all_goals simp [alike, mapNotes]
  | program b, m => by
    cases m
    case program b' => simp [alike, mapNotes, alikeAll_iff_mapNotes b b']
    all_goals simp [alike, mapNotes]
  | block _ b, m => by
    cases m
    case block _ b' => simp [alike, mapNotes, alikeAll_iff_mapNotes b b']
    all_goals simp [alike, mapNotes]
  | absent, m | integer _ _, m | boolean _ _, m | string _ _, m | identifier _ _, m => by
    cases m <;> simp [alike, mapNotes]
  | unary _ op e, m => by
    cases m
    case unary _ op' e' => simp [alike, mapNotes, alike_iff_mapNotes e e']
    all_goals simp [alike, mapNotes]
  | binary _ op l r, m => by
    cases m
    case binary _ op' l' r' =>
      simp [alike, mapNotes, alike_iff_mapNotes l l', alike_iff_mapNotes r r']
    all_goals simp [alike, mapNotes]
  | conditional _ c t e, m => by
    cases m
    case conditional _ c' t' e' =>
      simp [alike, mapNotes, alike_iff_mapNotes c c', alike_iff_mapNotes t t',
        alike_iff_mapNotes e e']
    all_goals simp [alike, mapNotes]
  | function _ ps b, m => by
    cases m
    case function _ ps' b' =>
      simp [alike, mapNotes, ident_alikeAll_iff, alike_iff_mapNotes b b']
    all_goals simp [alike, mapNotes]
  | call _ f args, m => by
    cases m
    case call _ f' args' =>
      simp [alike, mapNotes, alike_iff_mapNotes f f', alikeAll_iff_mapNotes args args']
    all_goals simp [alike, mapNotes]
  | array _ es, m => by
    cases m
    case array _ es' => simp [alike, mapNotes, alikeAll_iff_mapNotes es es']
    all_goals simp [alike, mapNotes]
  | index _ l i, m => by
    cases m
    case index _ l' i' =>
      simp [alike, mapNotes, alike_iff_mapNotes l l', alike_iff_mapNotes i i']
    all_goals simp [alike, mapNotes]
  | map _ ps, m => by
    cases m
    case map _ ps' => simp [alike, mapNotes, alikePairs_iff_mapNotes ps ps']
    all_goals simp [alike, mapNotes]

theorem alikeAll_iff_mapNotes : ∀ (ns : List (Node α)) (ms : List (Node β)),
    alikeAll ns ms = true ↔ mapNotesAll (fun _ => ()) ns = mapNotesAll (fun _ => ()) ms
  | [], ms => by cases ms <;> simp [alikeAll, mapNotesAll]
  | n :: ns, [] => by simp [alikeAll, mapNotesAll]
  | n :: ns, m :: ms => by
    simp [alikeAll, mapNotesAll, alike_iff_mapNotes n m, alikeAll_iff_mapNotes ns ms]

theorem alikePairs_iff_mapNotes : ∀ (ns : List (Node α × Node α)) (ms : List (Node β × Node β)),
    alikePairs ns ms = true ↔ mapNotesPairs (fun _ => ()) ns = mapNotesPairs (fun _ => ()) ms
  | [], ms => by cases ms <;> simp [alikePairs, mapNotesPairs]
  | (k, v) :: ns, [] => by simp [alikePairs, mapNotesPairs]
  | (k, v) :: ns, (k', v') :: ms => by
    simp [alikePairs, mapNotesPairs, alike_iff_mapNotes k k', alike_iff_mapNotes v v',
      alikePairs_iff_mapNotes ns ms, and_assoc]

end

/-- **Structural equality.** Two trees are alike exactly when they are equal without their notes. -/
theorem alike_iff (n : Node α) (m : Node β) : alike n m = true ↔ n.strip = m.strip :=
  alike_iff_mapNotes n m

end Node

end SepiaLang
