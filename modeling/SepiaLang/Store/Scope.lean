import SepiaLang.Assoc
import SepiaLang.Value.Basic

/-!
# Scopes

A scope binds names to values and may have a parent, in which names are looked up that it does not
bind itself. Scopes are numbered in the order in which they are made, so a parent has a smaller
number than its children, and every look-up ends.

* `Scopes.holder?`: the nearest scope that binds a name.
* `Scopes.get?`, `Scopes.set`, `Scopes.update?`: look-up, binding in one scope, and binding anew
  where the name is bound already.
* `Scope.find?_bind`, `Scopes.getElem?_set`, `Scopes.getElem?_add`: what each of them changes.
  `Scopes.cases_set`, `Scopes.cases_add`: where a scope comes from.
* `Scopes.holder?_closed`: a search upwards stays among scopes whose parents are among them.
-/

namespace SepiaLang

/-- Names with their values, in the order in which they were first bound, and the number of the
parent. -/
structure Scope where
  parent : Option Nat := none
  bindings : List (String × Value) := []

namespace Scope

/-- The value of a name in this scope alone. -/
def find? (s : Scope) (name : String) : Option Value :=
  (s.bindings.find? (·.1 == name)).map (·.2)

/-- The name is bound in this scope itself. -/
def binds (s : Scope) (name : String) : Bool := (s.find? name).isSome

/-- Binds a name in this scope. -/
def bind (s : Scope) (name : String) (value : Value) : Scope :=
  { s with bindings := Assoc.put (·.1 == name) (name, value) s.bindings }

@[simp]
theorem parent_bind (s : Scope) (x : String) (v : Value) : (s.bind x v).parent = s.parent := rfl

/-- Only the name that is bound gets a new value. -/
theorem find?_bind (s : Scope) (x y : String) (v : Value) :
    (s.bind x v).find? y = if x = y then some v else s.find? y := by
  change ((Assoc.put (·.1 == x) (x, v) s.bindings).find? (·.1 == y)).map (·.2) = _
  by_cases h : x = y
  · subst h
    rw [Assoc.find?_put_self (·.1 == x) (x, v) (beq_self_eq_true x), if_pos rfl]
    rfl
  · rw [Assoc.find?_put_of_disjoint (·.1 == x) (·.1 == y) (x, v) (beq_false_of_ne h), if_neg h]
    · rfl
    · intro b hb
      rw [eq_of_beq hb]
      exact beq_false_of_ne h

theorem binds_bind (s : Scope) (x y : String) (v : Value) :
    (s.bind x v).binds y = true ↔ x = y ∨ s.binds y = true := by
  unfold binds
  rw [find?_bind]
  split <;> simp_all

end Scope

/-- All scopes, by number. -/
abbrev Scopes := Array Scope

namespace Scopes

/-- The nearest scope that binds a name: `i` itself, or the first one on the way up from it. -/
def holder? (scopes : Scopes) (name : String) (i : Nat) : Option Nat :=
  match scopes[i]? with
  | none => none
  | some s =>
    if s.binds name then some i
    else
      match s.parent with
      | none => none
      | some p => if p < i then holder? scopes name p else none
termination_by i

/-- The value of a name, seen from scope `i`. -/
def get? (scopes : Scopes) (i : Nat) (name : String) : Option Value := do
  let h ← scopes.holder? name i
  let s ← scopes[h]?
  s.find? name

/-- The name is bound in scope `i` or above. -/
def contains (scopes : Scopes) (i : Nat) (name : String) : Bool := (scopes.get? i name).isSome

/-- Binds a name in scope `i`, whatever is bound above. -/
def set (scopes : Scopes) (i : Nat) (name : String) (value : Value) : Scopes :=
  scopes.modify i (·.bind name value)

/-- Binds a name anew in the nearest scope that binds it, seen from scope `i`. -/
def update? (scopes : Scopes) (i : Nat) (name : String) (value : Value) : Option Scopes :=
  (scopes.holder? name i).map fun h => scopes.set h name value

/-- Adds a scope. Its number is the number of scopes before. -/
def add (scopes : Scopes) (parent : Option Nat) : Scopes := scopes.push { parent }

@[simp]
theorem size_set (scopes : Scopes) (i : Nat) (x : String) (v : Value) :
    (scopes.set i x v).size = scopes.size := Array.size_modify

@[simp]
theorem size_add (scopes : Scopes) (parent : Option Nat) :
    (scopes.add parent).size = scopes.size + 1 := Array.size_push _

theorem getElem?_set (scopes : Scopes) (i j : Nat) (x : String) (v : Value) :
    (scopes.set i x v)[j]? = if i = j then scopes[j]?.map (·.bind x v) else scopes[j]? := by
  unfold set
  rw [Array.getElem?_modify]

theorem getElem?_add (scopes : Scopes) (parent : Option Nat) (j : Nat) :
    (scopes.add parent)[j]? = if j = scopes.size then some { parent } else scopes[j]? :=
  Array.getElem?_push

/-- A scope is as it was, or has the name bound in it. -/
theorem cases_set {scopes : Scopes} {i j : Nat} {x : String} {v : Value} {s : Scope}
    (h : (scopes.set i x v)[j]? = some s) :
    scopes[j]? = some s ∨ ∃ old, scopes[j]? = some old ∧ s = old.bind x v := by
  rw [getElem?_set] at h
  split at h
  · obtain ⟨old, hold, rfl⟩ := Option.map_eq_some_iff.1 h
    exact Or.inr ⟨old, hold, rfl⟩
  · exact Or.inl h

/-- A scope was there before, or is the new one. -/
theorem cases_add {scopes : Scopes} {parent : Option Nat} {j : Nat} {s : Scope}
    (h : (scopes.add parent)[j]? = some s) :
    scopes[j]? = some s ∨ j = scopes.size ∧ s = { parent } := by
  rw [getElem?_add] at h
  split at h
  · next hj =>
    cases h
    exact Or.inr ⟨hj, rfl⟩
  · exact Or.inl h

/-- A name is bound in its holder. -/
theorem binds_holder? {scopes : Scopes} {x : String} {i h : Nat} (hh : scopes.holder? x i = some h) :
    ∃ s, scopes[h]? = some s ∧ s.binds x = true := by
  fun_induction holder? scopes x i with
  | case1 => cases hh
  | case2 i s hs hx =>
    cases hh
    exact ⟨s, hs, hx⟩
  | case3 => cases hh
  | case4 _ _ _ _ _ _ _ ih => exact ih hh
  | case5 => cases hh

/-- A search upwards stays among scopes whose parents are among them. -/
theorem holder?_closed {scopes : Scopes} {x : String} {P : Nat → Prop}
    (hP : ∀ i s p, P i → scopes[i]? = some s → s.parent = some p → P p) {i h : Nat} (hi : P i)
    (hh : scopes.holder? x i = some h) : P h := by
  fun_induction holder? scopes x i with
  | case1 => cases hh
  | case2 =>
    cases hh
    exact hi
  | case3 => cases hh
  | case4 i s hs _ p hp _ ih => exact ih (hP i s p hi hs hp) hh
  | case5 => cases hh

/-- What is found for a name is bound in its holder. -/
theorem get?_eq_some {scopes : Scopes} {x : String} {i : Nat} {v : Value}
    (h : scopes.get? i x = some v) : ∃ j s, scopes.holder? x i = some j ∧ scopes[j]? = some s ∧
      (x, v) ∈ s.bindings := by
  unfold get? at h
  obtain ⟨j, hj, h⟩ := Option.bind_eq_some_iff.1 h
  obtain ⟨s, hs, h⟩ := Option.bind_eq_some_iff.1 h
  obtain ⟨⟨y, w⟩, hb, rfl⟩ := Option.map_eq_some_iff.1 h
  have hy : y = x := by simpa using List.find?_some hb
  subst hy
  exact ⟨j, s, hj, hs, List.mem_of_find?_eq_some hb⟩

end Scopes

end SepiaLang
