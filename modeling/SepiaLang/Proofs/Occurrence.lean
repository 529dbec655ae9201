import SepiaLang.Eval.Stop

/-!
# What occurs in values and stores

A value may have others in it: the elements of an array, the keys and values of a map, the value
that is on its way out. Which types occur in a store decides what a program can ever see.

* `Value.PartOf`, `Store.Holds`: a value occurs in another one, or in a binding of a scope.
* `Value.Free`, `Store.Free`, `Stop.Free`: no value of certain types occurs there.
* `Inner`: types that only the evaluation itself deals in, so that literals and operations never
  make a value of them.
* `Store.holds_set`, `Store.holds_addScope`, `Store.holds_of_get?`: what the scopes come to hold.
-/

namespace SepiaLang

/-- The first value occurs in the second one, at any depth. -/
inductive Value.PartOf : Value → Value → Prop
  | self (v : Value) : PartOf v v
  | element {w v : Value} {id : Nat} {elements : List Value} (h : v ∈ elements) (hw : PartOf w v) :
      PartOf w (.array id elements)
  | key {w : Value} {id : Nat} {entry : Entry Value} {entries : List (Entry Value)}
      (h : entry ∈ entries) (hw : PartOf w entry.key) : PartOf w (.map id entries)
  | value {w : Value} {id : Nat} {entry : Entry Value} {entries : List (Entry Value)}
      (h : entry ∈ entries) (hw : PartOf w entry.value) : PartOf w (.map id entries)
  | returned {w v : Value} (hw : PartOf w v) : PartOf w (.returned v)

/-- The value has no parts but itself and is not an error. -/
def Value.atomic : Value → Bool
  | integer _ | boolean _ | null | string .. | function .. | native _ => true
  | array .. | map .. | returned _ | error .. => false

/-- The value occurs in a binding of one of the scopes. -/
def Store.Holds (s : Store) (v : Value) : Prop :=
  ∃ (i : Nat) (scope : Scope), s.scopes[i]? = some scope ∧
    ∃ binding ∈ scope.bindings, v.PartOf binding.2

section Free

variable (bad : ValueType → Prop)

/-- No value of a `bad` type occurs in the value. -/
def Value.Free (v : Value) : Prop := ∀ w : Value, w.PartOf v → ¬ bad w.type

/-- No value of a `bad` type occurs in a binding. -/
def Store.Free (s : Store) : Prop := ∀ w : Value, s.Holds w → ¬ bad w.type

/-- No value of a `bad` type occurs in the value that is on its way out. -/
def Stop.Free : Stop → Prop
  | .returning v => v.Free bad
  | _ => True

/-- Types that only the evaluation itself deals in: that of values on their way out, and perhaps
that of errors. -/
structure Inner : Prop where
  returned : bad .returned
  only : ∀ t, bad t → t = .returned ∨ t = .error

end Free

theorem inner_returned : Inner (· = .returned) := ⟨rfl, fun _ => Or.inl⟩

theorem inner_returned_error : Inner fun t => t = .returned ∨ t = .error := ⟨Or.inl rfl, fun _ => id⟩

variable {bad : ValueType → Prop}

/-! ## Values -/

theorem Value.Free.type {v : Value} (h : v.Free bad) : ¬ bad v.type := h v (.self v)

namespace Inner

/-- A value without parts is of another type. -/
theorem free_of_atomic (hb : Inner bad) {v : Value} (h : v.atomic = true) : v.Free bad := by
  intro w hw hw'
  cases hw with
  | self =>
    rcases hb.only _ hw' with ht | ht
    · cases v <;> cases ht
      cases h
    · cases v <;> cases ht
      cases h
  | element | key | value | returned => cases h

/-- An array is as free as its elements. -/
theorem array_iff (hb : Inner bad) {id : Nat} {elements : List Value} :
    (Value.array id elements).Free bad ↔ ∀ v ∈ elements, v.Free bad := by
  constructor
  · intro h v hv w hw
    exact h w (.element hv hw)
  · intro h w hw
    cases hw with
    | self => exact fun hw' => (hb.only _ hw').elim nofun nofun
    | element hv hw => exact h _ hv w hw

/-- A map is as free as its keys and values. -/
theorem map_iff (hb : Inner bad) {id : Nat} {entries : List (Entry Value)} :
    (Value.map id entries).Free bad ↔ ∀ e ∈ entries, e.key.Free bad ∧ e.value.Free bad := by
  constructor
  · intro h e he
    exact ⟨fun w hw => h w (.key he hw), fun w hw => h w (.value he hw)⟩
  · intro h w hw
    cases hw with
    | self => exact fun hw' => (hb.only _ hw').elim nofun nofun
    | key he hw => exact (h _ he).1 w hw
    | value he hw => exact (h _ he).2 w hw

end Inner

/-! ## Stores -/

/-- Only the scopes matter. -/
theorem Store.holds_congr {s s' : Store} (hs : s'.scopes = s.scopes) (w : Value) :
    s'.Holds w ↔ s.Holds w := by
  unfold Store.Holds
  rw [hs]

theorem Store.Free.of_scopes {s s' : Store} (h : s.Free bad) (hs : s'.scopes = s.scopes) :
    s'.Free bad := fun w hw => h w ((Store.holds_congr hs w).1 hw)

/-- Binding a name brings in nothing but its value. -/
theorem Store.holds_set {s : Store} {v w : Value} {i : Nat} {name : String}
    (h : ({ s with scopes := s.scopes.set i name v } : Store).Holds w) : w.PartOf v ∨ s.Holds w := by
  obtain ⟨j, scope, hj, b, hb, hw⟩ := h
  rcases Scopes.cases_set hj with hj | ⟨old, hold, rfl⟩
  · exact Or.inr ⟨j, scope, hj, b, hb, hw⟩
  · rcases Assoc.eq_or_mem_of_mem_put hb with rfl | hb
    · exact Or.inl hw
    · exact Or.inr ⟨j, old, hold, b, hb, hw⟩

/-- A new scope has no bindings. -/
theorem Store.holds_addScope {s : Store} {parent : Option Nat} {w : Value}
    (h : (s.addScope parent).2.Holds w) : s.Holds w := by
  obtain ⟨j, scope, hj, b, hb, hw⟩ := h
  rcases Scopes.cases_add hj with hj | ⟨-, rfl⟩
  · exact ⟨j, scope, hj, b, hb, hw⟩
  · exact absurd hb List.not_mem_nil

/-- What a name is bound to is held. -/
theorem Store.holds_of_get? {s : Store} {i : Nat} {name : String} {v w : Value}
    (h : s.scopes.get? i name = some v) (hw : w.PartOf v) : s.Holds w := by
  obtain ⟨j, scope, -, hj, hb⟩ := Scopes.get?_eq_some h
  exact ⟨j, scope, hj, _, hb, hw⟩

/-- Binding a name to a free value. -/
theorem Store.Free.set {s : Store} (h : s.Free bad) {v : Value} (hv : v.Free bad) (i : Nat)
    (name : String) : ({ s with scopes := s.scopes.set i name v } : Store).Free bad :=
  fun w hw => (Store.holds_set hw).elim (hv w) (h w)

/-- Binding a name anew to a free value. -/
theorem Store.Free.update? {s : Store} (h : s.Free bad) {v : Value} (hv : v.Free bad) {i : Nat}
    {name : String} {scopes : Scopes} (hu : s.scopes.update? i name v = some scopes) :
    ({ s with scopes } : Store).Free bad := by
  obtain ⟨j, -, rfl⟩ := Option.map_eq_some_iff.1 hu
  exact h.set hv j name

/-- What a name is bound to is free. -/
theorem Store.Free.get? {s : Store} (h : s.Free bad) {i : Nat} {name : String} {v : Value}
    (hv : s.scopes.get? i name = some v) : v.Free bad := fun w hw => h w (Store.holds_of_get? hv hw)

theorem Store.Free.addScope {s : Store} (h : s.Free bad) (parent : Option Nat) :
    (s.addScope parent).2.Free bad := fun w hw => h w (Store.holds_addScope hw)

/-- A new store holds nothing. -/
theorem holds_start (logging : Bool) (v : Value) : ¬ (Store.start logging).Holds v := by
  rintro ⟨i, scope, hi, b, hb, -⟩
  cases i with
  | zero =>
    cases hi
    exact List.not_mem_nil hb
  | succ i => cases hi

end SepiaLang
