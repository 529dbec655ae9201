import SepiaLang.Proofs.Scopes.Growth

/-!
# Chains of scopes

However scopes are made and names bound in them, looking a name up is finding the nearest scope on the
chain of parents that binds it. So it can be said for every scope what it sees of a binding that is made
in another one.

* `Scopes.Forest`: scopes as they come about.
* `Scopes.Reaches`: the chain comes to a scope before it comes to any other that binds the name.
* `Scopes.Forest.get?_of_search`: a look-up finds what the holder binds.
* `Scopes.Forest.get?_set_of_reaches`, `Scopes.Forest.get?_set_of_not_reaches`,
  `Scopes.Forest.get?_update`: who sees a binding.
* **`nested_maps`**: look-up, binding and binding anew, seen from every scope.
-/

namespace SepiaLang

namespace Scopes

/-- Binds a name anew in the nearest scope that binds it. Tells whether there is one. -/
def update (scopes : Scopes) (i : Nat) (x : String) (v : Value) : Bool × Scopes :=
  match scopes.update? i x v with
  | some scopes' => (true, scopes')
  | none => (false, scopes)

/-- Scopes that were made and changed one after the other, each without a parent or as the child of one
that was there. -/
inductive Forest : Scopes → Prop
  | empty : Forest #[]
  | root {scopes : Scopes} (h : Forest scopes) : Forest (scopes.add none)
  | child {scopes : Scopes} {i : Nat} (h : Forest scopes) (hi : i < scopes.size) :
      Forest (scopes.add (some i))
  | set {scopes : Scopes} {i : Nat} (h : Forest scopes) (hi : i < scopes.size) (x : String) (v : Value) :
      Forest (scopes.set i x v)
  | update {scopes : Scopes} {i : Nat} (h : Forest scopes) (hi : i < scopes.size) (x : String)
      (v : Value) : Forest (scopes.update i x v).2

/-- The chain of parents of the first scope comes to the second one, and none of the scopes before binds
the name. -/
inductive Reaches (scopes : Scopes) (x : String) : Nat → Nat → Prop
  | here (i : Nat) : Reaches scopes x i i
  | up {t p i : Nat} {scope : Scope} (ht : scopes[t]? = some scope) (hx : scope.binds x = false)
      (hp : scope.parent = some p) (h : Reaches scopes x p i) : Reaches scopes x t i

/-- What a scope itself binds a name to. -/
def bound? (scopes : Scopes) (x : String) (i : Nat) : Option Value := scopes[i]?.bind (·.find? x)

variable {scopes scopes' : Scopes} {x y : String} {i h t : Nat} {v : Value}

/-! ## Chains -/

/-- Parents come before their children. -/
theorem Forest.parent_lt (hf : scopes.Forest) :
    ∀ {i p : Nat} {scope : Scope}, scopes[i]? = some scope → scope.parent = some p → p < i := by
  -- binding a name anywhere leaves the parents as they are
  have hset {scopes : Scopes} (j : Nat) (x : String) (v : Value)
      (ih : ∀ {i p : Nat} {scope : Scope}, scopes[i]? = some scope → scope.parent = some p → p < i)
      {i p : Nat} {scope : Scope} (hi : (scopes.set j x v)[i]? = some scope)
      (hp : scope.parent = some p) : p < i := by
    rcases cases_set hi with hi | ⟨old, hold, rfl⟩
    · exact ih hi hp
    · exact ih hold hp
  induction hf with
  | empty => intro i p scope hi; cases hi
  | root _ ih =>
    intro i p scope hi hp
    rcases cases_add hi with hi | ⟨-, rfl⟩
    · exact ih hi hp
    · cases hp
  | child _ hlt ih =>
    intro i p scope hi hp
    rcases cases_add hi with hi | ⟨rfl, rfl⟩
    · exact ih hi hp
    · cases hp
      exact hlt
  | set _ _ x v ih => exact hset _ x v ih
  | @update scopes j _ _ x v ih =>
    intro i p scope
    unfold Scopes.update update?
    cases scopes.holder? x j with
    | none => exact ih
    | some h => exact hset h x v ih

/-- Every search from a scope that is there ends. -/
theorem Forest.search (hf : scopes.Forest) (x : String) (hi : i < scopes.size) :
    scopes.Search x i (scopes.holder? x i) := search_holder? hf.parent_lt x i hi

/-- A search ends with what `holder?` finds. -/
theorem Forest.holder?_of_search (hf : scopes.Forest) {result : Option Nat}
    (hs : scopes.Search x i result) : scopes.holder? x i = result := by
  induction hs with
  | found hi hx =>
    rw [holder?, hi]
    exact if_pos hx
  | missing hi hx hp =>
    rw [holder?, hi]
    simp [hx, hp]
  | up hi hx hp _ ih =>
    have hlt := hf.parent_lt hi hp
    rw [holder?, hi]
    simp [hx, hp, hlt, ih]

/-- **A look-up finds what the holder binds**, and nothing if there is no holder. -/
theorem Forest.get?_of_search (hf : scopes.Forest) {result : Option Nat}
    (hs : scopes.Search x i result) : scopes.get? i x = result.bind (scopes.bound? x) := by
  rw [get?, hf.holder?_of_search hs]
  rfl

/-- What a scope binds is known from the scope. -/
theorem bound?_eq_some {scope : Scope} (hi : scopes[i]? = some scope) :
    scopes.bound? x i = scope.find? x := by
  rw [bound?, hi]
  rfl

/-- A search that ends at a scope has come to it, and the scope binds the name. -/
theorem search_some_iff :
    scopes.Search x t (some h) ↔ scopes.Reaches x t h ∧ ∃ scope, scopes[h]? = some scope ∧
      scope.binds x = true := by
  constructor
  · intro hs
    generalize hresult : some h = result at hs
    induction hs with
    | found hi hx =>
      cases hresult
      exact ⟨.here h, _, hi, hx⟩
    | missing => cases hresult
    | up hi hx hp _ ih =>
      obtain ⟨hreach, hbinds⟩ := ih hresult
      exact ⟨.up hi hx hp hreach, hbinds⟩
  · rintro ⟨hreach, scope, hscope, hx⟩
    induction hreach with
    | here => exact .found hscope hx
    | up ht hnot hp _ ih => exact .up ht hnot hp (ih hscope)

/-- A search ends in one way only. -/
theorem Forest.search_unique (hf : scopes.Forest) {result result' : Option Nat}
    (hs : scopes.Search x i result) (hs' : scopes.Search x i result') : result = result' :=
  (hf.holder?_of_search hs).symm.trans (hf.holder?_of_search hs')

theorem Forest.search_cases (hf : scopes.Forest) (x : String) (hi : i < scopes.size) :
    scopes.Search x i none ∨ ∃ h, scopes.Search x i (some h) := by
  have hsearch := hf.search x hi
  cases hholder : scopes.holder? x i with
  | none => exact .inl (hholder ▸ hsearch)
  | some h => exact .inr ⟨h, hholder ▸ hsearch⟩

/-- A name is bound if its search ends at a scope. -/
theorem Forest.contains_of_search (hf : scopes.Forest) {result : Option Nat}
    (hs : scopes.Search x i result) : scopes.contains i x = result.isSome := by
  rw [contains, hf.get?_of_search hs]
  cases result with
  | none => rfl
  | some h =>
    obtain ⟨-, scope, hscope, hbinds⟩ := search_some_iff.1 hs
    rw [Option.bind_some, bound?_eq_some hscope]
    exact hbinds

/-! ## Who sees a binding -/

/-- A search that comes across the same bindings of the name, in scopes with the same parents, comes to
the same. -/
theorem Search.congr {result : Option Nat} (hs : scopes.Search y t result)
    (hsame : ∀ j, scopes.Reaches y t j → ∀ scope, scopes[j]? = some scope →
      ∃ scope', scopes'[j]? = some scope' ∧ scope'.parent = scope.parent ∧
        scope'.find? y = scope.find? y) : scopes'.Search y t result := by
  induction hs with
  | @found t scope ht hx =>
    obtain ⟨scope', ht', -, hfind⟩ := hsame t (.here t) scope ht
    exact .found ht' (by rwa [Scope.binds, hfind])
  | @missing t scope ht hx hp =>
    obtain ⟨scope', ht', hparent, hfind⟩ := hsame t (.here t) scope ht
    exact .missing ht' (by rwa [Scope.binds, hfind]) (hparent.trans hp)
  | @up t p scope result ht hx hp _ ih =>
    obtain ⟨scope', ht', hparent, hfind⟩ := hsame t (.here t) scope ht
    exact .up ht' (by rwa [Scope.binds, hfind]) (hparent.trans hp)
      (ih fun j hj => hsame j (.up ht hx hp hj))

/-- **Whoever comes to the scope before any other that binds the name sees the new binding.** -/
theorem Forest.get?_set_of_reaches (hf : scopes.Forest) (hi : i < scopes.size) (v : Value)
    (hreach : scopes.Reaches x t i) : (scopes.set i x v).get? t x = some v := by
  have hset : (scopes.set i x v)[i]? = some ((scopes[i]).bind x v) := by
    rw [getElem?_set, if_pos rfl, Array.getElem?_eq_getElem hi]
    rfl
  have hbinds : ((scopes[i]).bind x v).binds x = true := (Scope.binds_bind _ _ _ _).2 (.inl rfl)
  have hsearch : (scopes.set i x v).Search x t (some i) := by
    induction hreach with
    | here => exact .found hset hbinds
    | @up t p i scope ht hx hp _ ih =>
      by_cases hti : i = t
      · subst hti
        exact .found hset hbinds
      · exact .up (by rw [getElem?_set, if_neg hti, ht]) hx hp (ih hi hset hbinds)
  rw [(hf.set hi x v).get?_of_search hsearch, Option.bind_some, bound?_eq_some hset,
    Scope.find?_bind, if_pos rfl]

/-- **Nobody else sees it**, and no other name is seen differently. -/
theorem Forest.get?_set_of_not_reaches (hf : scopes.Forest) (hi : i < scopes.size) (v : Value)
    (ht : t < scopes.size) (hnot : ¬(y = x ∧ scopes.Reaches x t i)) :
    (scopes.set i x v).get? t y = scopes.get? t y := by
  have hsearch := hf.search y ht
  have hsame : ∀ j, scopes.Reaches y t j → ∀ scope, scopes[j]? = some scope →
      ∃ scope', (scopes.set i x v)[j]? = some scope' ∧ scope'.parent = scope.parent ∧
        scope'.find? y = scope.find? y := by
    intro j hj scope hscope
    rw [getElem?_set, hscope]
    by_cases hij : i = j
    · subst hij
      have hxy : x ≠ y := fun hxy => hnot ⟨hxy.symm, hxy ▸ hj⟩
      refine ⟨scope.bind x v, if_pos rfl, rfl, ?_⟩
      rw [Scope.find?_bind, if_neg hxy]
    · exact ⟨scope, if_neg hij, rfl, rfl⟩
  rw [(hf.set hi x v).get?_of_search (hsearch.congr hsame), hf.get?_of_search hsearch]
  -- the holder, if there is one, binds the name as before
  cases hholder : scopes.holder? y t with
  | none => rfl
  | some h =>
    obtain ⟨hreach, scope, hscope, -⟩ := search_some_iff.1 (hholder ▸ hsearch)
    obtain ⟨scope', hscope', -, hfind⟩ := hsame h hreach scope hscope
    rw [Option.bind_some, Option.bind_some, bound?_eq_some hscope', bound?_eq_some hscope, hfind]

/-! ## Binding anew -/

theorem Forest.update_of_search (hf : scopes.Forest) (hs : scopes.Search x i (some h)) (v : Value) :
    scopes.update i x v = (true, scopes.set h x v) := by
  rw [Scopes.update, update?, hf.holder?_of_search hs]
  rfl

theorem Forest.update_of_search_none (hf : scopes.Forest) (hs : scopes.Search x i none) (v : Value) :
    scopes.update i x v = (false, scopes) := by
  rw [Scopes.update, update?, hf.holder?_of_search hs]
  rfl

theorem Forest.update_eq_true_iff (hf : scopes.Forest) (hi : i < scopes.size) (x : String) (v : Value) :
    (scopes.update i x v).1 = true ↔ ∃ h, scopes.Search x i (some h) := by
  rcases hf.search_cases x hi with hnone | ⟨h, hs⟩
  · rw [hf.update_of_search_none hnone]
    refine ⟨fun hfalse => absurd hfalse Bool.false_ne_true, ?_⟩
    rintro ⟨h, hs⟩
    cases hf.search_unique hs hnone
  · rw [hf.update_of_search hs]
    exact ⟨fun _ => ⟨h, hs⟩, fun _ => rfl⟩

/-- **Whoever has the same holder sees the new value, and nobody else.** -/
theorem Forest.get?_update (hf : scopes.Forest) (hs : scopes.Search x i (some h)) (v : Value)
    (ht : t < scopes.size) (y : String) :
    (y = x ∧ scopes.Search x t (some h) → (scopes.update i x v).2.get? t y = some v) ∧
      (¬(y = x ∧ scopes.Search x t (some h)) →
        (scopes.update i x v).2.get? t y = scopes.get? t y) := by
  obtain ⟨-, scope, hscope, hbinds⟩ := search_some_iff.1 hs
  have hh : h < scopes.size := (Array.getElem?_eq_some_iff.1 hscope).1
  rw [hf.update_of_search hs, search_some_iff]
  refine ⟨?_, fun hnot => hf.get?_set_of_not_reaches hh v ht fun ⟨hy, hreach⟩ => ?_⟩
  · rintro ⟨rfl, hreach, -⟩
    exact hf.get?_set_of_reaches hh v hreach
  · exact hnot ⟨hy, hreach, scope, hscope, hbinds⟩

end Scopes

open Scopes

/-- **Scopes are nested maps.** Let scopes be made and names be bound in them, one after the other, and let
`i` be one of the scopes.

* The search for a name from `i` upwards ends in one way only. If it ends at a scope, the name is bound
  and has the value that it has there, and otherwise it has none.
* If a name is bound in `i`, the scopes whose chain comes to `i` before it comes to another scope that
  binds the name see the new value. Nothing else that is looked up anywhere changes.
* If a name is bound anew, seen from `i`, and its search ends at a scope, the scopes from which it ends
  there see the new value, and nothing else that is looked up anywhere changes. Otherwise all scopes stay
  as they are. -/
theorem nested_maps {scopes : Scopes} (hf : scopes.Forest) {i : Nat} (hi : i < scopes.size) :
    (∀ y, ∃ holder, (∀ result, scopes.Search y i result ↔ result = holder) ∧
      scopes.get? i y = holder.bind (scopes.bound? y) ∧ scopes.contains i y = holder.isSome) ∧
    ∀ (x : String) (v : Value),
      (∀ (t : Nat) (y : String), t < scopes.size →
        (y = x ∧ scopes.Reaches x t i → (scopes.set i x v).get? t y = some v) ∧
        (¬(y = x ∧ scopes.Reaches x t i) → (scopes.set i x v).get? t y = scopes.get? t y)) ∧
      ((scopes.update i x v).1 = true ↔ ∃ h, scopes.Search x i (some h)) ∧
      (∀ (h t : Nat) (y : String), scopes.Search x i (some h) → t < scopes.size →
        (y = x ∧ scopes.Search x t (some h) → (scopes.update i x v).2.get? t y = some v) ∧
        (¬(y = x ∧ scopes.Search x t (some h)) →
          (scopes.update i x v).2.get? t y = scopes.get? t y)) ∧
      ((¬∃ h, scopes.Search x i (some h)) → scopes.update i x v = (false, scopes)) := by
  refine ⟨fun y => ?_, fun x v => ⟨fun t y ht => ⟨?_, hf.get?_set_of_not_reaches hi v ht⟩,
    hf.update_eq_true_iff hi x v, fun h t y hs ht => hf.get?_update hs v ht y, fun hnone => ?_⟩⟩
  · have hsearch := hf.search y hi
    refine ⟨scopes.holder? y i, fun result => ⟨fun hs => hf.search_unique hs hsearch, ?_⟩,
      hf.get?_of_search hsearch, hf.contains_of_search hsearch⟩
    rintro rfl
    exact hsearch
  · rintro ⟨rfl, hreach⟩
    exact hf.get?_set_of_reaches hi v hreach
  · exact hf.update_of_search_none ((hf.search_cases x hi).resolve_right hnone) v

/-- Three scopes inside each other, of which the outermost and the innermost one bind the name: what is bound
in the middle, or anew from there, does not show in the innermost one. -/
theorem nested_maps_shadowed :
    let scopes : Scopes := ((((add #[] none).add (some 0)).add (some 1)).set 0 "x" .null).set 2 "x" .null
    scopes.Forest ∧ (scopes.set 1 "x" (.integer 7)).get? 1 "x" = some (.integer 7) ∧
      (scopes.set 1 "x" (.integer 7)).get? 2 "x" = scopes.get? 2 "x" ∧
      (scopes.update 1 "x" (.integer 7)).1 = true ∧
      (scopes.update 1 "x" (.integer 7)).2.get? 0 "x" = some (.integer 7) ∧
      (scopes.update 1 "x" (.integer 7)).2.get? 2 "x" = scopes.get? 2 "x" ∧
      scopes.update 1 "y" (.integer 7) = (false, scopes) := by
  intro scopes
  have hf : scopes.Forest :=
    ((((Forest.empty.root).child (by decide)).child (by decide)).set (by decide) "x" .null).set
      (by decide) "x" .null
  have hroot : scopes.Search "x" 0 (some 0) := .found rfl rfl
  have hmiddle : scopes.Search "x" 1 (some 0) := .up rfl rfl rfl hroot
  have hshadow (i : Nat) (hi : i ≠ 2) : ¬scopes.Reaches "x" 2 i := by
    rintro (_ | ⟨hscope, hx, -, -⟩)
    · exact hi rfl
    · cases hscope
      cases hx
  obtain ⟨-, hbind⟩ := nested_maps hf (i := 1) (by decide)
  obtain ⟨hset, hupdate, hanew, -⟩ := hbind "x" (.integer 7)
  obtain ⟨-, -, -, hmissing⟩ := hbind "y" (.integer 7)
  refine ⟨hf, (hset 1 "x" (by decide)).1 ⟨rfl, .here 1⟩,
    (hset 2 "x" (by decide)).2 fun h => hshadow 1 (by decide) h.2, hupdate.2 ⟨0, hmiddle⟩,
    (hanew 0 0 "x" hmiddle (by decide)).1 ⟨rfl, hroot⟩,
    (hanew 0 2 "x" hmiddle (by decide)).2 fun h => ?_, hmissing ?_⟩
  · exact hshadow 0 (by decide) (search_some_iff.1 h.2).1
  · rintro ⟨h, hs⟩
    have hnone : scopes.Search "y" 1 none := .up rfl rfl rfl (.missing rfl rfl rfl)
    cases hf.search_unique hs hnone

end SepiaLang
