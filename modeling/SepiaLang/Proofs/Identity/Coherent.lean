import SepiaLang.Proofs.Confined
import SepiaLang.Proofs.Sparing

/-!
# Identities are given out once

Strings, arrays, maps, functions and errors have an identity. Evaluation copies values freely: into
scopes, out of them, into arrays and maps, and onto the way out of a function. All the copies with one
identity are the same value, however, because an identity is never given out a second time.

* `Value.id?`: the identity of a value.
* `Store.Live`: the values in bindings and those at hand. `Store.Coherent`: what is expected of them.
* `Value.From`: a value with nothing new in it.
* `Coheres`: a computation from coherent stores leads to coherent ones, whatever else is at hand.
* `layer_coheres`: a node does so if its parts do. **`eval_coheres`**: every evaluation does so.
-/

namespace SepiaLang

open SepiaLang.Computation

/-! ## Coherent stores -/

/-- The identity of a value that has one. -/
def Value.id? : Value → Option Nat
  | string id _ | array id _ | map id _ | function id .. | error id _ => some id
  | integer _ | boolean _ | null | native _ | returned _ => none

/-- The value is known by its content alone. -/
def Value.plain : Value → Bool
  | integer _ | boolean _ | null | native _ => true
  | string .. | array .. | map .. | function .. | returned _ | error .. => false

/-- The value occurs in a binding, or in one of the values at hand. -/
def Store.Live (s : Store) (vs : List Value) (w : Value) : Prop :=
  s.Holds w ∨ ∃ v ∈ vs, w.PartOf v

/-- The identities of live values have been given out, values with the same identity are the same, and
none is on its way out. -/
structure Store.Coherent (s : Store) (vs : List Value) : Prop where
  id_lt {w : Value} {k : Nat} (hw : s.Live vs w) (hk : w.id? = some k) : k < s.nextId
  unique {u w : Value} {k : Nat} (hu : s.Live vs u) (hw : s.Live vs w) (hk : u.id? = some k)
    (hk' : w.id? = some k) : u = w
  type_ne {w : Value} (hw : s.Live vs w) : w.type ≠ .returned

theorem Value.id?_of_plain {v : Value} (h : v.plain = true) : v.id? = none := by
  cases v with
  | integer | boolean | null | native => rfl
  | string | array | map | function | returned | error => cases h

theorem Value.type_of_plain {v : Value} (h : v.plain = true) : v.type ≠ .returned := by
  rintro ht
  cases v with
  | returned => cases h
  | _ => cases ht

/-- A plain value has no parts but itself. -/
theorem Value.PartOf.eq_of_plain {v w : Value} (h : w.PartOf v) (hv : v.plain = true) : w = v := by
  cases h with
  | self => rfl
  | element | key | value | returned => cases hv

namespace Store

variable {s s' : Store} {vs vs' : List Value}

theorem Live.of_mem {v w : Value} (hv : v ∈ vs) (hw : w.PartOf v) : s.Live vs w := Or.inr ⟨v, hv, hw⟩

theorem Live.mono {w : Value} (h : s.Live vs w) (hvs : vs ⊆ vs') : s.Live vs' w :=
  h.imp_right fun ⟨v, hv, hw⟩ => ⟨v, hvs hv, hw⟩

theorem live_append {w : Value} : s.Live (vs' ++ vs) w ↔ (∃ v ∈ vs', w.PartOf v) ∨ s.Live vs w := by
  constructor
  · rintro (hw | ⟨v, hv, hw⟩)
    · exact Or.inr (Or.inl hw)
    · rcases List.mem_append.1 hv with hv | hv
      · exact Or.inl ⟨v, hv, hw⟩
      · exact Or.inr (.of_mem hv hw)
  · rintro (⟨v, hv, hw⟩ | hw)
    · exact .of_mem (List.mem_append_left _ hv) hw
    · exact hw.mono (List.subset_append_right _ _)

namespace Coherent

/-- A new store has nothing in it. -/
theorem start (logging : Bool) : (Store.start logging).Coherent [] := by
  have hnone {w : Value} (hw : (Store.start logging).Live [] w) : False :=
    hw.elim (holds_start logging w) fun ⟨_, hv, _⟩ => List.not_mem_nil hv
  exact ⟨fun hw => (hnone hw).elim, fun hw => (hnone hw).elim, fun hw => (hnone hw).elim⟩

/-- Nothing becomes live but plain values. -/
theorem mono (h : s.Coherent vs) (hid : s.nextId ≤ s'.nextId)
    (hlive : ∀ w, s'.Live vs' w → w.plain = true ∨ s.Live vs w) : s'.Coherent vs' := by
  have live_of_id {w : Value} {k : Nat} (hw : s'.Live vs' w) (hk : w.id? = some k) : s.Live vs w := by
    refine (hlive w hw).resolve_left fun hplain => ?_
    rw [Value.id?_of_plain hplain] at hk
    cases hk
  constructor
  · intro w k hw hk
    exact Nat.lt_of_lt_of_le (h.id_lt (live_of_id hw hk) hk) hid
  · intro u w k hu hw hk hk'
    exact h.unique (live_of_id hu hk) (live_of_id hw hk') hk hk'
  · intro w hw
    exact (hlive w hw).elim Value.type_of_plain h.type_ne

theorem subset (h : s.Coherent vs) (hvs : vs' ⊆ vs) : s.Coherent vs' :=
  h.mono (Nat.le_refl _) fun _ hw => Or.inr (hw.mono hvs)

theorem of_scopes (h : s.Coherent vs) (hs : s'.scopes = s.scopes) (hid : s'.nextId = s.nextId) :
    s'.Coherent vs :=
  h.mono (Nat.le_of_eq hid.symm) fun w hw => Or.inr (hw.imp_left (holds_congr hs w).1)

/-- **A new value.** It gets the next identity, which no live value has. -/
theorem alloc (h : s.Coherent vs) {v : Value} (hv : v.id? = some s.nextId)
    (hparts : ∀ w : Value, w.PartOf v → w = v ∨ w.plain = true ∨ s.Live vs w) :
    ({ s with nextId := s.nextId + 1 } : Store).Coherent (v :: vs) := by
  have hlive {w : Value} (hw : ({ s with nextId := s.nextId + 1 } : Store).Live (v :: vs) w) :
      w = v ∨ w.plain = true ∨ s.Live vs w := by
    rcases hw with hw | ⟨u, hu, hw⟩
    · exact Or.inr (Or.inr (Or.inl ((holds_congr rfl w).1 hw)))
    · rcases List.mem_cons.1 hu with rfl | hu
      · exact hparts w hw
      · exact Or.inr (Or.inr (.of_mem hu hw))
  have hold {w : Value} {k : Nat} (hw : w.plain = true ∨ s.Live vs w) (hk : w.id? = some k) :
      s.Live vs w := by
    refine hw.resolve_left fun hplain => ?_
    rw [Value.id?_of_plain hplain] at hk
    cases hk
  constructor
  · intro w k hw hk
    rcases hlive hw with rfl | hw
    · rw [hv] at hk
      cases hk
      exact Nat.lt_succ_self _
    · exact Nat.lt_succ_of_lt (h.id_lt (hold hw hk) hk)
  · intro u w k hu hw hk hk'
    have hne {x : Value} (hx : x.plain = true ∨ s.Live vs x) (hxk : x.id? = some s.nextId) : False :=
      Nat.lt_irrefl _ (h.id_lt (hold hx hxk) hxk)
    rcases hlive hu with hu | hu <;> rcases hlive hw with hw | hw
    · exact hu.trans hw.symm
    · rw [hu, hv] at hk
      cases hk
      exact (hne hw hk').elim
    · rw [hw, hv] at hk'
      cases hk'
      exact (hne hu hk).elim
    · exact h.unique (hold hu hk) (hold hw hk') hk hk'
  · intro w hw
    rcases hlive hw with rfl | hplain | hw
    · intro ht
      cases w <;> cases ht
      cases hv
    · exact Value.type_of_plain hplain
    · exact h.type_ne hw

end Coherent

end Store

/-! ## Values with nothing new in them -/

/-- What occurs in the value occurs in one of the used ones, or is plain. -/
def Value.From (used : List Value) (v : Value) : Prop :=
  ∀ w : Value, w.PartOf v → w.plain = true ∨ ∃ u ∈ used, w.PartOf u

namespace Value

variable {used used' : List Value} {v : Value}

theorem from_part {u : Value} (hu : u ∈ used) (h : v.PartOf u) : v.From used :=
  fun _ hw => Or.inr ⟨u, hu, hw.trans h⟩

theorem from_mem (h : v ∈ used) : v.From used := from_part h (.self v)

theorem from_plain (h : v.plain = true) : v.From used := fun _ hw => Or.inl (hw.eq_of_plain h ▸ h)

theorem From.mono (h : v.From used) (hused : used ⊆ used') : v.From used' :=
  fun w hw => (h w hw).imp_right fun ⟨u, hu, hw⟩ => ⟨u, hused hu, hw⟩

theorem From.live {s : Store} {vs : List Value} (h : v.From used) (hused : used ⊆ vs) {w : Value}
    (hw : w.PartOf v) : w.plain = true ∨ s.Live vs w :=
  (h w hw).imp_right fun ⟨_, hu, hw⟩ => .of_mem (hused hu) hw

end Value

theorem Store.Coherent.extend {s : Store} {vs given used : List Value} (h : s.Coherent vs)
    (hused : used ⊆ vs) (hgiven : ∀ v ∈ given, v.From used) : s.Coherent (given ++ vs) := by
  refine h.mono (Nat.le_refl _) fun w hw => ?_
  rcases Store.live_append.1 hw with ⟨v, hv, hw⟩ | hw
  · exact (hgiven v hv).live hused hw
  · exact Or.inr hw

/-! ## Computations -/

/-- The value that an evaluation stops with. -/
def Stop.values : Stop → List Value
  | .returning v => [v]
  | .failed _ | .tooDeep | .fault _ => []

variable {α β : Type}

/-- The values at hand after a computation whose results come with the values `given`. -/
def atHand (given : α → List Value) : Except Stop α → List Value
  | .ok a => given a
  | .error e => e.values

/-- The second store may come of the first one: no identity that was given out is free again, and no
scope is gone. -/
structure Store.Precedes (s s' : Store) : Prop where
  nextId_le : s.nextId ≤ s'.nextId
  size_le : s.scopes.size ≤ s'.scopes.size

namespace Store.Precedes

variable {s s₁ s₂ : Store}

theorem refl (s : Store) : s.Precedes s := ⟨Nat.le_refl _, Nat.le_refl _⟩

theorem trans (h : s.Precedes s₁) (h' : s₁.Precedes s₂) : s.Precedes s₂ :=
  ⟨Nat.le_trans h.nextId_le h'.nextId_le, Nat.le_trans h.size_le h'.size_le⟩

end Store.Precedes

/-- **A coherent computation.** Whatever is at hand besides the values that it uses, it leads from a
coherent store to a coherent one, with what it gives at hand as well. -/
def Coheres (used : List Value) (given : α → List Value) (m : Run α) : Prop :=
  ∀ s vs, used ⊆ vs → s.Coherent vs →
    s.Precedes (m s).2 ∧ (m s).2.Coherent (atHand given (m s).1 ++ vs)

/-- The evaluator is coherent. Its values are at hand without the mark that they are on their way
out. -/
def Evaluator.Coheres (ev : Evaluator) : Prop :=
  ∀ n scope, SepiaLang.Coheres [] (fun v => [settle v]) (ev n scope)

/-- The native functions are coherent. -/
def Registry.Coheres (natives : Registry) : Prop :=
  ∀ entry ∈ natives, ∀ args : List Value, SepiaLang.Coheres args (fun v => [v]) (entry.2.call args)

theorem append_subset_append {xs ys : List α} (zs : List α) (h : xs ⊆ ys) : zs ++ xs ⊆ zs ++ ys :=
  List.append_subset.2 ⟨List.subset_append_left _ _, List.subset_append_of_subset_right _ h⟩

namespace Coheres

variable {used used' : List Value} {given : α → List Value} {given' : β → List Value} {m : Run α}
  {f : α → Run β}

theorem pure {a : α} (h : ∀ v ∈ given a, v.From used) : Coheres used given (Pure.pure a) :=
  fun s _ hused hs => ⟨.refl s, hs.extend hused h⟩

theorem throw {e : Stop} (h : ∀ v ∈ e.values, v.From used) : Coheres used given (throw e) :=
  fun s _ hused hs => ⟨.refl s, hs.extend hused h⟩

theorem fail (e : EvalError) : Coheres used given (fail e : Run α) := throw nofun

/-- A computation may be given more than it uses. -/
theorem mono (hm : Coheres used given m) (h : used ⊆ used') : Coheres used' given m :=
  fun s vs hused hs => hm s vs (List.Subset.trans h hused) hs

/-- A computation that gives one plain or used value. -/
theorem one {used : List Value} {v : Value} (h : v.From used) :
    Coheres used (fun v => [v]) (Pure.pure v : Run Value) :=
  pure fun _ hw => List.mem_singleton.1 hw ▸ h

/-- A value that is at hand with its mark, if it has one, is at hand without it. -/
theorem settled {m : Run Value} (hm : Coheres used (fun v => [v]) m) :
    Coheres used (fun v => [settle v]) m := by
  intro s vs hused hs
  obtain ⟨h1, h2⟩ := hm s vs hused hs
  refine ⟨h1, ?_⟩
  cases hx : (m s).1 with
  | error e => rwa [hx] at h2
  | ok v =>
    rw [hx] at h2
    have hv : settle v = v := settle_of_ne fun w hw =>
      h2.type_ne (.of_mem List.mem_cons_self (.self v)) (by rw [hw]; rfl)
    change Store.Coherent _ ([settle v] ++ vs)
    rwa [hv]

/-- **One computation after the other.** -/
theorem bind (hm : Coheres used given m) (hf : ∀ a, Coheres (given a ++ used) given' (f a)) :
    Coheres used given' (m >>= f) := by
  intro s vs hused hs
  obtain ⟨h1, h2⟩ := hm s vs hused hs
  rw [bind_apply]
  rcases hx : m s with ⟨e | a, s'⟩
  · rw [hx] at h1 h2
    exact ⟨h1, h2⟩
  · rw [hx] at h1 h2
    obtain ⟨h3, h4⟩ := hf a s' (given a ++ vs) (append_subset_append _ hused) h2
    refine ⟨h1.trans h3, h4.subset ?_⟩
    exact append_subset_append _ (List.subset_append_right _ _)

/-- After a failure nothing is done. -/
theorem fail_bind (e : EvalError) (f : α → Run β) : Coheres used given' (SepiaLang.fail e >>= f) :=
  fun s vs hused hs => fail (α := β) e s vs hused hs

/-- **A computation whose stops are taken care of.** -/
theorem tryCatch {h : Stop → Run α} (hm : Coheres used given m)
    (hh : ∀ e, Coheres (e.values ++ used) given (h e)) : Coheres used given (tryCatch m h) := by
  intro s vs hused hs
  obtain ⟨h1, h2⟩ := hm s vs hused hs
  rw [tryCatch_apply]
  rcases hx : m s with ⟨e | a, s'⟩
  · rw [hx] at h1 h2
    obtain ⟨h3, h4⟩ := hh e s' (e.values ++ vs) (append_subset_append _ hused) h2
    refine ⟨h1.trans h3, h4.subset ?_⟩
    exact append_subset_append _ (List.subset_append_right _ _)
  · rw [hx] at h1 h2
    exact ⟨h1, h2⟩

/-- What a computation with a result leads to. -/
theorem of_ok {vs : List Value} {s s' : Store} {a : α} (hm : Coheres used given m) (hused : used ⊆ vs)
    (hs : s.Coherent vs) (h : m s = (.ok a, s')) : s.Precedes s' ∧ s'.Coherent (given a ++ vs) := by
  have := hm s vs hused hs
  rwa [h] at this

/-- A computation that looks at the store first. -/
theorem get {f : Store → Run β}
    (h : ∀ s vs, used ⊆ vs → s.Coherent vs →
      s.Precedes (f s s).2 ∧ (f s s).2.Coherent (atHand given' (f s s).1 ++ vs)) :
    Coheres used given' (MonadState.get >>= f) := h

theorem modify {g : Store → Store}
    (h : ∀ s vs, used ⊆ vs → s.Coherent vs → s.Precedes (g s) ∧ (g s).Coherent vs) :
    Coheres used (fun _ => []) (modify g : Run PUnit) := h

theorem forM {g : α → Run PUnit} (hg : ∀ a, Coheres used (fun _ => []) (g a)) :
    ∀ l : List α, Coheres used (fun _ => []) (l.forM g)
  | [] => pure nofun
  | a :: l => bind (hg a) fun _ => forM hg l

end Coheres

/-! ## Steps on the store -/

namespace Store.Coherent

variable {s : Store} {vs : List Value}

/-- A value with nothing new in it is bound. -/
theorem set (h : s.Coherent vs) {v : Value} (hv : v.From vs) (i : Nat) (x : String) :
    ({ s with scopes := s.scopes.set i x v } : Store).Coherent vs := by
  refine h.mono (Nat.le_refl _) fun w hw => ?_
  rcases hw with hw | hw
  · rcases holds_set hw with hw | hw
    · exact hv.live (List.Subset.refl _) hw
    · exact Or.inr (Or.inl hw)
  · exact Or.inr (Or.inr hw)

theorem addScope (h : s.Coherent vs) (parent : Option Nat) : (s.addScope parent).2.Coherent vs :=
  h.mono (Nat.le_refl _) fun _ hw => Or.inr (hw.imp_left holds_addScope)

/-- What is looked up is at hand. -/
theorem get? (h : s.Coherent vs) {i : Nat} {x : String} {v : Value}
    (hv : s.scopes.get? i x = some v) : s.Coherent ([v] ++ vs) := by
  refine h.mono (Nat.le_refl _) fun w hw => Or.inr ?_
  rcases Store.live_append.1 hw with ⟨u, hu, hw⟩ | hw
  · rw [List.mem_singleton.1 hu] at hw
    exact Or.inl (holds_of_get? hv hw)
  · exact hw

end Store.Coherent

theorem Store.precedes_set (s : Store) (i : Nat) (x : String) (v : Value) :
    s.Precedes { s with scopes := s.scopes.set i x v } :=
  ⟨Nat.le_refl _, Nat.le_of_eq (Scopes.size_set ..).symm⟩

section Steps

variable {used : List Value}

theorem coheres_textOrStop (text? : Option String) :
    Coheres used (fun _ => []) (textOrStop text?) := by
  cases text? with
  | none => exact .throw nofun
  | some text => exact .pure nofun

theorem coheres_note (cfg : Config) (level : Nat) (entry : LogEntry) :
    Coheres used (fun _ => []) (note cfg level entry) := by
  unfold note
  split
  · split
    · refine .modify fun s vs _ hs =>
        ⟨⟨?_, ?_⟩, hs.of_scopes (s.write_scopes entry) (s.write_nextId entry)⟩
      · exact Nat.le_of_eq (s.write_nextId entry).symm
      · exact Nat.le_of_eq (congrArg _ (s.write_scopes entry).symm)
    · exact .throw nofun
  · exact .pure nofun

/-- **Making a value** of used ones. -/
theorem coheres_make {make : Nat → Value} (hid : ∀ k, (make k).id? = some k)
    (hparts : ∀ k w, w.PartOf (make k) → w = make k ∨ w.From used) :
    Coheres used (fun v => [v]) (do return make (← freshId)) := by
  intro s vs hused hs
  refine ⟨⟨Nat.le_succ _, Nat.le_refl _⟩, hs.alloc (hid s.nextId) fun w hw => ?_⟩
  exact (hparts s.nextId w hw).imp_right fun h => h.live hused (.self w)

theorem coheres_newString (text : String) : Coheres used (fun v => [v]) (newString text) := by
  refine coheres_make (fun _ => rfl) fun k w hw => ?_
  cases hw
  exact Or.inl rfl

theorem coheres_newError (message : String) : Coheres used (fun v => [v]) (newError message) := by
  refine coheres_make (fun _ => rfl) fun k w hw => ?_
  cases hw
  exact Or.inl rfl

theorem coheres_newFunction (params : List String) (body : Node Unit) (scope : Nat) :
    Coheres used (fun v => [v]) (do return .function (← freshId) params body scope) := by
  refine coheres_make (fun _ => rfl) fun k w hw => ?_
  cases hw
  exact Or.inl rfl

theorem coheres_newArray {elements : List Value} (h : ∀ v ∈ elements, v.From used) :
    Coheres used (fun v => [v]) (newArray elements) := by
  refine coheres_make (fun _ => rfl) fun k w hw => ?_
  cases hw with
  | self => exact Or.inl rfl
  | element hv hw => exact Or.inr fun u hu => h _ hv u (hu.trans hw)

/-- The keys and the values of entries. -/
def entryValues (entries : List (Entry Value)) : List Value := entries.flatMap fun e => [e.key, e.value]

theorem key_mem_entryValues {entries : List (Entry Value)} {e : Entry Value} (h : e ∈ entries) :
    e.key ∈ entryValues entries := List.mem_flatMap.2 ⟨e, h, List.mem_cons_self⟩

theorem value_mem_entryValues {entries : List (Entry Value)} {e : Entry Value} (h : e ∈ entries) :
    e.value ∈ entryValues entries := List.mem_flatMap.2 ⟨e, h, List.mem_cons_of_mem _ List.mem_cons_self⟩

theorem coheres_newMap (entries : List (Entry Value)) :
    Coheres (entryValues entries) (fun v => [v]) (newMap entries) := by
  refine coheres_make (fun _ => rfl) fun k w hw => ?_
  cases hw with
  | self => exact Or.inl rfl
  | key he hw => exact Or.inr (Value.from_part (key_mem_entryValues he) hw)
  | value he hw => exact Or.inr (Value.from_part (value_mem_entryValues he) hw)

theorem coheres_newScope (parent : Option Nat) : Coheres used (fun _ => []) (newScope parent) := by
  intro s vs _ hs
  refine ⟨⟨Nat.le_refl _, ?_⟩, hs.addScope parent⟩
  change s.scopes.size ≤ (s.scopes.add parent).size
  rw [Scopes.size_add]
  exact Nat.le_succ _

theorem coheres_bindName (scope : Nat) (name : String) {v : Value} (hv : v.From used) :
    Coheres used (fun _ => []) (bindName scope name v) :=
  .modify fun s _ hused hs => ⟨s.precedes_set scope name v, hs.set (hv.mono hused) scope name⟩

theorem coheres_assign (cfg : Config) (scope : Nat) (name : String) {v : Value} (hv : v.From used) :
    Coheres used (fun _ => []) (assign cfg scope name v) := by
  refine .get fun s vs hused hs => ?_
  cases hu : s.scopes.update? scope name v with
  | none =>
    have hfail : Coheres used (fun _ => []) (fail (.unbound name) : Run Unit) := .fail _
    exact hfail s vs hused hs
  | some scopes =>
    obtain ⟨j, -, rfl⟩ := Option.map_eq_some_iff.1 hu
    obtain ⟨h1, h2⟩ := coheres_note cfg 2 (.updated name v) _ vs hused (hs.set (hv.mono hused) j name)
    exact ⟨(s.precedes_set j name v).trans h1, h2⟩

theorem coheres_lookUp (cfg : Config) (scope : Nat) (name : String) :
    Coheres used (fun v => [v]) (lookUp cfg scope name) := by
  refine .get fun s vs hused hs => ?_
  cases hv : s.scopes.get? scope name with
  | some v => exact ⟨.refl s, hs.get? hv⟩
  | none =>
    dsimp only
    split
    · exact Coheres.one (Value.from_plain rfl) s vs hused hs
    · exact Coheres.fail _ s vs hused hs

theorem coheres_bindParams (scope : Nat) : ∀ (params : List String) (args : List Value),
    args ⊆ used → Coheres used (fun _ => []) (bindParams scope params args)
  | [], _, _ => .pure nofun
  | _ :: _, [], _ => .pure nofun
  | p :: ps, _ :: vs, h =>
    .bind (coheres_bindName scope p (Value.from_mem (h List.mem_cons_self))) fun _ =>
      coheres_bindParams scope ps vs fun _ hw => h (List.mem_cons_of_mem _ hw)

end Steps

/-! ## Operators and subscripts -/

section Operators

variable {used : List Value}

theorem coheres_applyUnary (cfg : Config) (scope : Nat) (text : String) (target : Node Unit)
    (v : Value) : Coheres used (fun v => [v]) (applyUnary cfg scope text target v) := by
  unfold applyUnary
  split
  · exact .one (Value.from_plain rfl)
  · exact .one (Value.from_plain rfl)
  · dsimp only
    split
    · exact .bind (coheres_assign cfg scope _ (Value.from_plain rfl)) fun _ =>
        .one (Value.from_plain rfl)
    · exact .one (Value.from_plain rfl)
  · exact .fail _

theorem coheres_arith (op : Arith) (a b : Int) : Coheres used (fun _ => []) (op.apply a b) := by
  cases op with
  | add | sub | mul => exact .pure nofun
  | div =>
    change Coheres used _ (if b = 0 then fail .divisionByZero else quotient a b)
    unfold quotient
    split
    · exact .fail _
    · split
      · exact .pure nofun
      · exact .throw nofun

theorem coheres_applyBinary (text : String) (l r : Value) :
    Coheres used (fun v => [v]) (applyBinary text l r) := by
  unfold applyBinary
  split
  · unfold applyIntegers
    split
    · exact .bind (coheres_arith _ _ _) fun _ => .one (Value.from_plain rfl)
    · exact .one (Value.from_plain rfl)
    · exact .fail _
  · split
    · exact .one (Value.from_plain rfl)
    · exact .one (Value.from_plain rfl)
    · unfold applyOthers
      split
      · exact .one (Value.from_plain rfl)
      · exact coheres_newString _
      · split <;> exact .fail _

theorem coheres_keyOf (v : Value) : Coheres used (fun _ => []) (keyOf v) := by
  unfold keyOf
  split
  · exact .pure nofun
  · exact .throw nofun

theorem coheres_subscript {l i : Value} (hl : l ∈ used) :
    Coheres used (fun v => [v]) (subscript l i) := by
  unfold subscript
  split
  · next elements n =>
    split
    · exact .one (Value.from_plain rfl)
    · unfold elementAt
      split
      · next v hv => exact .one (Value.from_part hl (.element (List.mem_of_getElem? hv) (.self v)))
      · exact .throw nofun
  · next entries =>
    dsimp only
    split
    · exact .fail_bind _ _
    · refine .bind (coheres_keyOf i) fun k => .one ?_
      unfold valueAt?
      cases he : entries.find? (hasKey k) with
      | none => exact Value.from_plain rfl
      | some e => exact Value.from_part hl (.value (List.mem_of_find?_eq_some he) (.self e.value))
  · exact .fail _

end Operators

/-! ## Native functions -/

theorem coheres_arg (args : List Value) (i : Nat) :
    Coheres args (fun v => [v]) (Native.arg args i) := by
  unfold Native.arg
  split
  · next hv => exact .one (Value.from_mem (List.mem_of_getElem? hv))
  · exact .throw nofun

/-- The elements of an array at hand are at hand. -/
theorem coheres_arrayArg (name : String) (args : List Value) :
    Coheres args id (Native.arrayArg name args) := by
  refine .bind (coheres_arg args 0) fun v => ?_
  split
  · next elements =>
    exact .pure fun w hw => Value.from_part (List.mem_append_left _ List.mem_cons_self)
      (.element hw (.self w))
  · exact .fail _

theorem coheres_puts (args : List Value) : Coheres args (fun v => [v]) (Native.puts args) := by
  refine .bind (Coheres.forM (fun v => ?_) args) fun _ => .one (Value.from_plain rfl)
  refine .bind (coheres_textOrStop _) fun line => .modify fun s vs _ hs => ?_
  exact ⟨⟨Nat.le_refl _, Nat.le_refl _⟩, hs.of_scopes rfl rfl⟩

/-- **The native functions of the language are coherent.** -/
theorem standard_coheres : standard.Coheres := by
  have from_elements {args elements : List Value} {v : Value} (h : v ∈ elements) :
      v.From (elements ++ args) := Value.from_mem (List.mem_append_left _ h)
  intro entry hentry args
  simp only [standard, List.mem_cons, List.not_mem_nil, or_false] at hentry
  rcases hentry with rfl | rfl | rfl | rfl | rfl | rfl | rfl
  · refine .bind (coheres_arg args 0) fun v => ?_
    split
    · exact .one (Value.from_plain rfl)
    · exact .one (Value.from_plain rfl)
    · exact .one (Value.from_plain rfl)
    · exact .fail _
  · exact coheres_puts args
  · refine .bind (coheres_arrayArg _ args) fun elements => .one ?_
    cases hv : elements.head? with
    | none => exact Value.from_plain rfl
    | some v => exact from_elements (List.mem_of_head? hv)
  · refine .bind (coheres_arrayArg _ args) fun elements => .one ?_
    cases hv : elements.getLast? with
    | none => exact Value.from_plain rfl
    | some v => exact from_elements (List.mem_of_getLast? hv)
  · refine .bind (coheres_arrayArg _ args) fun elements => ?_
    split
    · exact .one (Value.from_plain rfl)
    · exact coheres_newArray fun v hv => from_elements (List.mem_cons_of_mem _ hv)
  · refine .bind (coheres_arrayArg _ args) fun elements => ?_
    refine .bind ((coheres_arg args 1).mono (List.subset_append_right _ _)) fun v => ?_
    refine coheres_newArray fun w hw => Value.from_mem ?_
    rcases List.mem_append.1 hw with hw | hw
    · exact List.mem_append_right _ (List.mem_append_left _ hw)
    · exact List.mem_append_left _ hw
  · exact .bind (coheres_arg args 0) fun _ => coheres_newString _

/-! ## Parts of a node -/

section Parts

variable {ev : Evaluator} (hev : ev.Coheres) (scope : Nat) {used : List Value}
include hev

/-- An evaluation uses nothing that is at hand. -/
theorem Evaluator.Coheres.with (n : Node Unit) (used : List Value) :
    SepiaLang.Coheres used (fun v => [settle v]) (ev n scope) :=
  (hev n scope).mono (List.nil_subset _)

theorem coheres_operand (n : Node Unit) : Coheres used (fun v => [v]) (operand ev n scope) := by
  refine .bind (hev.with scope n used) fun v => ?_
  split
  · next w =>
    refine .throw fun u hu => ?_
    rw [List.mem_singleton.1 hu]
    exact Value.from_mem List.mem_cons_self
  · next h =>
    rw [settle_of_ne h]
    exact .one (Value.from_mem List.mem_cons_self)

theorem coheres_operands (ns : List (Node Unit)) : ∀ {used : List Value},
    Coheres used id (operands ev scope ns) := by
  induction ns with
  | nil => exact .pure nofun
  | cons n ns ih =>
    refine .bind (coheres_operand hev scope n) fun v => .bind ih fun vs => .pure fun w hw => ?_
    refine Value.from_mem ?_
    rcases List.mem_cons.1 hw with rfl | hw
    · exact List.mem_append_right _ List.mem_cons_self
    · exact List.mem_append_left _ hw

theorem coheres_mapEntries : ∀ (pairs : List (Node Unit × Node Unit))
    (entries : List (Entry Value)) {used : List Value}, entryValues entries ⊆ used →
      Coheres used entryValues (mapEntries ev scope entries pairs)
  | [], _, _, h => .pure fun _ hv => Value.from_mem (h hv)
  | (k, v) :: pairs, entries, used, h => by
    refine .bind (coheres_operand hev scope k) fun key => ?_
    dsimp only
    split
    · exact .fail_bind _ _
    · refine .bind (coheres_operand hev scope v) fun value => ?_
      refine .bind (coheres_keyOf key) fun i => coheres_mapEntries pairs _ fun w hw => ?_
      -- an entry is the new one or an old one
      obtain ⟨e, he, hw⟩ := List.mem_flatMap.1 hw
      rcases Assoc.eq_or_mem_of_mem_put he with rfl | he
      · simp only [List.mem_cons, List.not_mem_nil, or_false] at hw
        rcases hw with rfl | rfl <;> simp
      · have hw := h (List.mem_flatMap.2 ⟨e, he, hw⟩)
        simp [hw]

/-- The value of a sequence of statements is at hand without its mark. -/
theorem coheres_blockBody : ∀ (ns : List (Node Unit)) (result : Value) {used : List Value},
    (settle result).From used → Coheres used (fun v => [settle v]) (blockBody ev scope result ns)
  | [], _, _, h => .pure fun _ hv => List.mem_singleton.1 hv ▸ h
  | n :: ns, _, used, _ => by
    refine .bind (hev.with scope n used) fun v => ?_
    split
    · exact .pure fun w hw => Value.from_mem (List.mem_append_left _ hw)
    · exact coheres_blockBody ns _ (Value.from_mem List.mem_cons_self)

theorem coheres_catchReturn (n : Node Unit) :
    Coheres used (fun v => [settle v]) (catchReturn (ev n scope)) := by
  refine .tryCatch (hev.with scope n used) fun e => ?_
  split
  · exact .pure fun w hw => Value.from_mem (List.mem_append_left _ hw)
  · exact .throw fun w hw => Value.from_mem (List.mem_append_left _ hw)

theorem coheres_programBody : ∀ (ns : List (Node Unit)) (result : Value) {used : List Value},
    result.From used → Coheres used (fun v => [v]) (programBody ev scope result ns)
  | [], _, _, h => .one h
  | n :: ns, _, used, _ => by
    refine .bind (coheres_catchReturn hev scope n) fun v => ?_
    split
    · exact .one (Value.from_mem List.mem_cons_self)
    · next h =>
      rw [settle_of_ne h]
      exact coheres_programBody ns _ (Value.from_mem List.mem_cons_self)

end Parts

/-! ## Nodes -/

theorem coheres_callNative {cfg : Config} {native : Native} {name : String}
    (hn : cfg.natives.Coheres) (hnative : (name, native) ∈ cfg.natives) (f : Value) {used args : List Value}
    (hargs : args ⊆ used) : Coheres used (fun v => [v]) (callNative cfg f native args) := by
  refine .bind (coheres_note cfg 3 _) fun _ => ?_
  refine .bind ((hn _ hnative args).mono hargs) fun v => ?_
  split
  · exact .fail _
  · exact .one (Value.from_mem List.mem_cons_self)

section Nodes

variable {cfg : Config} {ev : Evaluator} (hev : ev.Coheres) {used : List Value}
include hev

theorem coheres_applyFunction (hn : cfg.natives.Coheres) (f : Value) {args : List Value}
    (hargs : args ⊆ used) : Coheres used (fun v => [v]) (applyFunction cfg ev f args) := by
  unfold applyFunction
  split
  · next params body scope =>
    dsimp only
    split
    · exact .fail_bind _ _
    · refine .bind (coheres_newScope _) fun inner => ?_
      refine .bind (coheres_bindParams inner params args hargs) fun _ => ?_
      refine .bind (coheres_note cfg 3 _) fun _ => ?_
      exact .bind (coheres_catchReturn hev inner body) fun v => .one (Value.from_mem List.mem_cons_self)
  · next name =>
    split
    · next native hnative =>
      have hcall : Coheres used (fun v => [v]) (callNative cfg (.native name) native args) :=
        coheres_callNative hn (Assoc.mem_of_lookup hnative) _ hargs
      dsimp only
      split
      · split
        · exact .fail_bind _ _
        · exact hcall
      · exact hcall
    · exact .fail _
  · exact .fail _

theorem coheres_binary (scope : Nat) (text : String) (l r : Node Unit) :
    Coheres used (fun v => [v]) (binary cfg ev scope text l r) := by
  refine .bind (coheres_operand hev scope r) fun _ => ?_
  refine .bind (coheres_operand hev scope l) fun _ => ?_
  refine .bind (coheres_applyBinary text _ _) fun v => ?_
  dsimp only
  split
  · split
    · exact .bind (coheres_assign cfg scope _ (Value.from_mem List.mem_cons_self)) fun _ =>
        .one (Value.from_mem List.mem_cons_self)
    · exact .bind (coheres_textOrStop _) fun _ => .fail_bind _ _
  · exact .one (Value.from_mem List.mem_cons_self)

theorem coheres_conditional (scope : Nat) (c t e : Node Unit) :
    Coheres used (fun v => [settle v]) (conditional cfg ev scope c t e) := by
  refine .bind (coheres_operand hev scope c) fun v => ?_
  refine .bind (coheres_note cfg 3 _) fun _ => ?_
  split
  · exact hev.with scope t _
  · split
    · exact .pure fun w hw => List.mem_singleton.1 hw ▸ Value.from_plain rfl
    · exact hev.with scope e _

/-- **A node is coherent if its parts are.** -/
theorem layer_coheres (hn : cfg.natives.Coheres) : (layer cfg ev).Coheres := by
  intro n scope
  have null {used : List Value} : Coheres used (fun v => [settle v]) (Pure.pure .null : Run Value) :=
    .pure fun w hw => List.mem_singleton.1 hw ▸ Value.from_plain rfl
  cases n with
  | absent => exact .fail _
  | program body => exact .settled (coheres_programBody hev scope body _ (Value.from_plain rfl))
  | block _ body => exact coheres_blockBody hev scope body _ (Value.from_plain rfl)
  | expressionStmt _ e => exact hev e scope
  | valueStmt _ name e =>
    refine .bind (coheres_operand hev scope e) fun v => ?_
    refine .bind (coheres_bindName scope name.text (Value.from_mem List.mem_cons_self)) fun _ => ?_
    exact .bind (coheres_note cfg 2 _) fun _ => null
  | updateStmt _ name e =>
    refine .bind (coheres_operand hev scope e) fun v => ?_
    exact .bind (coheres_assign cfg scope name.text (Value.from_mem List.mem_cons_self)) fun _ => null
  | returnStmt _ e =>
    exact .bind (coheres_operand hev scope e) fun v => .pure fun w hw =>
      Value.from_mem (List.mem_append_left _ hw)
  | integer _ n => exact .settled (.one (Value.from_plain rfl))
  | boolean _ b => exact .settled (.one (Value.from_plain rfl))
  | string _ text => exact .settled (coheres_newString text)
  | identifier _ name => exact .settled (coheres_lookUp cfg scope name)
  | unary _ text e =>
    exact .bind (coheres_operand hev scope e) fun v => .settled (coheres_applyUnary cfg scope text e v)
  | binary _ text l r => exact .settled (coheres_binary hev scope text l r)
  | conditional _ c t e => exact coheres_conditional hev scope c t e
  | function _ params body => exact .settled (coheres_newFunction _ _ _)
  | call _ f args =>
    refine .bind (coheres_operand hev scope f) fun callee => ?_
    exact .bind (coheres_operands hev scope args) fun values =>
      .settled (coheres_applyFunction hev hn callee (List.subset_append_left _ _))
  | array _ es =>
    exact .bind (coheres_operands hev scope es) fun values =>
      .settled (coheres_newArray fun v hv => Value.from_mem (List.mem_append_left _ hv))
  | index _ l i =>
    refine .bind (coheres_operand hev scope l) fun left => ?_
    refine .bind (coheres_operand hev scope i) fun place => .settled (coheres_subscript ?_)
    exact List.mem_append_right _ List.mem_cons_self
  | map _ ps =>
    exact .bind (coheres_mapEntries hev scope ps [] (List.nil_subset _)) fun entries =>
      .settled ((coheres_newMap entries).mono (List.subset_append_left _ _))

end Nodes

/-- **Every evaluation is coherent.** -/
theorem eval_coheres {cfg : Config} (hn : cfg.natives.Coheres) : ∀ depth, (eval cfg depth).Coheres
  | 0 => fun _ _ => .throw nofun
  | depth + 1 => layer_coheres (eval_coheres hn depth) hn

/-- **A run is coherent**, whatever becomes of it. -/
theorem runWithin_coheres {cfg : Config} (hn : cfg.natives.Coheres) (limit : Nat)
    (body : List (Node Unit)) (scope : Nat) :
    Coheres [] (fun v => [v]) (runWithin cfg limit (.program body) scope) := by
  have heval : Coheres [] (fun v => [v]) (eval cfg limit (.program body) scope) := by
    cases limit with
    | zero => exact .throw nofun
    | succ depth => exact coheres_programBody (eval_coheres hn depth) scope body _ (Value.from_plain rfl)
  refine .bind (coheres_note cfg 1 _) fun _ => .bind (.tryCatch heval fun e => ?_) fun v => ?_
  · split
    · exact coheres_newError _
    · exact coheres_newError _
    · exact .throw fun w hw => Value.from_mem (List.mem_append_left _ hw)
  · exact .bind (coheres_note cfg 1 _) fun _ => .one (Value.from_mem List.mem_cons_self)

end SepiaLang
