import SepiaLang.Eval.Native
import SepiaLang.Proofs.Computation
import SepiaLang.Proofs.Occurrence

/-!
# What native functions make of their arguments

The native functions of the language leave the scopes as they are. The functions in what they give
back were in an argument, and so were the integers, unless they are lengths of arguments.

* `Value.size?`: the length of a string, an array or a map.
* `Value.Within`: the integers and the functions in a value are as they should be.
* `Registry.Confined`: native functions that make nothing up.
* **`standard_confined`**: those of the language do not.
-/

namespace SepiaLang

open SepiaLang.Computation

/-- The number of characters, elements or entries of a value that has any. -/
def Value.size? : Value → Option Nat
  | string _ text => some text.length
  | array _ elements => some elements.length
  | map _ entries => some entries.length
  | _ => none

/-! ## Integers and functions in values -/

/-- The integers in the value satisfy `word`, and the functions satisfy `closure`, which is told the
body and the scope of each. -/
def Value.Within (word : Int → Prop) (closure : Node Unit → Nat → Prop) (v : Value) : Prop :=
  (∀ n, (Value.integer n).PartOf v → word n) ∧
    ∀ id params body scope, (Value.function id params body scope).PartOf v → closure body scope

namespace Value

variable {word word' : Int → Prop} {closure closure' : Node Unit → Nat → Prop} {v : Value}

theorem Within.mono (h : v.Within word closure) (hw : ∀ n, word n → word' n)
    (hc : ∀ body scope, closure body scope → closure' body scope) : v.Within word' closure' :=
  ⟨fun n hn => hw n (h.1 n hn), fun id params body scope hf => hc _ _ (h.2 id params body scope hf)⟩

/-- What occurs in a part occurs in the whole. -/
theorem PartOf.trans {u w : Value} (h : u.PartOf w) (h' : w.PartOf v) : u.PartOf v := by
  induction h' with
  | self => exact h
  | element hv _ ih => exact .element hv ih
  | key he _ ih => exact .key he ih
  | value he _ ih => exact .value he ih
  | returned _ ih => exact .returned ih

theorem Within.part {w : Value} (h : v.Within word closure) (hw : w.PartOf v) :
    w.Within word closure :=
  ⟨fun n hn => h.1 n (hn.trans hw), fun id params body scope hf => h.2 id params body scope (hf.trans hw)⟩

theorem within_integer {n : Int} (h : word n) : (integer n).Within word closure :=
  ⟨fun m hm => by cases hm; exact h, nofun⟩

theorem within_function {id : Nat} {params : List String} {body : Node Unit} {scope : Nat}
    (h : closure body scope) : (function id params body scope).Within word closure :=
  ⟨nofun, fun id params body scope hf => by cases hf; exact h⟩

theorem within_boolean (b : Bool) : (boolean b).Within word closure := ⟨nofun, nofun⟩

theorem within_null : null.Within word closure := ⟨nofun, nofun⟩

theorem within_string (id : Nat) (text : String) : (string id text).Within word closure :=
  ⟨nofun, nofun⟩

theorem within_native (name : String) : (native name).Within word closure := ⟨nofun, nofun⟩

theorem within_error (id : Nat) (message : String) : (error id message).Within word closure :=
  ⟨nofun, nofun⟩

theorem within_array {id : Nat} {elements : List Value} (h : ∀ v ∈ elements, v.Within word closure) :
    (array id elements).Within word closure := by
  constructor
  · intro n hn
    cases hn with
    | element hv hn => exact (h _ hv).1 n hn
  · intro id params body scope hf
    cases hf with
    | element hv hf => exact (h _ hv).2 id params body scope hf

theorem within_map {id : Nat} {entries : List (Entry Value)}
    (h : ∀ e ∈ entries, e.key.Within word closure ∧ e.value.Within word closure) :
    (map id entries).Within word closure := by
  constructor
  · intro n hn
    cases hn with
    | key he hn => exact (h _ he).1.1 n hn
    | value he hn => exact (h _ he).2.1 n hn
  · intro id params body scope hf
    cases hf with
    | key he hf => exact (h _ he).1.2 id params body scope hf
    | value he hf => exact (h _ he).2.2 id params body scope hf

theorem within_returned_iff : (returned v).Within word closure ↔ v.Within word closure := by
  constructor
  · exact fun h => h.part (.returned (.self v))
  · intro h
    constructor
    · intro n hn
      cases hn with
      | returned hn => exact h.1 n hn
    · intro id params body scope hf
      cases hf with
      | returned hf => exact h.2 id params body scope hf

end Value

/-! ## Native functions -/

/-- The value is made of what the arguments are made of, and of their lengths. -/
def Value.MadeOf (args : List Value) (v : Value) : Prop :=
  v.Within (fun n => (∃ a ∈ args, (Value.integer n).PartOf a) ∨ ∃ a ∈ args, ∃ k, a.size? = some k ∧ n = k)
    (fun body scope => ∃ a ∈ args, ∃ id params, (Value.function id params body scope).PartOf a)

/-- The native functions leave the scopes alone and make up neither integers nor functions, whether
they give a value or stop with one. -/
def Registry.Confined (natives : Registry) : Prop :=
  ∀ entry ∈ natives, ∀ (args : List Value) (scopes : Scopes),
    Keeps (fun s => s.scopes = scopes) (fun e => ∀ v, e = .returning v → v.MadeOf args)
      (fun v => v.MadeOf args) (entry.2.call args)

section Standard

variable {args : List Value} {scopes : Scopes}

theorem madeOf_of_mem {v : Value} (h : v ∈ args) : v.MadeOf args :=
  ⟨fun _ hn => Or.inl ⟨v, h, hn⟩, fun id params _ _ hf => ⟨v, h, id, params, hf⟩⟩

/-- The computation leaves the scopes alone and does not return. -/
abbrev Calm {α : Type} (scopes : Scopes) (V : α → Prop) (m : Run α) : Prop :=
  Keeps (fun s => s.scopes = scopes) (fun e => ∀ v, e ≠ .returning v) V m

theorem calm_fail {α : Type} {V : α → Prop} (e : EvalError) : Calm scopes V (fail e) :=
  Keeps.throw fun _ => nofun

theorem calm_freshId : Calm scopes (fun _ => True) freshId :=
  Keeps.bind Keeps.get fun _ hs => Keeps.bind (Keeps.set hs) fun _ _ => Keeps.pure trivial

theorem calm_newString (text : String) : Calm scopes (fun v => v.MadeOf args) (newString text) :=
  Keeps.bind calm_freshId fun _ _ => Keeps.pure (Value.within_string _ _)

theorem calm_newArray {elements : List Value} (h : ∀ v ∈ elements, v.MadeOf args) :
    Calm scopes (fun v => v.MadeOf args) (newArray elements) :=
  Keeps.bind calm_freshId fun _ _ => Keeps.pure (Value.within_array h)

theorem calm_arg (i : Nat) : Calm scopes (· ∈ args) (Native.arg args i) := by
  unfold Native.arg
  split
  · next v hv => exact Keeps.pure (List.mem_of_getElem? hv)
  · exact Keeps.throw fun _ => nofun

theorem calm_arrayArg (name : String) :
    Calm scopes (fun elements => ∀ v ∈ elements, v.MadeOf args) (Native.arrayArg name args) := by
  refine Keeps.bind (calm_arg 0) fun v hv => ?_
  split
  · next id elements =>
    exact Keeps.pure fun w hw => (madeOf_of_mem hv).part (.element hw (.self w))
  · exact calm_fail _

theorem calm_len : Calm scopes (fun v => v.MadeOf args) (Native.len args) := by
  have hsize {v : Value} {k : Nat} (hv : v ∈ args) (hk : v.size? = some k) :
      (Value.integer k).MadeOf args := Value.within_integer (Or.inr ⟨v, hv, k, hk, rfl⟩)
  refine Keeps.bind (calm_arg 0) fun v hv => ?_
  split
  · exact Keeps.pure (hsize hv rfl)
  · exact Keeps.pure (hsize hv rfl)
  · exact Keeps.pure (hsize hv rfl)
  · exact calm_fail _

theorem calm_puts : Calm scopes (fun v => v.MadeOf args) (Native.puts args) := by
  refine Keeps.bind (Keeps.forM (fun v => ?_) args) fun _ _ => Keeps.pure Value.within_null
  unfold textOrStop
  split
  · exact Keeps.modify fun _ hs => hs
  · exact Keeps.bind (V := fun _ => False) (Keeps.throw fun _ => nofun) nofun

theorem calm_first : Calm scopes (fun v => v.MadeOf args) (Native.first args) := by
  refine Keeps.bind (calm_arrayArg _) fun elements he => Keeps.pure ?_
  cases hv : elements.head? with
  | none => exact Value.within_null
  | some v => exact he v (List.mem_of_head? hv)

theorem calm_last : Calm scopes (fun v => v.MadeOf args) (Native.last args) := by
  refine Keeps.bind (calm_arrayArg _) fun elements he => Keeps.pure ?_
  cases hv : elements.getLast? with
  | none => exact Value.within_null
  | some v => exact he v (List.mem_of_getLast? hv)

theorem calm_rest : Calm scopes (fun v => v.MadeOf args) (Native.rest args) := by
  refine Keeps.bind (calm_arrayArg _) fun elements he => ?_
  split
  · exact Keeps.pure Value.within_null
  · exact calm_newArray fun v hv => he v (List.mem_cons_of_mem _ hv)

theorem calm_push : Calm scopes (fun v => v.MadeOf args) (Native.push args) := by
  refine Keeps.bind (calm_arrayArg _) fun elements he => ?_
  refine Keeps.bind (calm_arg 1) fun v hv => calm_newArray fun w hw => ?_
  rcases List.mem_append.1 hw with hw | hw
  · exact he w hw
  · rw [List.mem_singleton.1 hw]
    exact madeOf_of_mem hv

theorem calm_typeOf : Calm scopes (fun v => v.MadeOf args) (Native.typeOf args) :=
  Keeps.bind (calm_arg 0) fun _ _ => calm_newString _

end Standard

/-- **The native functions of the language make nothing up.** -/
theorem standard_confined : standard.Confined := by
  intro entry hentry args scopes
  suffices h : Calm scopes (fun v => v.MadeOf args) (entry.2.call args) by
    intro s hs
    refine ⟨(h s hs).1, ?_⟩
    have := (h s hs).2
    split at this
    · exact this
    · exact fun v hv => absurd hv (this v)
  simp only [standard, List.mem_cons, List.not_mem_nil, or_false] at hentry
  rcases hentry with rfl | rfl | rfl | rfl | rfl | rfl | rfl
  · exact calm_len
  · exact calm_puts
  · exact calm_first
  · exact calm_last
  · exact calm_rest
  · exact calm_push
  · exact calm_typeOf

theorem confined_of_standard_or {natives : Registry} (h : natives = standard ∨ natives.Confined) :
    natives.Confined := by
  rcases h with rfl | h
  · exact standard_confined
  · exact h

end SepiaLang
