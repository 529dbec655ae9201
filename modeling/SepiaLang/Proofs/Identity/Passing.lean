import SepiaLang.Proofs.Discipline
import SepiaLang.Proofs.Identity.Coherent
import SepiaLang.Proofs.SideBySide

/-!
# What is made and what is passed on

Literals, the joining of strings and some native functions make a new value. All that a program does
with values otherwise, from binding them to returning them, passes on the very value.

* `Scopes.get?_set_self`, `Scopes.get?_update?`: what is bound is found.
* `layer_array_ok`, `layer_map_ok`, …: what a node with a value has done.
* `Makes`: the nodes that make their value. **`makes_new`**: its identity is the last one given out.
* `PassesOn`, **`layer_passesOn`**: everything else passes on the value itself.
-/

namespace SepiaLang

open SepiaLang.Computation

/-! ## Bindings -/

namespace Scopes

variable {scopes scopes' : Scopes} {x : String}

/-- A scope that binds the name is its holder. -/
theorem holder?_of_binds {i : Nat} {s : Scope} (hi : scopes[i]? = some s) (hx : s.binds x = true) :
    scopes.holder? x i = some i := by
  rw [holder?, hi]
  exact if_pos hx

/-- Binding a name where it is found does not change where it is found. -/
theorem holder?_set {i h : Nat} (hh : scopes.holder? x i = some h) (v : Value) :
    (scopes.set h x v).holder? x i = some h := by
  fun_induction holder? scopes x i with
  | case1 => cases hh
  | case2 i s hs hx =>
    cases hh
    have hi : (scopes.set h x v)[h]? = some (s.bind x v) := by rw [getElem?_set, if_pos rfl, hs]; rfl
    exact holder?_of_binds hi ((Scope.binds_bind s x x v).2 (Or.inl rfl))
  | case3 => cases hh
  | case4 i s hs hx p hp hlt ih =>
    have hne : h ≠ i := by
      rintro rfl
      obtain ⟨s', hs', hx'⟩ := binds_holder? hh
      rw [hs] at hs'
      cases hs'
      exact hx hx'
    have hi : (scopes.set h x v)[i]? = some s := by rw [getElem?_set, if_neg hne, hs]
    rw [holder?, hi]
    simp only [hp, hlt, if_true, if_neg hx]
    exact ih hh
  | case5 => cases hh

theorem get?_of_holder? {i h : Nat} {s : Scope} (hh : scopes.holder? x i = some h)
    (hs : scopes[h]? = some s) : scopes.get? i x = s.find? x := by
  unfold get?
  rw [hh]
  change (scopes[h]? >>= fun s => s.find? x) = _
  rw [hs]
  rfl

/-- **A name that is bound in a scope is found there.** -/
theorem get?_set_self {i : Nat} (hi : i < scopes.size) (v : Value) :
    (scopes.set i x v).get? i x = some v := by
  have hs : (scopes.set i x v)[i]? = some ((scopes[i]).bind x v) := by
    rw [getElem?_set, if_pos rfl, Array.getElem?_eq_getElem hi]
    rfl
  have hfind : ((scopes[i]).bind x v).find? x = some v := by rw [Scope.find?_bind, if_pos rfl]
  have hbinds : ((scopes[i]).bind x v).binds x = true := (Scope.binds_bind _ _ _ _).2 (Or.inl rfl)
  rw [get?_of_holder? (holder?_of_binds hs hbinds) hs, hfind]

/-- **A name that is bound anew is found with its new value.** -/
theorem get?_update? {i : Nat} {v : Value} (h : scopes.update? i x v = some scopes') :
    scopes'.get? i x = some v := by
  obtain ⟨j, hj, rfl⟩ := Option.map_eq_some_iff.1 h
  obtain ⟨s, hs, -⟩ := binds_holder? hj
  have hs' : (scopes.set j x v)[j]? = some (s.bind x v) := by rw [getElem?_set, if_pos rfl, hs]; rfl
  rw [get?_of_holder? (holder?_set hj v) hs', Scope.find?_bind, if_pos rfl]

end Scopes

/-! ## Entries of maps -/

/-- Only the value under the key of the new entry is another one. -/
theorem valueAt?_putEntry (k : Key) (key value : Value) (entries : List (Entry Value)) (k' : Key) :
    valueAt? k' (putEntry k key value entries) = if k = k' then some value else valueAt? k' entries := by
  unfold valueAt? putEntry
  have hput : hasKey k ⟨k, key, value⟩ = true := beq_self_eq_true k
  split
  · next h =>
    subst h
    rw [Assoc.find?_put_self _ _ hput]
    rfl
  · next h =>
    have hother : ∀ e, hasKey k e = true → hasKey k' e = false := by
      intro e he
      rw [hasKey, eq_of_beq he]
      exact beq_false_of_ne h
    rw [Assoc.find?_put_of_disjoint _ _ _ (hother _ hput) hother]

/-- The value of the last pair with a key. -/
def lastAt? (k : Key) (pairs : List (Value × Value)) : Option Value :=
  (pairs.reverse.find? fun p => p.1.key? == some k).map (·.2)

theorem lastAt?_cons (k : Key) (pair : Value × Value) (pairs : List (Value × Value)) :
    lastAt? k (pair :: pairs) = (lastAt? k pairs).or (if pair.1.key? = some k then some pair.2 else none) := by
  unfold lastAt?
  rw [List.reverse_cons, List.find?_append]
  cases h : pairs.reverse.find? fun p => p.1.key? == some k with
  | some e => rfl
  | none => by_cases hp : pair.1.key? = some k <;> simp [hp]

/-! ## What a node with a value has done -/

section Inversion

variable {cfg : Config} {ev : Evaluator} {i : Nat} {s s' : Store} {v : Value}

theorem note_ok {level : Nat} {entry : LogEntry} (h : note cfg level entry s = (.ok (), s')) :
    s'.scopes = s.scopes ∧ s'.nextId = s.nextId := by
  have := note_keeps cfg level entry s
  rwa [h] at this

theorem assign_ok {x : String} (h : assign cfg i x v s = (.ok (), s')) :
    s'.scopes.get? i x = some v ∧ s'.nextId = s.nextId := by
  rw [assign_apply] at h
  cases hu : s.scopes.update? i x v with
  | none => rw [hu] at h; cases h
  | some scopes =>
    rw [hu] at h
    obtain ⟨hscopes, hid⟩ := note_ok h
    rw [hscopes]
    exact ⟨Scopes.get?_update? hu, hid⟩

theorem operands_cons_ok {n : Node Unit} {ns : List (Node Unit)} {vs : List Value} :
    operands ev i (n :: ns) s = (.ok vs, s') ↔ ∃ v ws s₁, vs = v :: ws ∧
      operand ev n i s = (.ok v, s₁) ∧ operands ev i ns s₁ = (.ok ws, s') := by
  constructor
  · intro h
    obtain ⟨v, s₁, hv, h⟩ := exists_of_bind_ok h
    obtain ⟨ws, s₂, hws, h⟩ := exists_of_bind_ok h
    cases h
    exact ⟨v, ws, s₁, rfl, hv, hws⟩
  · rintro ⟨v, ws, s₁, rfl, hv, hws⟩
    rw [operands, bind_of_ok hv, bind_of_ok hws]
    rfl

theorem layer_array_ok {es : List (Node Unit)} (h : layer cfg ev (.array () es) i s = (.ok v, s')) :
    ∃ vs s₁, operands ev i es s = (.ok vs, s₁) ∧ v = .array s₁.nextId vs ∧
      s'.nextId = s₁.nextId + 1 := by
  obtain ⟨vs, s₁, hvs, h⟩ := exists_of_bind_ok h
  cases h
  exact ⟨vs, s₁, hvs, rfl, rfl⟩

theorem keyOf_ok {k : Key} (h : keyOf v s = (.ok k, s')) : v.key? = some k ∧ s' = s := by
  unfold keyOf at h
  cases hk : v.key? with
  | none => rw [hk] at h; cases h
  | some k' => rw [hk] at h; cases h; exact ⟨rfl, rfl⟩

/-- The entries of a map literal are its pairs, the last one of each key. -/
theorem mapEntries_ok : ∀ {pairs : List (Node Unit × Node Unit)} {entries entries' : List (Entry Value)}
    {s : Store}, mapEntries ev i entries pairs s = (.ok entries', s') →
      ∃ values, operands ev i (pairs.flatMap fun p => [p.1, p.2]) s =
          (.ok (values.flatMap fun p => [p.1, p.2]), s') ∧
        (∀ e ∈ entries', e.pair ∈ values ∨ e ∈ entries) ∧
        ∀ k, valueAt? k entries' = (lastAt? k values).or (valueAt? k entries)
  | [], entries, entries', s, h => by
    cases h
    exact ⟨[], rfl, fun _ => Or.inr, fun _ => rfl⟩
  | (k, e) :: pairs, entries, entries', s, h => by
    obtain ⟨key, s₁, hkey, h⟩ := exists_of_bind_ok h
    dsimp only at h
    split at h
    · cases h
    · obtain ⟨value, s₂, hvalue, h⟩ := exists_of_bind_ok h
      obtain ⟨c, s₃, hkeyOf, hrest⟩ := exists_of_bind_ok h
      obtain ⟨hc, rfl⟩ := keyOf_ok hkeyOf
      obtain ⟨values, hvalues, hmem, hlast⟩ := mapEntries_ok hrest
      refine ⟨(key, value) :: values, ?_, fun e' he' => ?_, fun k' => ?_⟩
      · exact operands_cons_ok.2 ⟨key, _, s₁, rfl, hkey, operands_cons_ok.2 ⟨value, _, _, rfl, hvalue, hvalues⟩⟩
      · rcases hmem e' he' with he' | he'
        · exact Or.inl (List.mem_cons_of_mem _ he')
        · rcases Assoc.eq_or_mem_of_mem_put he' with rfl | he'
          · exact Or.inl List.mem_cons_self
          · exact Or.inr he'
      · rw [hlast, lastAt?_cons, valueAt?_putEntry, Option.or_assoc]
        congr 1
        by_cases hk : c = k' <;> simp [hc, hk]

theorem layer_map_ok {ps : List (Node Unit × Node Unit)}
    (h : layer cfg ev (.map () ps) i s = (.ok v, s')) :
    ∃ entries values s₁,
      operands ev i (Node.map () ps).parts s = (.ok (values.flatMap fun p => [p.1, p.2]), s₁) ∧
      v = .map s₁.nextId entries ∧ s'.nextId = s₁.nextId + 1 ∧ (∀ e ∈ entries, e.pair ∈ values) ∧
      ∀ k, valueAt? k entries = lastAt? k values := by
  obtain ⟨entries, s₁, hentries, h⟩ := exists_of_bind_ok h
  obtain ⟨values, hvalues, hmem, hlast⟩ := mapEntries_ok hentries
  cases h
  refine ⟨entries, values, s₁, hvalues, rfl, rfl, fun e he => ?_, fun k => ?_⟩
  · exact (hmem e he).resolve_right List.not_mem_nil
  · rw [hlast]
    exact Option.or_none

/-- The operator that the text writes assigns its result to the left operand. -/
def Assigns (text : String) : Prop := ((BinaryOp.ofText? text).map (·.assigns)).getD false = true

theorem layer_binary_ok {text : String} {l r : Node Unit}
    (h : layer cfg ev (.binary () text l r) i s = (.ok v, s')) :
    ∃ left right s₁ s₂ s₃, operand ev r i s = (.ok right, s₁) ∧ operand ev l i s₁ = (.ok left, s₂) ∧
      applyBinary text left right s₂ = (.ok v, s₃) ∧ s'.nextId = s₃.nextId ∧
      (Assigns text → ∃ x, l = .identifier () x ∧ s'.scopes.get? i x = some v) ∧
      (¬ Assigns text → s' = s₃) := by
  obtain ⟨right, s₁, hright, h⟩ := exists_of_bind_ok h
  obtain ⟨left, s₂, hleft, h⟩ := exists_of_bind_ok h
  obtain ⟨w, s₃, hw, h⟩ := exists_of_bind_ok h
  dsimp only at h
  unfold Assigns
  by_cases hassigns : ((BinaryOp.ofText? text).map (·.assigns)).getD false = true
  · rw [if_pos hassigns] at h
    cases l with
    | identifier _ x =>
      obtain ⟨_, s₄, hassign, hlast⟩ := exists_of_bind_ok h
      cases hlast
      obtain ⟨hget, hid⟩ := assign_ok hassign
      exact ⟨left, right, s₁, s₂, s₃, hright, hleft, hw, hid, fun _ => ⟨x, rfl, hget⟩, absurd hassigns⟩
    | _ =>
      obtain ⟨_, _, _, hlast⟩ := exists_of_bind_ok h
      cases hlast
  · rw [if_neg hassigns] at h
    cases h
    exact ⟨left, right, s₁, s₂, s', hright, hleft, hw, rfl, fun h => absurd h hassigns, fun _ => rfl⟩

/-- Where a computation has a value, it is as it should be. -/
def Gives (P : Store → Value → Store → Prop) (m : Run Value) : Prop :=
  ∀ s v s', m s = (.ok v, s') → P s v s'

theorem gives_fail {P : Store → Value → Store → Prop} (e : EvalError) : Gives P (fail e) := nofun

/-- An operation whose value is a string has joined two strings. -/
theorem applyBinary_gives (text : String) (l r : Value) :
    Gives (fun s v s' => v.type = .string → v.id? = some s.nextId ∧ s'.nextId = s.nextId + 1)
      (applyBinary text l r) := by
  have pure {v : Value} (h : v.type ≠ .string) : Gives (fun s v s' => v.type = .string →
      v.id? = some s.nextId ∧ s'.nextId = s.nextId + 1) (Pure.pure v) := by
    rintro s v s' ⟨⟩ hv
    exact absurd hv h
  unfold applyBinary
  split
  · unfold applyIntegers
    split
    · intro s v s' h hv
      obtain ⟨_, _, _, h⟩ := exists_of_bind_ok h
      cases h
      cases hv
    · exact pure nofun
    · exact gives_fail _
  · split
    · exact pure nofun
    · exact pure nofun
    · unfold applyOthers
      split
      · exact pure nofun
      · rintro s v s' ⟨⟩ -
        exact ⟨rfl, rfl⟩
      · split <;> exact gives_fail _

theorem layer_call_ok {f : Node Unit} {args : List (Node Unit)}
    (h : layer cfg ev (.call () f args) i s = (.ok v, s')) :
    ∃ callee values s₁ s₂, operand ev f i s = (.ok callee, s₁) ∧
      operands ev i args s₁ = (.ok values, s₂) ∧ applyFunction cfg ev callee values s₂ = (.ok v, s') := by
  obtain ⟨callee, s₁, hf, h⟩ := exists_of_bind_ok h
  obtain ⟨values, s₂, hargs, h⟩ := exists_of_bind_ok h
  exact ⟨callee, values, s₁, s₂, hf, hargs, h⟩

/-- The call of a native function has the value that the function gives. -/
theorem applyFunction_native_ok {name : String} {native : Native} {args : List Value}
    (hnative : cfg.natives.lookup name = some native)
    (h : applyFunction cfg ev (.native name) args s = (.ok v, s')) :
    ∃ s₁, s₁.nextId = s.nextId ∧ native.call args s₁ = (.ok v, s') := by
  have hcall : callNative cfg (.native name) native args s = (.ok v, s') := by
    simp only [applyFunction, hnative] at h
    cases harity : native.arity with
    | none =>
      rw [harity] at h
      exact h
    | some arity =>
      rw [harity] at h
      dsimp only at h
      split at h
      · cases h
      · exact h
  obtain ⟨_, s₁, hnote, hcall⟩ := exists_of_bind_ok hcall
  obtain ⟨w, s₂, hw, hcall⟩ := exists_of_bind_ok hcall
  refine ⟨s₁, (note_ok hnote).2, ?_⟩
  cases w with
  | error => cases hcall
  | _ => cases hcall; exact hw

theorem subscript_ok {left place : Value} (h : subscript left place s = (.ok v, s')) :
    (∃ id es n, left = .array id es ∧ place = .integer n ∧
      v = (if n < 0 then none else es[n.toNat]?).getD .null) ∨
    ∃ id entries k, left = .map id entries ∧ place.key? = some k ∧
      v = (valueAt? k entries).getD .null := by
  cases left with
  | array id es =>
    cases place with
    | integer n =>
      refine Or.inl ⟨id, es, n, rfl, rfl, ?_⟩
      revert h
      unfold subscript
      dsimp only
      split
      · next hn =>
        rintro ⟨⟩
        rcases hn with hn | hn
        · rw [if_pos hn]; rfl
        · rw [List.getElem?_eq_none (by omega)]
          split <;> rfl
      · next hn =>
        rw [if_neg (by omega)]
        unfold elementAt
        cases hv : es[n.toNat]? with
        | some w =>
          rintro ⟨⟩
          rfl
        | none => nofun
    | _ => cases h
  | map id entries =>
    revert h
    unfold subscript
    dsimp only
    split
    · nofun
    · intro h
      obtain ⟨k, s₁, hk, h⟩ := exists_of_bind_ok h
      cases h
      exact Or.inr ⟨id, entries, k, rfl, (keyOf_ok hk).1, rfl⟩
  | _ => cases h

/-! ## Calls -/

/-- The scope binds the name to the value. -/
def Scopes.Finds (scopes : Scopes) (i : Nat) (x : String) (v : Value) : Prop :=
  ∃ scope, scopes[i]? = some scope ∧ scope.find? x = some v

theorem Scopes.Finds.get? {scopes : Scopes} {x : String} (h : scopes.Finds i x v) :
    scopes.get? i x = some v := by
  obtain ⟨scope, hscope, hv⟩ := h
  have hbinds : scope.binds x = true := Option.isSome_iff_exists.2 ⟨v, hv⟩
  rw [get?_of_holder? (holder?_of_binds hscope hbinds) hscope, hv]

theorem Scopes.Finds.set_of_ne {scopes : Scopes} {x y : String} (h : scopes.Finds i x v) (w : Value)
    (hne : y ≠ x) : (scopes.set i y w).Finds i x v := by
  obtain ⟨scope, hscope, hv⟩ := h
  refine ⟨scope.bind y w, ?_, ?_⟩
  · rw [getElem?_set, if_pos rfl, hscope]
    rfl
  · rw [Scope.find?_bind, if_neg hne, hv]

/-- The names are bound one after the other. -/
def Scopes.setAll (scopes : Scopes) (i : Nat) (bindings : List (String × Value)) : Scopes :=
  bindings.foldl (fun scopes b => scopes.set i b.1 b.2) scopes

theorem bindParams_apply (i : Nat) : ∀ (params : List String) (args : List Value) (s : Store),
    bindParams i params args s = (.ok (), { s with scopes := s.scopes.setAll i (params.zip args) })
  | [], _, _ => rfl
  | _ :: _, [], _ => rfl
  | p :: ps, v :: vs, s => bindParams_apply i ps vs { s with scopes := s.scopes.set i p v }

/-- The last of several bindings of a name is the one that is found. -/
theorem Scopes.finds_setAll {scopes : Scopes} {x : String} {before after : List (String × Value)}
    (hi : i < scopes.size) (hafter : ∀ b ∈ after, b.1 ≠ x) :
    (scopes.setAll i (before ++ (x, v) :: after)).Finds i x v := by
  induction before generalizing scopes with
  | nil =>
    have hfirst : (scopes.set i x v).Finds i x v := by
      refine ⟨(scopes[i]).bind x v, ?_, ?_⟩
      · rw [getElem?_set, if_pos rfl, Array.getElem?_eq_getElem hi]
        rfl
      · rw [Scope.find?_bind, if_pos rfl]
    revert hfirst
    change (scopes.set i x v).Finds i x v → ((scopes.set i x v).setAll i after).Finds i x v
    generalize scopes.set i x v = scopes
    clear hi
    induction after generalizing scopes with
    | nil => exact id
    | cons b after ih =>
      intro h
      refine ih (fun b hb => hafter b (List.mem_cons_of_mem _ hb)) _ ?_
      exact h.set_of_ne b.2 (hafter b List.mem_cons_self)
  | cons b before ih =>
    have hi : i < (scopes.set i b.1 b.2).size := by rwa [size_set]
    exact ih hi

/-- **Arguments are passed on**: the parameter is bound to the argument in the scope of the call. -/
theorem enterCall_ok {f : Value} {params : List String} {outer inner : Nat} {args : List Value}
    (h : enterCall cfg f params outer args s = (.ok inner, s')) {x : String}
    {before after : List (String × Value)} (hx : params.zip args = before ++ (x, v) :: after)
    (hafter : ∀ b ∈ after, b.1 ≠ x) : s'.scopes.get? inner x = some v := by
  obtain ⟨i, s₁, hnew, h⟩ := exists_of_bind_ok h
  cases hnew
  obtain ⟨_, s₂, hbind, h⟩ := exists_of_bind_ok h
  rw [bindParams_apply] at hbind
  cases hbind
  obtain ⟨_, s₃, hnote, h⟩ := exists_of_bind_ok h
  cases h
  rw [(note_ok hnote).1]
  refine Scopes.Finds.get? ?_
  rw [hx]
  refine Scopes.finds_setAll ?_ hafter
  change s.scopes.size < (s.scopes.add (some outer)).size
  rw [Scopes.size_add]
  exact Nat.lt_succ_self _

/-- **Results are passed on**: the value of a call is that of the body, or the one that the body
returns. -/
theorem applyFunction_ok {id outer : Nat} {params : List String} {body : Node Unit} {args : List Value}
    (h : applyFunction cfg ev (.function id params body outer) args s = (.ok v, s')) :
    ∃ inner s₁, enterCall cfg (.function id params body outer) params outer args s = (.ok inner, s₁) ∧
      atHand (fun w => [settle w]) (ev body inner s₁).1 = [v] := by
  by_cases hlength : args.length = params.length
  · rw [applyFunction_function cfg ev id params body outer hlength] at h
    obtain ⟨inner, s₁, henter, h⟩ := exists_of_bind_ok h
    obtain ⟨w, s₂, hw, h⟩ := exists_of_bind_ok h
    cases h
    refine ⟨inner, s₁, henter, ?_⟩
    rw [catchReturn_apply] at hw
    rcases hr : (ev body inner s₁).1 with (_ | _ | _ | _) | u <;> rw [hr] at hw <;> cases hw <;> rfl
  · simp only [applyFunction, ne_eq, hlength, not_false_eq_true, if_true] at h
    cases h

end Inversion

/-! ## Native functions -/

namespace Native

variable {s s' : Store} {v : Value}

theorem arg_ok {args : List Value} {i : Nat} (h : arg args i s = (.ok v, s')) :
    args[i]? = some v ∧ s' = s := by
  unfold arg at h
  cases ha : args[i]? with
  | none => rw [ha] at h; cases h
  | some a => rw [ha] at h; cases h; exact ⟨rfl, rfl⟩

theorem arrayArg_ok {name : String} {args elements : List Value}
    (h : arrayArg name args s = (.ok elements, s')) :
    (∃ id, args[0]? = some (.array id elements)) ∧ s' = s := by
  obtain ⟨w, s₁, harg, h⟩ := exists_of_bind_ok h
  obtain ⟨hw, hs⟩ := arg_ok harg
  cases w with
  | array id es => cases h; exact ⟨⟨id, hw⟩, hs⟩
  | _ => cases h

theorem first_ok {args : List Value} (h : first args s = (.ok v, s')) :
    ∃ id elements, args[0]? = some (.array id elements) ∧ v = elements.head?.getD .null := by
  obtain ⟨elements, s₁, he, h⟩ := exists_of_bind_ok h
  obtain ⟨⟨id, hid⟩, -⟩ := arrayArg_ok he
  cases h
  exact ⟨id, elements, hid, rfl⟩

theorem last_ok {args : List Value} (h : last args s = (.ok v, s')) :
    ∃ id elements, args[0]? = some (.array id elements) ∧ v = elements.getLast?.getD .null := by
  obtain ⟨elements, s₁, he, h⟩ := exists_of_bind_ok h
  obtain ⟨⟨id, hid⟩, -⟩ := arrayArg_ok he
  cases h
  exact ⟨id, elements, hid, rfl⟩

theorem rest_ok {args : List Value} (h : rest args s = (.ok v, s')) :
    ∃ id elements, args[0]? = some (.array id elements) ∧
      (elements = [] ∧ v = .null ∨
        ∃ x xs, elements = x :: xs ∧ v = .array s.nextId xs ∧ s'.nextId = s.nextId + 1) := by
  obtain ⟨elements, s₁, he, h⟩ := exists_of_bind_ok h
  obtain ⟨⟨id, hid⟩, rfl⟩ := arrayArg_ok he
  refine ⟨id, elements, hid, ?_⟩
  cases elements with
  | nil => cases h; exact Or.inl ⟨rfl, rfl⟩
  | cons x xs => cases h; exact Or.inr ⟨x, xs, rfl, rfl, rfl⟩

theorem push_ok {args : List Value} (h : push args s = (.ok v, s')) :
    ∃ id elements w, args[0]? = some (.array id elements) ∧ args[1]? = some w ∧
      v = .array s.nextId (elements ++ [w]) ∧ s'.nextId = s.nextId + 1 := by
  obtain ⟨elements, s₁, he, h₁⟩ := exists_of_bind_ok h
  obtain ⟨⟨id, hid⟩, rfl⟩ := arrayArg_ok he
  obtain ⟨w, s₂, harg, h₂⟩ := exists_of_bind_ok h₁
  obtain ⟨hw, rfl⟩ := arg_ok harg
  cases h₂
  exact ⟨id, elements, w, hid, hw, rfl, rfl⟩

theorem typeOf_ok {args : List Value} (h : typeOf args s = (.ok v, s')) :
    v.id? = some s.nextId ∧ s'.nextId = s.nextId + 1 := by
  obtain ⟨w, s₁, hw, h₁⟩ := exists_of_bind_ok h
  obtain ⟨-, rfl⟩ := arg_ok hw
  cases h₁
  exact ⟨rfl, rfl⟩

end Native

/-! ## Making -/

/-- **The node makes its value.** Literals of strings, arrays, maps and functions do, operators that
join two strings, and calls of native functions that make one. -/
inductive Makes (ev : Evaluator) (i : Nat) (s : Store) : Node Unit → Value → Prop
  | string {text : String} {v : Value} : Makes ev i s (.string () text) v
  | array {es : List (Node Unit)} {v : Value} : Makes ev i s (.array () es) v
  | map {ps : List (Node Unit × Node Unit)} {v : Value} : Makes ev i s (.map () ps) v
  | function {params : List (Ident Unit)} {body : Node Unit} {v : Value} :
      Makes ev i s (.function () params body) v
  | join {text : String} {l r : Node Unit} {v : Value} (hv : v.type = .string) :
      Makes ev i s (.binary () text l r) v
  | rest {f : Node Unit} {args : List (Node Unit)} {s₁ s₂ : Store} {id : Nat} {x v : Value} {xs : List Value}
      (hf : operand ev f i s = (.ok (.native "rest"), s₁))
      (hargs : operands ev i args s₁ = (.ok [.array id (x :: xs)], s₂)) : Makes ev i s (.call () f args) v
  | push {f : Node Unit} {args : List (Node Unit)} {s₁ : Store} {v : Value}
      (hf : operand ev f i s = (.ok (.native "push"), s₁)) : Makes ev i s (.call () f args) v
  | typeOf {f : Node Unit} {args : List (Node Unit)} {s₁ : Store} {v : Value}
      (hf : operand ev f i s = (.ok (.native "type"), s₁)) : Makes ev i s (.call () f args) v

/-- The value has got an identity since the first store, and it is the last one given out before the
second store. -/
def Value.MadeBetween (s s' : Store) (v : Value) : Prop :=
  ∃ k, v.id? = some k ∧ s.nextId ≤ k ∧ s'.nextId = k + 1

section Standard

variable {cfg : Config} (hn : cfg.natives = standard) {ev : Evaluator} {i : Nat} {s s' : Store} {v : Value}
include hn

/-- The call of a native function of the language. -/
theorem layer_call_native {f : Node Unit} {args : List (Node Unit)} {s₁ : Store} {name : String}
    {native : Native} (hname : standard.lookup name = some native)
    (hf : operand ev f i s = (.ok (.native name), s₁))
    (h : layer cfg ev (.call () f args) i s = (.ok v, s')) :
    ∃ values s₂ s₃, operands ev i args s₁ = (.ok values, s₂) ∧ s₃.nextId = s₂.nextId ∧
      native.call values s₃ = (.ok v, s') := by
  obtain ⟨callee, values, s₁', s₂, hf', hargs, hcall⟩ := layer_call_ok h
  rw [hf] at hf'
  cases hf'
  obtain ⟨s₃, hid, hcall⟩ := applyFunction_native_ok (hn ▸ hname) hcall
  exact ⟨values, s₂, s₃, hargs, hid, hcall⟩

/-- **What is made is new**: it has the last identity that was given out. -/
theorem makes_new (hev : ev.Coheres) {vs : List Value} (hs : s.Coherent vs) {n : Node Unit}
    (hmakes : Makes ev i s n v) (h : layer cfg ev n i s = (.ok v, s')) : v.MadeBetween s s' := by
  have hoperand {n : Node Unit} {s s₁ : Store} {w : Value} {vs : List Value} (hs : s.Coherent vs)
      (hw : operand ev n i s = (.ok w, s₁)) : s.nextId ≤ s₁.nextId ∧ s₁.Coherent ([w] ++ vs) := by
    obtain ⟨h1, h2⟩ := (coheres_operand hev i n).of_ok (List.nil_subset _) hs hw
    exact ⟨h1.nextId_le, h2⟩
  have hoperands {ns : List (Node Unit)} {s s₁ : Store} {ws : List Value} {vs : List Value}
      (hs : s.Coherent vs) (hws : operands ev i ns s = (.ok ws, s₁)) : s.nextId ≤ s₁.nextId :=
    ((coheres_operands hev i ns).of_ok (List.nil_subset _) hs hws).1.nextId_le
  -- where a call is made, the callee and the arguments come first
  have hcall {f : Node Unit} {args : List (Node Unit)} {s₁ : Store} {name : String} {native : Native}
      (hname : standard.lookup name = some native) (hf : operand ev f i s = (.ok (.native name), s₁))
      (h : layer cfg ev (.call () f args) i s = (.ok v, s')) :
      ∃ values s₂ s₃, operands ev i args s₁ = (.ok values, s₂) ∧ s.nextId ≤ s₃.nextId ∧
        native.call values s₃ = (.ok v, s') := by
    obtain ⟨values, s₂, s₃, hvalues, hid, hv⟩ := layer_call_native hn hname hf h
    obtain ⟨hle, hs₁⟩ := hoperand hs hf
    exact ⟨values, s₂, s₃, hvalues, hid ▸ Nat.le_trans hle (hoperands hs₁ hvalues), hv⟩
  cases hmakes with
  | string =>
    cases h
    exact ⟨s.nextId, rfl, Nat.le_refl _, rfl⟩
  | function =>
    cases h
    exact ⟨s.nextId, rfl, Nat.le_refl _, rfl⟩
  | array =>
    obtain ⟨vs, s₁, hvs, rfl, hid⟩ := layer_array_ok h
    exact ⟨s₁.nextId, rfl, hoperands hs hvs, hid⟩
  | map =>
    obtain ⟨entries, values, s₁, hvalues, rfl, hid, -⟩ := layer_map_ok h
    exact ⟨s₁.nextId, rfl, hoperands hs hvalues, hid⟩
  | join hv =>
    obtain ⟨left, right, s₁, s₂, s₃, hright, hleft, hw, hid, -⟩ := layer_binary_ok h
    obtain ⟨hle, hs₁⟩ := hoperand hs hright
    obtain ⟨hv, hnext⟩ := applyBinary_gives _ _ _ _ _ _ hw hv
    exact ⟨s₂.nextId, hv, Nat.le_trans hle (hoperand hs₁ hleft).1, hid.trans hnext⟩
  | rest hf hargs =>
    obtain ⟨values, s₂, s₃, hvalues, hle, hv⟩ := hcall rfl hf h
    rw [hargs] at hvalues
    cases hvalues
    obtain ⟨id, elements, hid, hrest⟩ := Native.rest_ok hv
    cases hid
    rcases hrest with ⟨hnil, -⟩ | ⟨x, xs, -, rfl, hnext⟩
    · cases hnil
    · exact ⟨s₃.nextId, rfl, hle, hnext⟩
  | push hf =>
    obtain ⟨values, s₂, s₃, -, hle, hv⟩ := hcall rfl hf h
    obtain ⟨id, elements, w, -, -, rfl, hnext⟩ := Native.push_ok hv
    exact ⟨s₃.nextId, rfl, hle, hnext⟩
  | typeOf hf =>
    obtain ⟨values, s₂, s₃, -, hle, hv⟩ := hcall rfl hf h
    obtain ⟨hv, hnext⟩ := Native.typeOf_ok hv
    exact ⟨s₃.nextId, hv, hle, hnext⟩

end Standard

/-! ## Passing on -/

/-- **Values are passed on as they are**: nodes that have a value have not made another one of those
of their parts. A name is bound to the value of the right side, or, by an operator with assignment, to
the value of the operator, and stands for what it is bound to. A subscript gives an element or a value
of a map. Arrays have the values of their parts for elements, and maps have them for keys and values,
the last one under each key. The body of a function finds the arguments under the names of the
parameters, and the call has the value of the body, or the one that the body returns. The native
functions on arrays give elements, or arrays of the same elements. -/
structure PassesOn (cfg : Config) (ev : Evaluator) (i : Nat) (s : Store) (n : Node Unit) (v : Value)
    (s' : Store) : Prop where
  bound {x : Ident Unit} {e : Node Unit} (hn : n = .valueStmt () x e) (hi : i < s.scopes.size) :
    ∃ w s₁, operand ev e i s = (.ok w, s₁) ∧ s'.scopes.get? i x.text = some w
  updated {x : Ident Unit} {e : Node Unit} (hn : n = .updateStmt () x e) :
    ∃ w s₁, operand ev e i s = (.ok w, s₁) ∧ s'.scopes.get? i x.text = some w
  assigned {text x : String} {r : Node Unit} (hn : n = .binary () text (.identifier () x) r)
    (htext : Assigns text) : s'.scopes.get? i x = some v
  named {x : String} {w : Value} (hn : n = .identifier () x) (hx : s.scopes.get? i x = some w) : v = w
  subscript {l e : Node Unit} (hn : n = .index () l e) :
    ∃ left place s₁ s₂, operand ev l i s = (.ok left, s₁) ∧ operand ev e i s₁ = (.ok place, s₂) ∧
      ((∃ id es n, left = .array id es ∧ place = .integer n ∧
        v = (if n < 0 then none else es[n.toNat]?).getD .null) ∨
      ∃ id entries k, left = .map id entries ∧ place.key? = some k ∧
        v = (valueAt? k entries).getD .null)
  elements {es : List (Node Unit)} (hn : n = .array () es) :
    ∃ id vs s₁, operands ev i es s = (.ok vs, s₁) ∧ v = .array id vs
  entries {ps : List (Node Unit × Node Unit)} (hn : n = .map () ps) :
    ∃ id entries values s₁,
      operands ev i (Node.map () ps).parts s = (.ok (values.flatMap fun p => [p.1, p.2]), s₁) ∧
      v = .map id entries ∧ (∀ e ∈ entries, e.pair ∈ values) ∧ ∀ k, valueAt? k entries = lastAt? k values
  call {f body : Node Unit} {args : List (Node Unit)} {id outer : Nat} {params : List String} {s₁ : Store}
    (hn : n = .call () f args) (hf : operand ev f i s = (.ok (.function id params body outer), s₁)) :
    ∃ values inner s₂ s₃, operands ev i args s₁ = (.ok values, s₂) ∧
      enterCall cfg (.function id params body outer) params outer values s₂ = (.ok inner, s₃) ∧
      (∀ x w before after, params.zip values = before ++ (x, w) :: after → (∀ b ∈ after, b.1 ≠ x) →
        s₃.scopes.get? inner x = some w) ∧
      atHand (fun w => [settle w]) (ev body inner s₃).1 = [v]
  returned {e : Node Unit} (hn : n = .returnStmt () e) :
    ∃ w s₁, operand ev e i s = (.ok w, s₁) ∧ v = .returned w
  native {f : Node Unit} {args : List (Node Unit)} {name : String} {s₁ : Store} (hn : n = .call () f args)
    (hf : operand ev f i s = (.ok (.native name), s₁)) (hname : name ∈ ["first", "last", "rest", "push"]) :
    ∃ id elements values s₂, operands ev i args s₁ = (.ok values, s₂) ∧
      values[0]? = some (.array id elements) ∧
      (name = "first" → v = elements.head?.getD .null) ∧
      (name = "last" → v = elements.getLast?.getD .null) ∧
      (name = "rest" → elements = [] ∧ v = .null ∨ ∃ id', v = .array id' elements.tail) ∧
      (name = "push" → ∃ id' w, values[1]? = some w ∧ v = .array id' (elements ++ [w]))

section PassesOn

variable {cfg : Config} {ev : Evaluator} {i : Nat} {s s' : Store} {v : Value}

theorem layer_valueStmt_ok {x : Ident Unit} {e : Node Unit}
    (h : layer cfg ev (.valueStmt () x e) i s = (.ok v, s')) (hi : i < s'.scopes.size) :
    ∃ w s₁, operand ev e i s = (.ok w, s₁) ∧ s'.scopes.get? i x.text = some w := by
  obtain ⟨w, s₁, hw, h₁⟩ := exists_of_bind_ok h
  obtain ⟨_, s₂, hbind, h₂⟩ := exists_of_bind_ok h₁
  cases hbind
  obtain ⟨_, s₃, hnote, h₃⟩ := exists_of_bind_ok h₂
  cases h₃
  refine ⟨w, _, hw, ?_⟩
  rw [(note_ok hnote).1] at hi ⊢
  exact Scopes.get?_set_self (by rwa [Scopes.size_set] at hi) w

theorem layer_updateStmt_ok {x : Ident Unit} {e : Node Unit}
    (h : layer cfg ev (.updateStmt () x e) i s = (.ok v, s')) :
    ∃ w s₁, operand ev e i s = (.ok w, s₁) ∧ s'.scopes.get? i x.text = some w := by
  obtain ⟨w, s₁, hw, h₁⟩ := exists_of_bind_ok h
  obtain ⟨_, s₂, hassign, h₂⟩ := exists_of_bind_ok h₁
  cases h₂
  exact ⟨w, _, hw, (assign_ok hassign).1⟩

theorem layer_index_ok {l e : Node Unit} (h : layer cfg ev (.index () l e) i s = (.ok v, s')) :
    ∃ left place s₁ s₂, operand ev l i s = (.ok left, s₁) ∧ operand ev e i s₁ = (.ok place, s₂) ∧
      subscript left place s₂ = (.ok v, s') := by
  obtain ⟨left, s₁, hleft, h₁⟩ := exists_of_bind_ok h
  obtain ⟨place, s₂, hplace, h₂⟩ := exists_of_bind_ok h₁
  exact ⟨left, place, s₁, s₂, hleft, hplace, h₂⟩

theorem layer_returnStmt_ok {e : Node Unit} (h : layer cfg ev (.returnStmt () e) i s = (.ok v, s')) :
    ∃ w s₁, operand ev e i s = (.ok w, s₁) ∧ v = .returned w := by
  obtain ⟨w, s₁, hw, h₁⟩ := exists_of_bind_ok h
  cases h₁
  exact ⟨w, _, hw, rfl⟩

/-- **Every node passes values on as they are.** -/
theorem layer_passesOn (hn : cfg.natives = standard) {n : Node Unit}
    (h : layer cfg ev n i s = (.ok v, s')) (hs : s.Precedes s') : PassesOn cfg ev i s n v s' where
  bound := by
    rintro x e rfl hi
    exact layer_valueStmt_ok h (Nat.lt_of_lt_of_le hi hs.size_le)
  updated := by
    rintro x e rfl
    exact layer_updateStmt_ok h
  assigned := by
    rintro text x r rfl htext
    obtain ⟨-, -, -, -, -, -, -, -, -, hassigns, -⟩ := layer_binary_ok h
    obtain ⟨y, hy, hget⟩ := hassigns htext
    cases hy
    exact hget
  named := by
    rintro x w rfl hx
    have hlook : lookUp cfg i x s = (.ok v, s') := h
    rw [lookUp_apply, hx] at hlook
    cases hlook
    rfl
  subscript := by
    rintro l e rfl
    obtain ⟨left, place, s₁, s₂, hleft, hplace, hv⟩ := layer_index_ok h
    exact ⟨left, place, s₁, s₂, hleft, hplace, subscript_ok hv⟩
  elements := by
    rintro es rfl
    obtain ⟨vs, s₁, hvs, hv, -⟩ := layer_array_ok h
    exact ⟨_, vs, s₁, hvs, hv⟩
  entries := by
    rintro ps rfl
    obtain ⟨entries, values, s₁, hvalues, hv, -, hmem, hlast⟩ := layer_map_ok h
    exact ⟨_, entries, values, s₁, hvalues, hv, hmem, hlast⟩
  call := by
    rintro f body args id outer params s₁ rfl hf
    obtain ⟨callee, values, s₁', s₂, hf', hargs, hcall⟩ := layer_call_ok h
    rw [hf] at hf'
    cases hf'
    obtain ⟨inner, s₃, henter, hv⟩ := applyFunction_ok hcall
    exact ⟨values, inner, s₂, s₃, hargs, henter, fun x w _ _ => enterCall_ok henter, hv⟩
  returned := by
    rintro e rfl
    exact layer_returnStmt_ok h
  native := by
    rintro f args name s₁ rfl hf hname
    simp only [List.mem_cons, List.not_mem_nil, or_false] at hname
    rcases hname with rfl | rfl | rfl | rfl
    · obtain ⟨values, s₂, s₃, hvalues, -, hv⟩ := layer_call_native hn rfl hf h
      obtain ⟨id, elements, hid, hv⟩ := Native.first_ok hv
      exact ⟨id, elements, values, s₂, hvalues, hid, fun _ => hv, nofun, nofun, nofun⟩
    · obtain ⟨values, s₂, s₃, hvalues, -, hv⟩ := layer_call_native hn rfl hf h
      obtain ⟨id, elements, hid, hv⟩ := Native.last_ok hv
      exact ⟨id, elements, values, s₂, hvalues, hid, nofun, fun _ => hv, nofun, nofun⟩
    · obtain ⟨values, s₂, s₃, hvalues, -, hv⟩ := layer_call_native hn rfl hf h
      obtain ⟨id, elements, hid, hrest⟩ := Native.rest_ok hv
      refine ⟨id, elements, values, s₂, hvalues, hid, nofun, nofun, fun _ => ?_, nofun⟩
      rcases hrest with hnil | ⟨x, xs, rfl, hv, -⟩
      · exact Or.inl hnil
      · exact Or.inr ⟨_, hv⟩
    · obtain ⟨values, s₂, s₃, hvalues, -, hv⟩ := layer_call_native hn rfl hf h
      obtain ⟨id, elements, w, hid, hw, hv, -⟩ := Native.push_ok hv
      exact ⟨id, elements, values, s₂, hvalues, hid, nofun, nofun, nofun, fun _ => ⟨_, w, hw, hv⟩⟩

end PassesOn

end SepiaLang
