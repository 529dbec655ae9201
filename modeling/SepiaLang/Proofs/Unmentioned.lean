import SepiaLang.Proofs.Renaming

/-!
# Names that a program does not mention

A program that does not mention a name cannot tell whether it is bound. Its run in a root scope that
binds the name is a copy of its run in an empty one, step by step: lookups skip the binding, identities
compare the same under their other numbers, and what is shown or printed is the same.

* `Value.Copies`, `Stop.Copies`: the second one is the first one with other numbers.
* `Mirrors`: the second computation does to a copy of a store what the first one does to the store.
* `layer_mirrors`: a node does so if its parts do. **`eval_mirrors`**: every evaluation does so.
* **`unmentioned_irrelevant`**: the run with a binding that is not mentioned, and the run without it.
-/

namespace SepiaLang

open SepiaLang.Computation

/-- The second value is the first one with other numbers, and no hidden name occurs in it. -/
def Value.Copies (ρ : Renaming) (hidden : List (String × Value)) (v v' : Value) : Prop :=
  v' = v.rename ρ ∧ v.Avoids hidden

/-- The two evaluations stop in the same way. -/
inductive Stop.Copies (ρ : Renaming) (hidden : List (String × Value)) : Stop → Stop → Prop
  | returning {v v' : Value} (h : v.Copies ρ hidden v') : Copies ρ hidden (.returning v) (.returning v')
  | failed (e : EvalError) : Copies ρ hidden (.failed e) (.failed e)
  | tooDeep : Copies ρ hidden .tooDeep .tooDeep
  | fault (f : Fault) : Copies ρ hidden (.fault f) (.fault f)

variable {ρ : Renaming} {hidden : List (String × Value)} {before : List String} {α α' β β' : Type}

/-- **The second computation does to a copy of a store what the first one does to the store.** Their
results are related by `R`. -/
abbrev Mirrors (ρ : Renaming) (hidden : List (String × Value)) (before : List String)
    (R : α → α' → Prop) (m : Run α) (m' : Run α') : Prop :=
  Relates (Image ρ hidden before) (Stop.Copies ρ hidden) R m m'

/-- The lists are copies of each other, value by value. -/
def CopiesAll (ρ : Renaming) (hidden : List (String × Value)) (vs vs' : List Value) : Prop :=
  vs' = vs.map (·.rename ρ) ∧ ∀ v ∈ vs, v.Avoids hidden

/-- The entries with other numbers. -/
def renamed (ρ : Renaming) (entries : List (Entry Value)) : List (Entry Value) :=
  entries.map (Entry.map (Value.rename ρ))

/-- The entries are copies of each other. -/
def CopiesEntries (ρ : Renaming) (hidden : List (String × Value)) (es es' : List (Entry Value)) : Prop :=
  es' = renamed ρ es ∧ ∀ e ∈ es, e.key.Avoids hidden ∧ e.value.Avoids hidden

/-! ## Steps on the store -/

theorem mirrors_fail {R : α → α' → Prop} (e : EvalError) :
    Mirrors ρ hidden before R (fail e) (fail e) := .throw (.failed e)

theorem mirrors_fail_bind {R : β → β' → Prop} (e : EvalError) (f : α → Run β) (f' : α' → Run β') :
    Mirrors ρ hidden before R (fail e >>= f) (fail e >>= f') :=
  .bind (R := fun _ _ => False) (mirrors_fail e) nofun

theorem mirrors_textOrStop (text? : Option String) :
    Mirrors ρ hidden before Eq (textOrStop text?) (textOrStop text?) := by
  cases text? with
  | none => exact .throw .tooDeep
  | some text => exact .pure rfl

/-- Entries with the same line, which both can be made or cannot. -/
theorem mirrors_note (cfg : Config) (level : Nat) {entry entry' : LogEntry}
    (hrender : entry'.render = entry.render) (hfits : entry'.fits displayLimit = entry.fits displayLimit) :
    Mirrors ρ hidden before (fun _ _ => True) (note cfg level entry) (note cfg level entry') := by
  unfold note
  rw [hfits]
  split
  · split
    · exact .modify fun c s h => h.write hrender
    · exact .throw .tooDeep
  · exact .pure trivial

/-- **Making a value** in both stores. -/
theorem mirrors_make {make : Nat → Value} {make' : Nat → Value}
    (h : ∀ k, (make k).Copies ρ hidden (make' (k + ρ.ids))) :
    Mirrors ρ hidden before (Value.Copies ρ hidden) (do return make (← freshId))
      (do return make' (← freshId)) := by
  intro c s hs
  refine ⟨hs.nextId_succ, .ok ?_⟩
  have := h c.nextId
  rwa [← hs.nextId] at this

theorem mirrors_newString (text : String) :
    Mirrors ρ hidden before (Value.Copies ρ hidden) (newString text) (newString text) :=
  mirrors_make fun _ => ⟨rfl, Value.within_string _ _⟩

theorem mirrors_newError (message : String) :
    Mirrors ρ hidden before (Value.Copies ρ hidden) (newError message) (newError message) :=
  mirrors_make fun _ => ⟨rfl, Value.within_error _ _⟩

theorem mirrors_newArray {elements elements' : List Value} (h : CopiesAll ρ hidden elements elements') :
    Mirrors ρ hidden before (Value.Copies ρ hidden) (newArray elements) (newArray elements') := by
  refine mirrors_make fun k => ⟨?_, Value.within_array h.2⟩
  rw [Value.rename, Value.renameAll_eq_map, h.1]

theorem mirrors_newMap {entries entries' : List (Entry Value)}
    (h : CopiesEntries ρ hidden entries entries') :
    Mirrors ρ hidden before (Value.Copies ρ hidden) (newMap entries) (newMap entries') := by
  refine mirrors_make fun k => ⟨?_, Value.within_map h.2⟩
  rw [Value.rename, Value.renameEntries_eq_map, h.1, renamed]

theorem mirrors_newScope (p : Nat) :
    Mirrors ρ hidden before (fun i i' => i' = ρ.scope i ∧ 0 < i) (newScope (some p))
      (newScope (some (ρ.scope p))) :=
  fun _ _ hs => ⟨hs.addScope p, .ok ⟨hs.size, hs.size_pos⟩⟩

theorem mirrors_bindName {i : Nat} {x : String} (hx : Unbound (hiddenIn hidden i) x) {v : Value}
    (hv : v.Avoids hidden) :
    Mirrors ρ hidden before (fun _ _ => True) (bindName i x v) (bindName (ρ.scope i) x (v.rename ρ)) :=
  .modify fun _ _ hs => hs.set hx hv

theorem mirrors_assign (cfg : Config) (i : Nat) {x : String} (hx : Unbound hidden x) {v : Value}
    (hv : v.Avoids hidden) :
    Mirrors ρ hidden before (fun _ _ => True) (assign cfg i x v)
      (assign cfg (ρ.scope i) x (v.rename ρ)) := by
  intro c s hs
  rw [assign_apply, assign_apply]
  rcases hs.update? hx i hv with ⟨hc, hs'⟩ | ⟨scopes, scopes', hc, hs', himage⟩
  · rw [hc, hs']
    exact ⟨hs, .error (.failed _)⟩
  · rw [hc, hs']
    refine mirrors_note cfg 2 ?_ ?_ _ _ himage
    · simp only [LogEntry.render, Value.inspect_rename]
    · simp only [LogEntry.fits, Value.fits_rename]

theorem mirrors_lookUp (cfg : Config) (i : Nat) {x : String} (hx : Unbound hidden x) :
    Mirrors ρ hidden before (Value.Copies ρ hidden) (lookUp cfg i x) (lookUp cfg (ρ.scope i) x) := by
  intro c s hs
  rw [lookUp_apply, lookUp_apply, hs.get? hx]
  cases hv : c.scopes.get? i x with
  | some v => exact ⟨hs, .ok ⟨rfl, hs.avoids_of_get? hv⟩⟩
  | none =>
    cases cfg.natives.lookup x with
    | some native => exact ⟨hs, .ok ⟨rfl, Value.within_native x⟩⟩
    | none => exact ⟨hs, .error (.failed _)⟩

theorem mirrors_bindParams {i : Nat} (hi : 0 < i) : ∀ (params : List String) (args : List Value),
    (∀ v ∈ args, v.Avoids hidden) →
      Mirrors ρ hidden before (fun _ _ => True) (bindParams i params args)
        (bindParams (ρ.scope i) params (args.map (·.rename ρ)))
  | [], _, _ => .pure trivial
  | _ :: _, [], _ => .pure trivial
  | p :: ps, v :: vs, h => by
    have hp : Unbound (hiddenIn hidden i) p := by
      rw [hiddenIn, if_neg (Nat.ne_of_gt hi)]
      exact List.forall_mem_nil _
    refine .bind (mirrors_bindName hp (h v List.mem_cons_self)) fun _ _ _ => ?_
    exact mirrors_bindParams hi ps vs fun w hw => h w (List.mem_cons_of_mem _ hw)

/-! ## Operators and subscripts -/

theorem copies_integer (n : Int) : (Value.integer n).Copies ρ hidden (.integer n) :=
  ⟨rfl, Value.within_integer trivial⟩

theorem copies_boolean (b : Bool) : (Value.boolean b).Copies ρ hidden (.boolean b) :=
  ⟨rfl, Value.within_boolean b⟩

theorem copies_null : Value.null.Copies ρ hidden .null := ⟨rfl, Value.within_null⟩

theorem mirrors_applyUnary (cfg : Config) (i : Nat) (text : String) {target : Node Unit}
    (htarget : target.Avoids hidden) (v : Value) :
    Mirrors ρ hidden before (Value.Copies ρ hidden) (applyUnary cfg i text target v)
      (applyUnary cfg (ρ.scope i) text target (v.rename ρ)) := by
  unfold applyUnary
  rcases UnaryOp.ofText? text with _ | (_ | _ | amount)
  · change Mirrors ρ hidden before _ (fail (.unknownUnary text v.type))
      (fail (.unknownUnary text (v.rename ρ).type))
    rw [Value.type_rename]
    exact mirrors_fail _
  · change Mirrors ρ hidden before _ (pure (Value.boolean (!v.truthy)))
      (pure (Value.boolean (!(v.rename ρ).truthy)))
    rw [Value.truthy_rename]
    exact .pure (copies_boolean _)
  · cases v with
    | integer n => exact .pure (copies_integer _)
    | _ => exact mirrors_fail _
  · cases v with
    | integer n =>
      cases target with
      | identifier _ x =>
        exact .bind (mirrors_assign cfg i (htarget.unbound List.mem_cons_self)
          (Value.within_integer trivial)) fun _ _ _ => .pure (copies_integer _)
      | _ => exact .pure (copies_integer _)
    | _ => exact mirrors_fail _

theorem mirrors_arith (op : Arith) (a b : Int) :
    Mirrors ρ hidden before Eq (op.apply a b) (op.apply a b) := by
  cases op with
  | add | sub | mul => exact .pure rfl
  | div =>
    change Mirrors ρ hidden before Eq (if b = 0 then fail .divisionByZero else quotient a b)
      (if b = 0 then fail .divisionByZero else quotient a b)
    unfold quotient
    split
    · exact mirrors_fail _
    · split
      · exact .pure rfl
      · exact .throw (.fault _)

theorem mirrors_applyIntegers (text : String) (a b : Int) :
    Mirrors ρ hidden before (Value.Copies ρ hidden) (applyIntegers text a b) (applyIntegers text a b) := by
  unfold applyIntegers
  split
  · refine .bind (mirrors_arith _ a b) fun n _ hn => ?_
    subst hn
    exact .pure (copies_integer n)
  · exact .pure (copies_boolean _)
  · exact mirrors_fail _

theorem mirrors_applyOthers (text : String) (op : Option BinaryOp) (l r : Value) :
    Mirrors ρ hidden before (Value.Copies ρ hidden) (applyOthers text op l r)
      (applyOthers text op (l.rename ρ) (r.rename ρ)) := by
  have hmismatch : Mirrors ρ hidden before (Value.Copies ρ hidden)
      (if l.type = r.type then fail (.unknownBinary l.type text r.type)
        else fail (.typeMismatch l.type text r.type))
      (if (l.rename ρ).type = (r.rename ρ).type then
          fail (.unknownBinary (l.rename ρ).type text (r.rename ρ).type)
        else fail (.typeMismatch (l.rename ρ).type text (r.rename ρ).type)) := by
    rw [Value.type_rename, Value.type_rename]
    split <;> exact mirrors_fail _
  cases l with
  | boolean a =>
    cases r with
    | boolean b =>
      rcases op with _ | (_ | _ | op)
      · exact hmismatch
      · exact hmismatch
      · exact hmismatch
      · exact .pure (copies_boolean _)
    | _ => exact hmismatch
  | string _ a =>
    cases r with
    | string _ b =>
      rcases op with _ | (⟨_ | _ | _ | _, _⟩ | _ | _)
      · exact hmismatch
      · exact mirrors_newString _
      · exact hmismatch
      · exact hmismatch
      · exact hmismatch
      · exact hmismatch
      · exact hmismatch
    | _ => exact hmismatch
  | _ => exact hmismatch

theorem Value.eq_integer {v : Value} (h : v.type = .integer) : ∃ n, v = .integer n := by
  cases v with
  | integer n => exact ⟨n, rfl⟩
  | _ => cases h

theorem applyBinary_of_ne {l r : Value} (h : l.type ≠ .integer ∨ r.type ≠ .integer) (text : String) :
    applyBinary text l r = match BinaryOp.ofText? text with
      | some (.compare .eq) => return .boolean (l.identical r)
      | some (.compare .ne) => return .boolean (!l.identical r)
      | op => applyOthers text op l r := by
  cases l with
  | integer a =>
    cases r with
    | integer b => exact h.elim (absurd rfl) (absurd rfl)
    | _ => rfl
  | _ => rfl

/-- **Operators do the same**, comparisons of identities included. -/
theorem mirrors_applyBinary (text : String) (l r : Value) :
    Mirrors ρ hidden before (Value.Copies ρ hidden) (applyBinary text l r)
      (applyBinary text (l.rename ρ) (r.rename ρ)) := by
  by_cases h : l.type = .integer ∧ r.type = .integer
  · obtain ⟨a, rfl⟩ := Value.eq_integer h.1
    obtain ⟨b, rfl⟩ := Value.eq_integer h.2
    exact mirrors_applyIntegers text a b
  · have hne : l.type ≠ .integer ∨ r.type ≠ .integer := Classical.not_and_iff_not_or_not.1 h
    rw [applyBinary_of_ne hne, applyBinary_of_ne (by rwa [Value.type_rename, Value.type_rename]),
      Value.identical_rename]
    split
    · exact .pure (copies_boolean _)
    · exact .pure (copies_boolean _)
    · exact mirrors_applyOthers text _ l r

theorem mirrors_keyOf (v : Value) : Mirrors ρ hidden before Eq (keyOf v) (keyOf (v.rename ρ)) := by
  unfold keyOf
  rw [Value.key?_rename, Value.type_rename]
  split
  · exact .pure rfl
  · exact .throw (.fault _)

theorem valueAt?_renamed (k : Key) (entries : List (Entry Value)) :
    valueAt? k (renamed ρ entries) = (valueAt? k entries).map (·.rename ρ) := by
  unfold valueAt? renamed
  rw [List.find?_map, Option.map_map, Option.map_map]
  rfl

theorem putEntry_renamed (k : Key) (key value : Value) (entries : List (Entry Value)) :
    renamed ρ (putEntry k key value entries) =
      putEntry k (key.rename ρ) (value.rename ρ) (renamed ρ entries) :=
  Assoc.map_put (by exact fun _ => rfl) _ _

theorem mirrors_subscript {l : Value} (hl : l.Avoids hidden) (i : Value) :
    Mirrors ρ hidden before (Value.Copies ρ hidden) (subscript l i)
      (subscript (l.rename ρ) (i.rename ρ)) := by
  cases l with
  | array id elements =>
    cases i with
    | integer n =>
      change Mirrors ρ hidden before _
        (if n < 0 ∨ elements.length ≤ n then return .null else elementAt elements n.toNat)
        (if n < 0 ∨ (Value.renameAll ρ elements).length ≤ n then return .null
          else elementAt (Value.renameAll ρ elements) n.toNat)
      rw [Value.renameAll_eq_map, List.length_map]
      split
      · exact .pure copies_null
      · unfold elementAt
        rw [List.getElem?_map]
        cases hv : elements[n.toNat]? with
        | some v => exact .pure ⟨rfl, hl.part (.element (List.mem_of_getElem? hv) (.self v))⟩
        | none => exact .throw (.fault _)
    | _ => exact mirrors_fail _
  | map id entries =>
    rw [Value.rename, Value.renameEntries_eq_map]
    unfold subscript
    dsimp only
    rw [Value.hashable_rename, Value.type_rename]
    split
    · exact mirrors_fail_bind _ _ _
    · refine .bind (mirrors_keyOf i) fun k _ hk => .pure ?_
      subst hk
      change Value.Copies ρ hidden _ ((valueAt? k (renamed ρ entries)).getD .null)
      rw [valueAt?_renamed]
      unfold valueAt?
      cases he : entries.find? (hasKey k) with
      | none => exact copies_null
      | some e => exact ⟨rfl, hl.part (.value (List.mem_of_find?_eq_some he) (.self e.value))⟩
  | _ => exact mirrors_fail _

/-! ## Native functions -/

/-- The native functions do the same with copies of their arguments. -/
def Registry.Mirrors (ρ : Renaming) (hidden : List (String × Value)) (before : List String)
    (natives : Registry) : Prop :=
  ∀ entry ∈ natives, ∀ args : List Value, (∀ v ∈ args, v.Avoids hidden) →
    SepiaLang.Mirrors ρ hidden before (Value.Copies ρ hidden) (entry.2.call args)
      (entry.2.call (args.map (·.rename ρ)))

section Natives

variable {args : List Value} (hargs : ∀ v ∈ args, v.Avoids hidden)
include hargs

theorem mirrors_arg (i : Nat) :
    Mirrors ρ hidden before (Value.Copies ρ hidden) (Native.arg args i)
      (Native.arg (args.map (·.rename ρ)) i) := by
  unfold Native.arg
  rw [List.getElem?_map]
  cases hv : args[i]? with
  | some v => exact .pure ⟨rfl, hargs v (List.mem_of_getElem? hv)⟩
  | none => exact .throw (.fault _)

theorem mirrors_arrayArg (name : String) :
    Mirrors ρ hidden before (CopiesAll ρ hidden) (Native.arrayArg name args)
      (Native.arrayArg name (args.map (·.rename ρ))) := by
  refine .bind (mirrors_arg hargs 0) ?_
  rintro v _ ⟨rfl, hv⟩
  cases v with
  | array id elements =>
    refine .pure ⟨?_, fun w hw => hv.part (.element hw (.self w))⟩
    rw [Value.renameAll_eq_map]
  | _ => exact mirrors_fail _

theorem mirrors_len :
    Mirrors ρ hidden before (Value.Copies ρ hidden) (Native.len args)
      (Native.len (args.map (·.rename ρ))) := by
  refine .bind (mirrors_arg hargs 0) ?_
  rintro v _ ⟨rfl, hv⟩
  cases v with
  | string id text => exact .pure (copies_integer _)
  | array id elements =>
    rw [Value.rename, Value.renameAll_eq_map]
    dsimp only
    rw [List.length_map]
    exact .pure (copies_integer _)
  | map id entries =>
    rw [Value.rename, Value.renameEntries_eq_map]
    dsimp only
    rw [List.length_map]
    exact .pure (copies_integer _)
  | _ => exact mirrors_fail _

omit hargs in
theorem mirrors_printAll (args : List Value) :
    Mirrors ρ hidden before (fun _ _ => True)
      (args.forM fun v => do let line ← textOrStop v.shown?; modify (·.print line) : Run PUnit)
      ((args.map (·.rename ρ)).forM fun v => do let line ← textOrStop v.shown?; modify (·.print line)) := by
  induction args with
  | nil => exact .pure trivial
  | cons v vs ih =>
    refine .bind (R := fun _ _ => True) ?_ fun _ _ _ => ih
    dsimp only
    rw [Value.shown?_rename]
    refine .bind (mirrors_textOrStop _) fun line _ hline => ?_
    subst hline
    exact .modify fun _ _ hs => hs.print line

theorem mirrors_first :
    Mirrors ρ hidden before (Value.Copies ρ hidden) (Native.first args)
      (Native.first (args.map (·.rename ρ))) := by
  refine .bind (mirrors_arrayArg hargs _) ?_
  rintro elements _ ⟨rfl, he⟩
  refine .pure ?_
  rw [List.head?_map]
  cases hv : elements.head? with
  | none => exact copies_null
  | some v => exact ⟨rfl, he v (List.mem_of_head? hv)⟩

theorem mirrors_last :
    Mirrors ρ hidden before (Value.Copies ρ hidden) (Native.last args)
      (Native.last (args.map (·.rename ρ))) := by
  refine .bind (mirrors_arrayArg hargs _) ?_
  rintro elements _ ⟨rfl, he⟩
  refine .pure ?_
  rw [List.getLast?_map]
  cases hv : elements.getLast? with
  | none => exact copies_null
  | some v => exact ⟨rfl, he v (List.mem_of_getLast? hv)⟩

theorem mirrors_rest :
    Mirrors ρ hidden before (Value.Copies ρ hidden) (Native.rest args)
      (Native.rest (args.map (·.rename ρ))) := by
  refine .bind (mirrors_arrayArg hargs _) ?_
  rintro elements _ ⟨rfl, he⟩
  cases elements with
  | nil => exact .pure copies_null
  | cons v vs => exact mirrors_newArray ⟨rfl, fun w hw => he w (List.mem_cons_of_mem _ hw)⟩

theorem mirrors_push :
    Mirrors ρ hidden before (Value.Copies ρ hidden) (Native.push args)
      (Native.push (args.map (·.rename ρ))) := by
  refine .bind (mirrors_arrayArg hargs _) ?_
  rintro elements _ ⟨rfl, he⟩
  refine .bind (mirrors_arg hargs 1) ?_
  rintro v _ ⟨rfl, hv⟩
  refine mirrors_newArray ⟨?_, fun w hw => ?_⟩
  · rw [List.map_append]
    rfl
  · rcases List.mem_append.1 hw with hw | hw
    · exact he w hw
    · rw [List.mem_singleton.1 hw]
      exact hv

theorem mirrors_typeOf :
    Mirrors ρ hidden before (Value.Copies ρ hidden) (Native.typeOf args)
      (Native.typeOf (args.map (·.rename ρ))) := by
  refine .bind (mirrors_arg hargs 0) ?_
  rintro v _ ⟨rfl, -⟩
  rw [Value.type_rename]
  exact mirrors_newString _

end Natives

/-- **The native functions of the language do the same with copies.** -/
theorem standard_mirrors : standard.Mirrors ρ hidden before := by
  intro entry hentry args hargs
  simp only [standard, List.mem_cons, List.not_mem_nil, or_false] at hentry
  rcases hentry with rfl | rfl | rfl | rfl | rfl | rfl | rfl
  · exact mirrors_len hargs
  · exact .bind (mirrors_printAll args) fun _ _ _ => .pure copies_null
  · exact mirrors_first hargs
  · exact mirrors_last hargs
  · exact mirrors_rest hargs
  · exact mirrors_push hargs
  · exact mirrors_typeOf hargs

/-! ## Parts of a node -/

/-- The second evaluator does to copies what the first one does. -/
def Evaluator.Mirrors (ρ : Renaming) (hidden : List (String × Value)) (before : List String)
    (ev ev' : Evaluator) : Prop :=
  ∀ n : Node Unit, n.Avoids hidden → ∀ i,
    SepiaLang.Mirrors ρ hidden before (Value.Copies ρ hidden) (ev n i) (ev' n (ρ.scope i))

section Parts

variable {ev ev' : Evaluator} (hev : ev.Mirrors ρ hidden before ev') (i : Nat)
include hev

theorem mirrors_operand {n : Node Unit} (hn : n.Avoids hidden) :
    Mirrors ρ hidden before (Value.Copies ρ hidden) (operand ev n i) (operand ev' n (ρ.scope i)) := by
  refine .bind (hev n hn i) ?_
  rintro v _ ⟨rfl, hv⟩
  cases v with
  | returned w => exact .throw (.returning ⟨rfl, Value.within_returned_iff.1 hv⟩)
  | _ => exact .pure ⟨rfl, hv⟩

theorem mirrors_operands : ∀ ns : List (Node Unit), (∀ n ∈ ns, n.Avoids hidden) →
    Mirrors ρ hidden before (CopiesAll ρ hidden) (operands ev i ns) (operands ev' (ρ.scope i) ns)
  | [], _ => .pure ⟨rfl, nofun⟩
  | n :: ns, h => by
    refine .bind (mirrors_operand hev i (h n List.mem_cons_self)) ?_
    rintro v _ ⟨rfl, hv⟩
    refine .bind (mirrors_operands ns fun m hm => h m (List.mem_cons_of_mem _ hm)) ?_
    rintro vs _ ⟨rfl, hvs⟩
    refine .pure ⟨rfl, fun w hw => ?_⟩
    rcases List.mem_cons.1 hw with rfl | hw
    · exact hv
    · exact hvs w hw

theorem mirrors_mapEntries : ∀ (pairs : List (Node Unit × Node Unit)) {entries : List (Entry Value)},
    (∀ p ∈ pairs, p.1.Avoids hidden ∧ p.2.Avoids hidden) →
    (∀ e ∈ entries, e.key.Avoids hidden ∧ e.value.Avoids hidden) →
      Mirrors ρ hidden before (CopiesEntries ρ hidden) (mapEntries ev i entries pairs)
        (mapEntries ev' (ρ.scope i) (renamed ρ entries) pairs)
  | [], _, _, h => .pure ⟨rfl, h⟩
  | (k, e) :: pairs, entries, hpairs, h => by
    obtain ⟨hk, he⟩ := hpairs (k, e) List.mem_cons_self
    refine .bind (mirrors_operand hev i hk) ?_
    rintro key _ ⟨rfl, hkey⟩
    dsimp only
    rw [Value.hashable_rename, Value.type_rename]
    split
    · exact mirrors_fail_bind _ _ _
    · refine .bind (mirrors_operand hev i he) ?_
      rintro value _ ⟨rfl, hvalue⟩
      refine .bind (mirrors_keyOf key) fun c _ hc => ?_
      subst hc
      rw [← putEntry_renamed]
      refine mirrors_mapEntries pairs (fun p hp => hpairs p (List.mem_cons_of_mem _ hp)) fun e he => ?_
      rcases Assoc.eq_or_mem_of_mem_put he with rfl | he
      · exact ⟨hkey, hvalue⟩
      · exact h e he

theorem mirrors_blockBody : ∀ (ns : List (Node Unit)) {result : Value}, (∀ n ∈ ns, n.Avoids hidden) →
    result.Avoids hidden → Mirrors ρ hidden before (Value.Copies ρ hidden) (blockBody ev i result ns)
      (blockBody ev' (ρ.scope i) (result.rename ρ) ns)
  | [], _, _, h => .pure ⟨rfl, h⟩
  | n :: ns, _, hns, _ => by
    refine .bind (hev n (hns n List.mem_cons_self) i) ?_
    rintro v _ ⟨rfl, hv⟩
    have hrest := mirrors_blockBody ns (fun m hm => hns m (List.mem_cons_of_mem _ hm)) hv
    cases v with
    | returned w => exact .pure ⟨rfl, hv⟩
    | _ => exact hrest

theorem mirrors_catchReturn {n : Node Unit} (hn : n.Avoids hidden) :
    Mirrors ρ hidden before (Value.Copies ρ hidden) (catchReturn (ev n i))
      (catchReturn (ev' n (ρ.scope i))) := by
  refine .tryCatch (hev n hn i) fun e e' he => ?_
  cases he with
  | returning h =>
    obtain ⟨rfl, hv⟩ := h
    exact .pure ⟨rfl, Value.within_returned_iff.2 hv⟩
  | failed e => exact .throw (.failed e)
  | tooDeep => exact .throw .tooDeep
  | fault f => exact .throw (.fault f)

theorem mirrors_programBody : ∀ (ns : List (Node Unit)) {result : Value}, (∀ n ∈ ns, n.Avoids hidden) →
    result.Avoids hidden → Mirrors ρ hidden before (Value.Copies ρ hidden) (programBody ev i result ns)
      (programBody ev' (ρ.scope i) (result.rename ρ) ns)
  | [], _, _, h => .pure ⟨rfl, h⟩
  | n :: ns, _, hns, _ => by
    refine .bind (mirrors_catchReturn hev i (hns n List.mem_cons_self)) ?_
    rintro v _ ⟨rfl, hv⟩
    have hrest := mirrors_programBody ns (fun m hm => hns m (List.mem_cons_of_mem _ hm)) hv
    cases v with
    | returned w => exact .pure ⟨rfl, Value.within_returned_iff.1 hv⟩
    | _ => exact hrest

end Parts

/-! ## Nodes -/

theorem copies_settle {v : Value} (hv : v.Avoids hidden) :
    (settle v).Copies ρ hidden (settle (v.rename ρ)) := by
  cases v with
  | returned w => exact ⟨rfl, Value.within_returned_iff.1 hv⟩
  | _ => exact ⟨rfl, hv⟩

theorem mirrors_callNative {cfg : Config} {native : Native} {name : String}
    (hn : cfg.natives.Mirrors ρ hidden before) (hnative : (name, native) ∈ cfg.natives) (f : Value)
    {args : List Value} (hargs : ∀ v ∈ args, v.Avoids hidden) :
    Mirrors ρ hidden before (Value.Copies ρ hidden) (callNative cfg f native args)
      (callNative cfg f native (args.map (·.rename ρ))) := by
  refine .bind (mirrors_note cfg 3 rfl rfl) fun _ _ _ => ?_
  refine .bind (hn _ hnative args hargs) ?_
  rintro v _ ⟨rfl, hv⟩
  cases v with
  | error => exact mirrors_fail _
  | _ => exact .pure ⟨rfl, hv⟩

section Nodes

variable {cfg : Config} {ev ev' : Evaluator} (hev : ev.Mirrors ρ hidden before ev')
include hev

/-- Calls do the same. The body of a function avoids the hidden names, since the function does. -/
theorem mirrors_applyFunction (hn : cfg.natives.Mirrors ρ hidden before) {f : Value} (hf : f.Avoids hidden)
    {args : List Value} (hargs : ∀ v ∈ args, v.Avoids hidden) :
    Mirrors ρ hidden before (Value.Copies ρ hidden) (applyFunction cfg ev f args)
      (applyFunction cfg ev' (f.rename ρ) (args.map (·.rename ρ))) := by
  cases f with
  | function id params body outer =>
    have hbody : body.Avoids hidden := hf.2 id params body outer (.self _)
    rw [Value.rename]
    unfold applyFunction
    dsimp only
    rw [List.length_map]
    split
    · exact mirrors_fail_bind _ _ _
    · refine .bind (mirrors_newScope outer) ?_
      rintro inner _ ⟨rfl, hinner⟩
      refine .bind (mirrors_bindParams hinner params args hargs) fun _ _ _ => ?_
      refine .bind (mirrors_note cfg 3 ?_ ?_) fun _ _ _ => ?_
      · simp only [LogEntry.render, Value.inspect, List.map_map, Function.comp_def, Value.inspect_rename]
      · have hf := Value.fits_rename ρ displayLimit (.function id params body outer)
        rw [Value.rename] at hf
        simp only [LogEntry.fits, hf, List.all_map, Function.comp_def, Value.fits_rename]
      · refine .bind (mirrors_catchReturn hev inner hbody) ?_
        rintro v _ ⟨rfl, hv⟩
        exact .pure (copies_settle hv)
  | native name =>
    rw [Value.rename]
    unfold applyFunction
    dsimp only
    split
    · next native hnative =>
      have hcall : Mirrors ρ hidden before (Value.Copies ρ hidden)
          (callNative cfg (.native name) native args)
          (callNative cfg (.native name) native (args.map (·.rename ρ))) :=
        mirrors_callNative hn (Assoc.mem_of_lookup hnative) _ hargs
      split
      · rw [List.length_map]
        split
        · exact mirrors_fail_bind _ _ _
        · exact hcall
      · exact hcall
    · exact mirrors_fail _
  | _ => exact mirrors_fail _

theorem mirrors_binary (i : Nat) (text : String) {l r : Node Unit} (hl : l.Avoids hidden)
    (hr : r.Avoids hidden) :
    Mirrors ρ hidden before (Value.Copies ρ hidden) (binary cfg ev i text l r)
      (binary cfg ev' (ρ.scope i) text l r) := by
  refine .bind (mirrors_operand hev i hr) ?_
  rintro right _ ⟨rfl, -⟩
  refine .bind (mirrors_operand hev i hl) ?_
  rintro left _ ⟨rfl, -⟩
  refine .bind (mirrors_applyBinary text left right) ?_
  rintro v _ ⟨rfl, hv⟩
  dsimp only
  split
  · split
    · exact .bind (mirrors_assign cfg i (hl.unbound List.mem_cons_self) hv) fun _ _ _ => .pure ⟨rfl, hv⟩
    · refine .bind (mirrors_textOrStop _) fun text _ htext => ?_
      subst htext
      exact mirrors_fail_bind _ _ _
  · exact .pure ⟨rfl, hv⟩

theorem mirrors_conditional (i : Nat) {c t e : Node Unit} (hc : c.Avoids hidden) (ht : t.Avoids hidden)
    (he : e.Avoids hidden) :
    Mirrors ρ hidden before (Value.Copies ρ hidden) (conditional cfg ev i c t e)
      (conditional cfg ev' (ρ.scope i) c t e) := by
  refine .bind (mirrors_operand hev i hc) ?_
  rintro v _ ⟨rfl, -⟩
  refine .bind (mirrors_note cfg 3 ?_ ?_) fun _ _ _ => ?_
  · simp only [LogEntry.render, Value.inspect_rename, Value.truthy_rename]
  · simp only [LogEntry.fits, Value.fits_rename]
  · rw [Value.truthy_rename]
    split
    · exact hev t ht i
    · split
      · exact .pure copies_null
      · exact hev e he i

/-- **A node does the same in a copy of a store if its parts do.** -/
theorem layer_mirrors (hn : cfg.natives.Mirrors ρ hidden before) :
    Evaluator.Mirrors ρ hidden before (layer cfg ev) (layer cfg ev') := by
  intro n havoids i
  have hpart {m : Node Unit} (hm : m ∈ n.children) : m.Avoids hidden := havoids.part hm
  cases n with
  | absent => exact mirrors_fail _
  | program body => exact mirrors_programBody hev i body (fun m hm => hpart hm) Value.within_null
  | block _ body => exact mirrors_blockBody hev i body (fun m hm => hpart hm) Value.within_null
  | expressionStmt _ e => exact hev e (hpart List.mem_cons_self) i
  | valueStmt _ name e =>
    have hx : Unbound hidden name.text := havoids.unbound List.mem_cons_self
    refine .bind (mirrors_operand hev i (hpart List.mem_cons_self)) ?_
    rintro v _ ⟨rfl, hv⟩
    refine .bind (mirrors_bindName (Image.unbound_hiddenIn hx i) hv) fun _ _ _ => ?_
    refine .bind (mirrors_note cfg 2 ?_ ?_) fun _ _ _ => .pure copies_null
    · simp only [LogEntry.render, Value.inspect_rename]
    · simp only [LogEntry.fits, Value.fits_rename]
  | updateStmt _ name e =>
    have hx : Unbound hidden name.text := havoids.unbound List.mem_cons_self
    refine .bind (mirrors_operand hev i (hpart List.mem_cons_self)) ?_
    rintro v _ ⟨rfl, hv⟩
    exact .bind (mirrors_assign cfg i hx hv) fun _ _ _ => .pure copies_null
  | returnStmt _ e =>
    refine .bind (mirrors_operand hev i (hpart List.mem_cons_self)) ?_
    rintro v _ ⟨rfl, hv⟩
    exact .pure ⟨rfl, Value.within_returned_iff.2 hv⟩
  | integer _ n => exact .pure (copies_integer n)
  | boolean _ b => exact .pure (copies_boolean b)
  | string _ text => exact mirrors_newString text
  | identifier _ x => exact mirrors_lookUp cfg i (havoids.unbound List.mem_cons_self)
  | unary _ text e =>
    refine .bind (mirrors_operand hev i (hpart List.mem_cons_self)) ?_
    rintro v _ ⟨rfl, -⟩
    exact mirrors_applyUnary cfg i text (hpart List.mem_cons_self) v
  | binary _ text l r =>
    exact mirrors_binary hev i text (hpart List.mem_cons_self)
      (hpart (List.mem_cons_of_mem _ List.mem_cons_self))
  | conditional _ c t e =>
    exact mirrors_conditional hev i (hpart (by simp [Node.children])) (hpart (by simp [Node.children]))
      (hpart (by simp [Node.children]))
  | function _ params body =>
    exact mirrors_make fun _ => ⟨rfl, Value.within_function (hpart List.mem_cons_self)⟩
  | call _ f args =>
    refine .bind (mirrors_operand hev i (hpart List.mem_cons_self)) ?_
    rintro callee _ ⟨rfl, hcallee⟩
    refine .bind (mirrors_operands hev i args fun m hm => hpart (List.mem_cons_of_mem _ hm)) ?_
    rintro values _ ⟨rfl, hvalues⟩
    exact mirrors_applyFunction hev hn hcallee hvalues
  | array _ es =>
    exact .bind (mirrors_operands hev i es fun m hm => hpart hm) fun _ _ h => mirrors_newArray h
  | index _ l e =>
    refine .bind (mirrors_operand hev i (hpart List.mem_cons_self)) ?_
    rintro left _ ⟨rfl, hleft⟩
    refine .bind (mirrors_operand hev i (hpart (List.mem_cons_of_mem _ List.mem_cons_self))) ?_
    rintro place _ ⟨rfl, -⟩
    exact mirrors_subscript hleft place
  | map _ ps =>
    have hpairs : ∀ p ∈ ps, p.1.Avoids hidden ∧ p.2.Avoids hidden := fun p hp =>
      ⟨hpart (List.mem_flatMap.2 ⟨p, hp, by simp⟩), hpart (List.mem_flatMap.2 ⟨p, hp, by simp⟩)⟩
    exact .bind (mirrors_mapEntries hev i ps hpairs nofun) fun _ _ h => mirrors_newMap h

end Nodes

/-- **Every evaluation does the same in a copy of a store.** -/
theorem eval_mirrors {cfg : Config} (hn : cfg.natives.Mirrors ρ hidden before) :
    ∀ depth, Evaluator.Mirrors ρ hidden before (eval cfg depth) (eval cfg depth)
  | 0 => fun _ _ _ => .throw .tooDeep
  | depth + 1 => layer_mirrors (eval_mirrors hn depth) hn

/-- **So does every run.** -/
theorem runWithin_mirrors {cfg : Config} (hn : cfg.natives.Mirrors ρ hidden before) (limit : Nat)
    {program : Node Unit} (hprogram : program.Avoids hidden) (i : Nat) :
    Mirrors ρ hidden before (Value.Copies ρ hidden) (runWithin cfg limit program i)
      (runWithin cfg limit program (ρ.scope i)) := by
  refine .bind (mirrors_note cfg 1 rfl rfl) fun _ _ _ => ?_
  refine .bind (.tryCatch (eval_mirrors hn limit program hprogram i) fun e e' he => ?_) ?_
  · cases he with
    | returning h => exact .throw (.returning h)
    | failed e => exact mirrors_newError _
    | tooDeep => exact mirrors_newError _
    | fault f => exact .throw (.fault f)
  · rintro v _ ⟨rfl, hv⟩
    refine .bind (mirrors_note cfg 1 ?_ ?_) fun _ _ _ => .pure ⟨rfl, hv⟩
    · simp only [LogEntry.render, Value.inspect_rename, Value.type_rename]
    · simp only [LogEntry.fits, Value.fits_rename]

/-! ## Two runs -/

/-- What a program lets one see of a value. -/
def Value.look (v : Value) : ValueType × Option String × String := (v.type, v.shown?, v.inspect)

theorem Value.look_rename (ρ : Renaming) (v : Value) : (v.rename ρ).look = v.look := by
  simp only [look, type_rename, shown?_rename, inspect_rename]

/-- The store with an empty root scope and nothing else. -/
def Store.bare (isOpen : Bool) : Store := { scopes := #[{}], log := { isOpen := isOpen } }

/-- A store with a root scope is a copy of the bare one, with the bindings of the scope hidden. -/
theorem image_bare {s : Store} {i : Nat} {bindings : List (String × Value)}
    (h : s.scopes[i]? = some { bindings := bindings }) :
    ∃ ρ : Renaming, ρ.root = i ∧
      Image ρ bindings s.output.toList (Store.bare s.log.isOpen) s := by
  have hi : i < s.scopes.size := (Array.getElem?_eq_some_iff.1 h).1
  refine ⟨⟨s.nextId, i, s.scopes.size, hi⟩, rfl, ⟨[], rfl⟩, rfl, ?_, ?_, ?_, ?_, rfl⟩
  · intro k scope hk
    cases k with
    | zero =>
      cases hk
      change s.scopes[i]? = some { bindings := hiddenIn bindings 0 ++ [] }
      rw [h, List.append_nil]
      rfl
    | succ k => cases hk
  · intro k scope hk b hb
    cases k with
    | zero =>
      cases hk
      exact absurd hb List.not_mem_nil
    | succ k => cases hk
  · simp [Store.bare]
  · simp [Store.bare]

/-- The outcome of a run in a copy looks the same. -/
theorem look_of_outcomes {r r' : Except Stop Value} (hr : ∀ v, r ≠ .error (.returning v))
    (h : Outcomes (Stop.Copies ρ hidden) (Value.Copies ρ hidden) r r') :
    r'.map Value.look = r.map Value.look := by
  cases h with
  | ok h =>
    obtain ⟨rfl, -⟩ := h
    simp only [Except.map, Value.look_rename]
  | error h =>
    cases h with
    | returning h => exact absurd rfl (hr _)
    | failed | tooDeep | fault => rfl

/-- **A binding that a program does not mention makes no difference.** Let a program run in an empty root
scope of a store, and in a root scope of another store that binds only a name that does not occur in the
program. The two results look the same, or both runs stop in the same way, and the same lines are printed.
Afterwards the root scopes bind the same names, to values that look the same, except that the second one
still binds the name as it did. -/
theorem unmentioned_irrelevant (level limit : Nat) (body : List (Node Unit)) (x : String)
    (hx : ¬ (Node.program body).Mentions x) (v : Value) (s₁ s₂ : Store) (i₁ i₂ : Nat)
    (h₁ : s₁.scopes[i₁]? = some {}) (h₂ : s₂.scopes[i₂]? = some { bindings := [(x, v)] })
    (hlog : s₁.log.isOpen = s₂.log.isOpen) :
    let cfg : Config := { logLevel := level }
    let r₁ := runWithin cfg limit (.program body) i₁ s₁
    let r₂ := runWithin cfg limit (.program body) i₂ s₂
    r₁.1.map Value.look = r₂.1.map Value.look ∧
    (∃ printed, r₁.2.output.toList = s₁.output.toList ++ printed ∧
      r₂.2.output.toList = s₂.output.toList ++ printed) ∧
    ∃ bindings₁ bindings₂, r₁.2.scopes[i₁]? = some { bindings := bindings₁ } ∧
      r₂.2.scopes[i₂]? = some { bindings := (x, v) :: bindings₂ } ∧
      bindings₁.map (fun b => (b.1, b.2.look)) = bindings₂.map (fun b => (b.1, b.2.look)) ∧
      ∀ b ∈ bindings₂, b.1 ≠ x := by
  intro cfg r₁ r₂
  obtain ⟨ρ₁, rfl, himage₁⟩ := image_bare h₁
  obtain ⟨ρ₂, rfl, himage₂⟩ := image_bare h₂
  rw [← hlog] at himage₂
  have hnone : (Node.program body).Avoids [] := fun _ hb => absurd hb List.not_mem_nil
  have havoids : (Node.program body).Avoids [(x, v)] := by
    intro b hb
    rw [List.mem_singleton.1 hb]
    exact hx
  -- both runs are copies of the run in the bare store
  let r := runWithin cfg limit (.program body) 0 (Store.bare s₁.log.isOpen)
  obtain ⟨hs₁, hr₁⟩ : Image ρ₁ [] _ r.2 r₁.2 ∧ Outcomes _ _ r.1 r₁.1 :=
    runWithin_mirrors standard_mirrors limit hnone 0 _ _ himage₁
  obtain ⟨hs₂, hr₂⟩ : Image ρ₂ [(x, v)] _ r.2 r₂.2 ∧ Outcomes _ _ r.1 r₂.1 :=
    runWithin_mirrors standard_mirrors limit havoids 0 _ _ himage₂
  have hstops : ∀ w, r.1 ≠ .error (.returning w) := by
    intro w hw
    rcases runWithin_cases cfg limit body 0 (Store.bare s₁.log.isOpen) with ⟨u, h, -⟩ | h | ⟨f, h⟩ <;>
      cases hw.symm.trans h
  refine ⟨?_, ⟨r.2.output.toList, hs₁.output, hs₂.output⟩, ?_⟩
  · exact (look_of_outcomes hstops hr₁).trans (look_of_outcomes hstops hr₂).symm
  · obtain ⟨bindings, hroot⟩ := hs₁.root
    have hroot₁ : r₁.2.scopes[ρ₁.root]? = some { bindings := bindings.map fun b => (b.1, b.2.rename ρ₁) } :=
      hs₁.scope hroot
    have hroot₂ : r₂.2.scopes[ρ₂.root]? =
        some { bindings := (x, v) :: bindings.map fun b => (b.1, b.2.rename ρ₂) } := hs₂.scope hroot
    refine ⟨_, _, hroot₁, hroot₂, ?_, ?_⟩
    · simp only [List.map_map, Function.comp_def, Value.look_rename]
    · intro b hb
      obtain ⟨b', hb', rfl⟩ := List.mem_map.1 hb
      exact ((hs₂.unbound hroot hb').1 (x, v) List.mem_cons_self).symm

/-- A program that makes a function, calls it and binds the result, in the store of a new interpreter, and
in one with another scope, where the root binds another name to a function. -/
theorem unmentioned_irrelevant_call :
    let f : Node Unit := .function () [⟨"a", ()⟩] (.block () [.array () [.identifier () "a"]])
    let body := [.valueStmt () ⟨"y", ()⟩ (.call () f [.integer () 7]), .identifier () "y"]
    let v : Value := .function 3 [] f 1
    let s₁ := Store.start false
    let s₂ : Store := { scopes := #[{ bindings := [("x", v)] }, { parent := some 0 }], nextId := 5 }
    let r₁ := runWithin {} 9 (.program body) 0 s₁
    let r₂ := runWithin {} 9 (.program body) 0 s₂
    ¬ (Node.program body).Mentions "x" ∧ r₁.1.map Value.look = r₂.1.map Value.look ∧
      r₁.1.map (·.id?) = .ok (some 1) ∧ r₂.1.map (·.id?) = .ok (some 6) ∧
      r₁.1.map Value.inspect = .ok "[7]" ∧
      ∃ bindings, r₂.2.scopes[0]? = some { bindings := ("x", v) :: bindings } := by
  intro f body v s₁ s₂ r₁ r₂
  have hx : ¬ (Node.program body).Mentions "x" := by
    have hwithout : (Node.program body).without "x" 9 = true := by decide
    exact Node.not_mentions_of_without hwithout
  obtain ⟨hlook, -, _, bindings, -, hroot, -⟩ :=
    unmentioned_irrelevant 0 9 body "x" hx v s₁ s₂ 0 0 rfl rfl rfl
  refine ⟨hx, hlook, ?_, ?_, ?_, bindings, hroot⟩ <;> with_unfolding_all rfl

end SepiaLang
