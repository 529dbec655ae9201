import SepiaLang.Eval.Basic
import SepiaLang.Proofs.Computation
import SepiaLang.Proofs.Occurrence

/-!
# Evaluation spares the store

A `return` marks its value as being on its way out, and an error becomes a value when the program
ends. Neither is ever put into the store: evaluation in a store free of such values leaves one that
is free of them, whether it has a value, returns or goes wrong, and its own value is free of them
once the mark is taken off.

* `Spares`: a computation that brings no value of a bad type into the store.
* `Registry.Spares`: native functions that do so, `standard_spares`: those of the language.
* `layer_spares`: a node does so if its parts do.
* **`eval_spares`**: every evaluation does so.
-/

namespace SepiaLang

open SepiaLang.Computation

variable {α : Type}

/-- The computation leads from a store free of `bad` types to one free of them, and its result
satisfies `V`. A value that it stops with on its way out is free of them as well. -/
abbrev Spares (bad : ValueType → Prop) (V : α → Prop) (m : Run α) : Prop :=
  Keeps (Store.Free bad) (Stop.Free bad) V m

/-- The evaluator spares the store, and its values are free of `bad` types but for the mark of a
value on its way out. -/
def Evaluator.Spares (bad : ValueType → Prop) (ev : Evaluator) : Prop :=
  ∀ n scope, SepiaLang.Spares bad (fun v => (settle v).Free bad) (ev n scope)

/-- The native functions spare the store when they are given arguments free of `bad` types, and
their results are free of them, except that a whole result may be an error. -/
def Registry.Spares (bad : ValueType → Prop) (natives : Registry) : Prop :=
  ∀ entry ∈ natives, ∀ args : List Value, (∀ v ∈ args, v.Free bad) →
    SepiaLang.Spares bad (fun v => v.type = .error ∨ v.Free bad) (entry.2.call args)

variable {bad : ValueType → Prop}

/-! ## Steps on the store -/

theorem spares_fail {V : α → Prop} (e : EvalError) : Spares bad V (fail e) := Keeps.throw trivial

theorem spares_fail_bind {β : Type} {V : β → Prop} (e : EvalError) (f : α → Run β) :
    Spares bad V (fail e >>= f) :=
  Keeps.bind (V := fun _ => False) (spares_fail e) nofun

theorem spares_textOrStop (text? : Option String) : Spares bad (fun _ => True) (textOrStop text?) := by
  cases text? with
  | none => exact Keeps.throw trivial
  | some text => exact Keeps.pure trivial

/-- Writing to the log leaves the scopes and the identities alone. -/
theorem Store.write_scopes (s : Store) (entry : LogEntry) : (s.write entry).scopes = s.scopes := by
  unfold Store.write
  split <;> rfl

theorem Store.write_nextId (s : Store) (entry : LogEntry) : (s.write entry).nextId = s.nextId := by
  unfold Store.write
  split <;> rfl

theorem note_keeps (cfg : Config) (level : Nat) (entry : LogEntry) (s : Store) :
    (note cfg level entry s).2.scopes = s.scopes ∧ (note cfg level entry s).2.nextId = s.nextId := by
  unfold note
  split
  · split
    · exact ⟨s.write_scopes entry, s.write_nextId entry⟩
    · exact ⟨rfl, rfl⟩
  · exact ⟨rfl, rfl⟩

theorem Store.Free.write {s : Store} (h : s.Free bad) (entry : LogEntry) : (s.write entry).Free bad :=
  h.of_scopes (s.write_scopes entry)

theorem spares_note (cfg : Config) (level : Nat) (entry : LogEntry) :
    Spares bad (fun _ => True) (note cfg level entry) := by
  unfold note
  split
  · split
    · exact Keeps.modify fun _ hs => hs.write entry
    · exact Keeps.throw trivial
  · exact Keeps.pure trivial

theorem spares_freshId : Spares bad (fun _ => True) freshId :=
  Keeps.bind Keeps.get fun _ hs => Keeps.bind (Keeps.set (hs.of_scopes rfl)) fun _ _ =>
    Keeps.pure trivial

theorem spares_newString (hb : Inner bad) (text : String) :
    Spares bad (Value.Free bad) (newString text) :=
  Keeps.bind spares_freshId fun _ _ => Keeps.pure (hb.free_of_atomic rfl)

theorem spares_newArray (hb : Inner bad) {elements : List Value} (h : ∀ v ∈ elements, v.Free bad) :
    Spares bad (Value.Free bad) (newArray elements) :=
  Keeps.bind spares_freshId fun _ _ => Keeps.pure (hb.array_iff.2 h)

theorem spares_newMap (hb : Inner bad) {entries : List (Entry Value)}
    (h : ∀ e ∈ entries, e.key.Free bad ∧ e.value.Free bad) :
    Spares bad (Value.Free bad) (newMap entries) :=
  Keeps.bind spares_freshId fun _ _ => Keeps.pure (hb.map_iff.2 h)

theorem spares_newScope (parent : Option Nat) : Spares bad (fun _ => True) (newScope parent) :=
  fun _ hs => ⟨hs.addScope parent, trivial⟩

theorem spares_bindName (scope : Nat) (name : String) {v : Value} (hv : v.Free bad) :
    Spares bad (fun _ => True) (bindName scope name v) :=
  Keeps.modify fun _ hs => hs.set hv scope name

theorem spares_assign (cfg : Config) (scope : Nat) (name : String) {v : Value} (hv : v.Free bad) :
    Spares bad (fun _ => True) (assign cfg scope name v) := by
  refine Keeps.bind Keeps.get fun s hs => ?_
  split
  · next scopes hu => exact Keeps.bind (Keeps.set (hs.update? hv hu)) fun _ _ => spares_note cfg 2 _
  · exact spares_fail _

theorem spares_lookUp (hb : Inner bad) (cfg : Config) (scope : Nat) (name : String) :
    Spares bad (Value.Free bad) (lookUp cfg scope name) := by
  refine Keeps.bind Keeps.get fun s hs => ?_
  split
  · next v hv => exact Keeps.pure (hs.get? hv)
  · split
    · exact Keeps.pure (hb.free_of_atomic rfl)
    · exact spares_fail _

theorem spares_bindParams (scope : Nat) : ∀ (params : List String) (args : List Value),
    (∀ v ∈ args, v.Free bad) → Spares bad (fun _ => True) (bindParams scope params args)
  | [], _, _ => Keeps.pure trivial
  | _ :: _, [], _ => Keeps.pure trivial
  | p :: ps, v :: vs, h =>
    Keeps.bind (spares_bindName scope p (h v List.mem_cons_self)) fun _ _ =>
      spares_bindParams scope ps vs fun w hw => h w (List.mem_cons_of_mem _ hw)

/-! ## Operators and subscripts -/

theorem spares_applyUnary (hb : Inner bad) (cfg : Config) (scope : Nat) (text : String)
    (target : Node Unit) (v : Value) :
    Spares bad (Value.Free bad) (applyUnary cfg scope text target v) := by
  unfold applyUnary
  split
  · exact Keeps.pure (hb.free_of_atomic rfl)
  · exact Keeps.pure (hb.free_of_atomic rfl)
  · dsimp only
    split
    · exact Keeps.bind (spares_assign cfg scope _ (hb.free_of_atomic rfl)) fun _ _ =>
        Keeps.pure (hb.free_of_atomic rfl)
    · exact Keeps.pure (hb.free_of_atomic rfl)
  · exact spares_fail _

theorem spares_arith (op : Arith) (a b : Int) : Spares bad (fun _ => True) (op.apply a b) := by
  cases op with
  | add | sub | mul => exact Keeps.pure trivial
  | div =>
    change Spares bad _ (if b = 0 then fail .divisionByZero else quotient a b)
    unfold quotient
    split
    · exact spares_fail _
    · split
      · exact Keeps.pure trivial
      · exact Keeps.throw trivial

theorem spares_applyBinary (hb : Inner bad) (text : String) (l r : Value) :
    Spares bad (Value.Free bad) (applyBinary text l r) := by
  unfold applyBinary
  split
  · unfold applyIntegers
    split
    · exact Keeps.bind (spares_arith _ _ _) fun _ _ => Keeps.pure (hb.free_of_atomic rfl)
    · exact Keeps.pure (hb.free_of_atomic rfl)
    · exact spares_fail _
  · split
    · exact Keeps.pure (hb.free_of_atomic rfl)
    · exact Keeps.pure (hb.free_of_atomic rfl)
    · unfold applyOthers
      split
      · exact Keeps.pure (hb.free_of_atomic rfl)
      · exact spares_newString hb _
      · split <;> exact spares_fail _

theorem spares_keyOf (v : Value) : Spares bad (fun _ => True) (keyOf v) := by
  unfold keyOf
  split
  · exact Keeps.pure trivial
  · exact Keeps.throw trivial

theorem spares_subscript (hb : Inner bad) {l i : Value} (hl : l.Free bad) :
    Spares bad (Value.Free bad) (subscript l i) := by
  unfold subscript
  split
  · next elements n =>
    split
    · exact Keeps.pure (hb.free_of_atomic rfl)
    · unfold elementAt
      split
      · next v hv => exact Keeps.pure (hb.array_iff.1 hl v (List.mem_of_getElem? hv))
      · exact Keeps.throw trivial
  · next entries =>
    dsimp only
    split
    · exact spares_fail_bind _ _
    · refine Keeps.bind (spares_keyOf i) fun k _ => Keeps.pure ?_
      unfold valueAt?
      cases he : entries.find? (hasKey k) with
      | none => exact hb.free_of_atomic rfl
      | some e => exact (hb.map_iff.1 hl e (List.mem_of_find?_eq_some he)).2
  · exact spares_fail _

/-! ## Native functions -/

theorem spares_arg {args : List Value} (h : ∀ v ∈ args, v.Free bad) (i : Nat) :
    Spares bad (Value.Free bad) (Native.arg args i) := by
  unfold Native.arg
  split
  · next v hv => exact Keeps.pure (h v (List.mem_of_getElem? hv))
  · exact Keeps.throw trivial

theorem spares_arrayArg (hb : Inner bad) (name : String) {args : List Value}
    (h : ∀ v ∈ args, v.Free bad) :
    Spares bad (fun elements => ∀ v ∈ elements, v.Free bad) (Native.arrayArg name args) := by
  refine Keeps.bind (spares_arg h 0) fun v hv => ?_
  split
  · exact Keeps.pure (hb.array_iff.1 hv)
  · exact spares_fail _

theorem spares_puts (hb : Inner bad) (args : List Value) :
    Spares bad (Value.Free bad) (Native.puts args) := by
  refine Keeps.bind (Keeps.forM (fun v => ?_) args) fun _ _ => Keeps.pure (hb.free_of_atomic rfl)
  exact Keeps.bind (spares_textOrStop _) fun line _ => Keeps.modify fun _ hs => hs.of_scopes rfl

/-- **The native functions of the language** make no values of inner types. -/
theorem standard_spares (hb : Inner bad) : standard.Spares bad := by
  intro entry hentry args hargs
  refine Keeps.mono ?_ fun _ => Or.inr
  simp only [standard, List.mem_cons, List.not_mem_nil, or_false] at hentry
  rcases hentry with rfl | rfl | rfl | rfl | rfl | rfl | rfl
  · refine Keeps.bind (spares_arg hargs 0) fun v _ => ?_
    split
    · exact Keeps.pure (hb.free_of_atomic rfl)
    · exact Keeps.pure (hb.free_of_atomic rfl)
    · exact Keeps.pure (hb.free_of_atomic rfl)
    · exact spares_fail _
  · exact spares_puts hb args
  · refine Keeps.bind (spares_arrayArg hb _ hargs) fun elements he => Keeps.pure ?_
    cases hv : elements.head? with
    | none => exact hb.free_of_atomic rfl
    | some v => exact he v (List.mem_of_head? hv)
  · refine Keeps.bind (spares_arrayArg hb _ hargs) fun elements he => Keeps.pure ?_
    cases hv : elements.getLast? with
    | none => exact hb.free_of_atomic rfl
    | some v => exact he v (List.mem_of_getLast? hv)
  · refine Keeps.bind (spares_arrayArg hb _ hargs) fun elements he => ?_
    split
    · exact Keeps.pure (hb.free_of_atomic rfl)
    · exact spares_newArray hb fun v hv => he v (List.mem_cons_of_mem _ hv)
  · refine Keeps.bind (spares_arrayArg hb _ hargs) fun elements he => ?_
    refine Keeps.bind (spares_arg hargs 1) fun v hv => spares_newArray hb fun w hw => ?_
    rcases List.mem_append.1 hw with hw | hw
    · exact he w hw
    · rw [List.mem_singleton.1 hw]
      exact hv
  · exact Keeps.bind (spares_arg hargs 0) fun _ _ => spares_newString hb _

/-! ## Parts of a node -/

theorem settle_of_ne {v : Value} (h : ∀ w, v ≠ .returned w) : settle v = v := by
  cases v with
  | returned w => exact absurd rfl (h w)
  | _ => rfl

theorem Inner.ne_returned (hb : Inner bad) {v : Value} (h : v.Free bad) (w : Value) :
    v ≠ .returned w := by
  rintro rfl
  exact h.type hb.returned

/-- A free value is not marked, so that nothing is taken off. -/
theorem Inner.settle (hb : Inner bad) {v : Value} (h : v.Free bad) : (settle v).Free bad := by
  rwa [settle_of_ne (hb.ne_returned h)]

section Parts

variable {ev : Evaluator} (hev : ev.Spares bad) (scope : Nat)
include hev

theorem spares_operand (n : Node Unit) : Spares bad (Value.Free bad) (operand ev n scope) := by
  refine Keeps.bind (hev n scope) fun v hv => ?_
  split
  · exact Keeps.throw hv
  · next h =>
    rw [settle_of_ne h] at hv
    exact Keeps.pure hv

theorem spares_operands (ns : List (Node Unit)) :
    Spares bad (fun vs => ∀ v ∈ vs, v.Free bad) (operands ev scope ns) := by
  induction ns with
  | nil => exact Keeps.pure nofun
  | cons n ns ih =>
    refine Keeps.bind (spares_operand hev scope n) fun v hv => ?_
    refine Keeps.bind ih fun vs hvs => Keeps.pure fun w hw => ?_
    rcases List.mem_cons.1 hw with rfl | hw
    · exact hv
    · exact hvs w hw

theorem spares_mapEntries : ∀ (pairs : List (Node Unit × Node Unit)) (entries : List (Entry Value)),
    (∀ e ∈ entries, e.key.Free bad ∧ e.value.Free bad) →
      Spares bad (fun es => ∀ e ∈ es, e.key.Free bad ∧ e.value.Free bad)
        (mapEntries ev scope entries pairs)
  | [], _, h => Keeps.pure h
  | (k, v) :: pairs, entries, h => by
    have hrest : ∀ key : Value, key.Free bad → Spares bad
        (fun es => ∀ e ∈ es, e.key.Free bad ∧ e.value.Free bad) (do
          let value ← operand ev v scope
          mapEntries ev scope (putEntry (← keyOf key) key value entries) pairs) := by
      intro key hkey
      refine Keeps.bind (spares_operand hev scope v) fun value hvalue => ?_
      refine Keeps.bind (spares_keyOf key) fun i _ => spares_mapEntries pairs _ fun e he => ?_
      rcases Assoc.eq_or_mem_of_mem_put he with rfl | he
      · exact ⟨hkey, hvalue⟩
      · exact h e he
    refine Keeps.bind (spares_operand hev scope k) fun key hkey => ?_
    dsimp only
    split
    · exact spares_fail_bind _ _
    · exact hrest key hkey

/-- The value of a sequence of statements is free once its mark is taken off. -/
theorem spares_blockBody : ∀ (ns : List (Node Unit)) {result : Value}, (settle result).Free bad →
    Spares bad (fun v => (settle v).Free bad) (blockBody ev scope result ns)
  | [], _, h => Keeps.pure h
  | n :: ns, _, _ => by
    refine Keeps.bind (hev n scope) fun v hv => ?_
    split
    · exact Keeps.pure hv
    · exact spares_blockBody ns hv

theorem spares_catchReturn (n : Node Unit) :
    Spares bad (fun v => (settle v).Free bad) (catchReturn (ev n scope)) := by
  refine Keeps.tryCatch (hev n scope) fun e he => ?_
  split
  · exact Keeps.pure he
  · exact Keeps.throw he

theorem spares_programBody : ∀ (ns : List (Node Unit)) {result : Value}, result.Free bad →
    Spares bad (Value.Free bad) (programBody ev scope result ns)
  | [], _, h => Keeps.pure h
  | n :: ns, _, _ => by
    refine Keeps.bind (spares_catchReturn hev scope n) fun v hv => ?_
    split
    · exact Keeps.pure hv
    · next h =>
      rw [settle_of_ne h] at hv
      exact spares_programBody ns hv

end Parts

/-! ## Nodes -/

theorem spares_callNative {cfg : Config} {native : Native} {name : String}
    (hn : cfg.natives.Spares bad) (hnative : (name, native) ∈ cfg.natives) (f : Value) {args : List Value}
    (hargs : ∀ v ∈ args, v.Free bad) : Spares bad (Value.Free bad) (callNative cfg f native args) := by
  refine Keeps.bind (spares_note cfg 3 _) fun _ _ => ?_
  refine Keeps.bind (hn _ hnative args hargs) fun v hv => ?_
  split
  · exact spares_fail _
  · next h =>
    refine Keeps.pure (hv.resolve_left fun ht => ?_)
    cases v with
    | error id message => exact h id message rfl
    | _ => cases ht

section Nodes

variable {cfg : Config} (hb : Inner bad) {ev : Evaluator} (hev : ev.Spares bad)
include hb hev

omit hb in
theorem spares_applyFunction (hn : cfg.natives.Spares bad) (f : Value) {args : List Value}
    (hargs : ∀ v ∈ args, v.Free bad) : Spares bad (Value.Free bad) (applyFunction cfg ev f args) := by
  unfold applyFunction
  split
  · next params body scope =>
    dsimp only
    split
    · exact spares_fail_bind _ _
    · refine Keeps.bind (spares_newScope _) fun inner _ => ?_
      refine Keeps.bind (spares_bindParams inner params args hargs) fun _ _ => ?_
      refine Keeps.bind (spares_note cfg 3 _) fun _ _ => ?_
      exact Keeps.bind (spares_catchReturn hev inner body) fun v hv => Keeps.pure hv
  · next name =>
    split
    · next native hnative =>
      have hcall := spares_callNative hn (Assoc.mem_of_lookup hnative) (.native name) hargs
      dsimp only
      split
      · split
        · exact spares_fail_bind _ _
        · exact hcall
      · exact hcall
    · exact spares_fail _
  · exact spares_fail _

theorem spares_binary (scope : Nat) (text : String) (l r : Node Unit) :
    Spares bad (Value.Free bad) (binary cfg ev scope text l r) := by
  refine Keeps.bind (spares_operand hev scope r) fun _ _ => ?_
  refine Keeps.bind (spares_operand hev scope l) fun _ _ => ?_
  refine Keeps.bind (spares_applyBinary hb text _ _) fun v hv => ?_
  dsimp only
  split
  · split
    · exact Keeps.bind (spares_assign cfg scope _ hv) fun _ _ => Keeps.pure hv
    · exact Keeps.bind (spares_textOrStop _) fun _ _ => spares_fail_bind _ _
  · exact Keeps.pure hv

theorem spares_conditional (scope : Nat) (c t e : Node Unit) :
    Spares bad (fun v => (settle v).Free bad) (conditional cfg ev scope c t e) := by
  refine Keeps.bind (spares_operand hev scope c) fun v _ => ?_
  refine Keeps.bind (spares_note cfg 3 _) fun _ _ => ?_
  split
  · exact hev t scope
  · split
    · exact Keeps.pure (hb.free_of_atomic rfl)
    · exact hev e scope

/-- **A node spares the store if its parts do.** -/
theorem layer_spares (hn : cfg.natives.Spares bad) : Evaluator.Spares bad (layer cfg ev) := by
  have plain {m : Run Value} (h : Spares bad (Value.Free bad) m) :
      Spares bad (fun v => (settle v).Free bad) m := Keeps.mono h fun _ => hb.settle
  have null : (settle .null).Free bad := hb.free_of_atomic rfl
  intro n scope
  cases n with
  | absent => exact spares_fail _
  | program body => exact plain (spares_programBody hev scope body null)
  | block _ body => exact spares_blockBody hev scope body null
  | expressionStmt _ e => exact hev e scope
  | valueStmt _ name e =>
    refine Keeps.bind (spares_operand hev scope e) fun v hv => ?_
    refine Keeps.bind (spares_bindName scope name.text hv) fun _ _ => ?_
    exact Keeps.bind (spares_note cfg 2 _) fun _ _ => Keeps.pure null
  | updateStmt _ name e =>
    refine Keeps.bind (spares_operand hev scope e) fun v hv => ?_
    exact Keeps.bind (spares_assign cfg scope name.text hv) fun _ _ => Keeps.pure null
  | returnStmt _ e => exact Keeps.bind (spares_operand hev scope e) fun v hv => Keeps.pure hv
  | integer _ n => exact Keeps.pure (hb.free_of_atomic rfl)
  | boolean _ b => exact Keeps.pure (hb.free_of_atomic rfl)
  | string _ text => exact plain (spares_newString hb text)
  | identifier _ name => exact plain (spares_lookUp hb cfg scope name)
  | unary _ text e =>
    exact Keeps.bind (spares_operand hev scope e) fun v _ =>
      plain (spares_applyUnary hb cfg scope text e v)
  | binary _ text l r => exact plain (spares_binary hb hev scope text l r)
  | conditional _ c t e => exact spares_conditional hb hev scope c t e
  | function _ params body =>
    exact Keeps.bind spares_freshId fun _ _ => Keeps.pure (hb.free_of_atomic rfl)
  | call _ f args =>
    refine Keeps.bind (spares_operand hev scope f) fun callee _ => ?_
    exact Keeps.bind (spares_operands hev scope args) fun values hvalues =>
      plain (spares_applyFunction hev hn callee hvalues)
  | array _ es =>
    exact Keeps.bind (spares_operands hev scope es) fun values hvalues =>
      plain (spares_newArray hb hvalues)
  | index _ l i =>
    refine Keeps.bind (spares_operand hev scope l) fun left hl => ?_
    exact Keeps.bind (spares_operand hev scope i) fun _ _ => plain (spares_subscript hb hl)
  | map _ ps =>
    exact Keeps.bind (spares_mapEntries hev scope ps [] nofun) fun entries he =>
      plain (spares_newMap hb he)

end Nodes

/-- **Every evaluation spares the store**, however deeply evaluations may be nested. -/
theorem eval_spares {cfg : Config} (hb : Inner bad) (hn : cfg.natives.Spares bad) :
    ∀ depth, Evaluator.Spares bad (eval cfg depth)
  | 0 => fun _ _ => Keeps.throw trivial
  | depth + 1 => layer_spares hb (eval_spares hb hn depth) hn

/-- The value of a program is never marked. -/
theorem eval_program_spares {cfg : Config} (hb : Inner bad) (hn : cfg.natives.Spares bad)
    (limit : Nat) (body : List (Node Unit)) (scope : Nat) :
    Spares bad (Value.Free bad) (eval cfg limit (.program body) scope) := by
  cases limit with
  | zero => exact Keeps.throw trivial
  | succ depth =>
    exact spares_programBody (eval_spares hb hn depth) scope body (hb.free_of_atomic rfl)

/-! ## Programs -/

theorem spares_newError (message : String) : Spares bad (fun _ => True) (newError message) :=
  Keeps.bind spares_freshId fun _ _ => Keeps.pure trivial

/-- **A run spares the store**, whatever becomes of it. -/
theorem runWithin_spares {cfg : Config} (hb : Inner bad) (hn : cfg.natives.Spares bad)
    (limit : Nat) (body : List (Node Unit)) (scope : Nat) :
    Spares bad (fun _ => True) (runWithin cfg limit (.program body) scope) := by
  refine Keeps.bind (spares_note cfg 1 _) fun _ _ => ?_
  refine Keeps.bind (V := fun _ => True) (Keeps.tryCatch
    (Keeps.mono (eval_program_spares hb hn limit body scope) fun _ _ => trivial) fun e he => ?_)
    fun v _ => Keeps.bind (spares_note cfg 1 _) fun _ _ => Keeps.pure trivial
  split
  · exact spares_newError _
  · exact spares_newError _
  · exact Keeps.throw he

end SepiaLang
