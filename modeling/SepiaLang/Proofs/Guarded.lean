import SepiaLang.Proofs.Entries
import SepiaLang.Proofs.Moments
import SepiaLang.Syntax.Depth

/-!
# Guarded evaluation

Some operations have no meaning for some values: a quotient by zero, the key of an array, an element
past the end, an argument that was not given. Evaluation asks before it uses any of them, so that it
never stops with a fault. By the same pass it is seen how a missing node or the error of a native
function is kept out, if the trees and the values at hand are in order.

* `Guard`: which stores, values and trees are in order, with a law for each way to come by them.
* `Guard.Safe`: a computation keeps these in order and stops with no fault.
* `Registry.Safe`: native functions that do so, given the arguments that they ask for.
  `standard_safe`: those of the language.
* `layer_safe`: a node is evaluated safely if its parts are.
* **`eval_safe`**: every evaluation is safe.
* `openGuard`: the guard that keeps nothing out, `eval_ne_fault`: so that no evaluation is at fault.
-/

namespace SepiaLang

open SepiaLang.Computation

variable {α β : Type}

/-- Which stores, values and trees are in order, and that each step of evaluation keeps them so. Of a
store only the scopes matter, and entries that have keys, all different, make a map. Where the guard
is `Lax`, nodes may be missing and native functions may answer with errors. -/
structure Guard where
  Ok : Store → Prop
  Has : Value → Prop
  Tree : Node Unit → Prop
  Lax : Prop
  of_scopes {s s' : Store} (hs : Ok s) (h : s'.scopes = s.scopes) : Ok s'
  get? {s : Store} {i : Nat} {x : String} {v : Value} (hs : Ok s) (h : s.scopes.get? i x = some v) : Has v
  set {s : Store} {v : Value} (hs : Ok s) (hv : Has v) (i : Nat) (x : String) :
    Ok { s with scopes := s.scopes.set i x v }
  addScope {s : Store} (hs : Ok s) (parent : Option Nat) : Ok (s.addScope parent).2
  atom {v : Value} (h : v.atomic = true) (hf : v.type ≠ .function) : Has v
  function {id : Nat} {params : List String} {body : Node Unit} {scope : Nat} :
    Has (.function id params body scope) ↔ Tree body
  array {id : Nat} {elements : List Value} : Has (.array id elements) ↔ ∀ v ∈ elements, Has v
  map {id : Nat} {entries : List (Entry Value)} (hkeyed : Keyed entries)
    (h : ∀ e ∈ entries, Has e.key ∧ Has e.value) : Has (.map id entries)
  entry {id : Nat} {entries : List (Entry Value)} (h : Has (.map id entries)) {e : Entry Value}
    (he : e ∈ entries) : Has e.key ∧ Has e.value
  returned {v : Value} (h : Has (.returned v)) : Has v
  error {id : Nat} {message : String} (h : Has (.error id message)) : Lax
  part {n m : Node Unit} (h : Tree n) (hm : m ∈ n.needed) : Tree m
  alternative {c t e : Node Unit} (h : Tree (.conditional () c t e)) (he : e ≠ .absent) : Tree e
  absent (h : Tree .absent) : Lax

namespace Guard

variable (G : Guard)

/-- An evaluation may stop in this way: never with a fault. -/
def Stops : Stop → Prop
  | .returning v => G.Has v
  | .failed (.unknownNode _) | .failed (.reported _) => G.Lax
  | .failed _ | .tooDeep => True
  | .fault _ => False

/-- The computation keeps a store in order and stops with no fault, and its result satisfies `V`. -/
abbrev Safe (V : α → Prop) (m : Run α) : Prop := Keeps G.Ok G.Stops V m

end Guard

/-- The evaluator is safe on trees that are in order. -/
def Evaluator.Safe (G : Guard) (ev : Evaluator) : Prop :=
  ∀ n scope, G.Tree n → G.Safe (fun v => G.Has (settle v)) (ev n scope)

/-- The native functions are safe when they are given as many arguments as they ask for. -/
def Registry.Safe (G : Guard) (natives : Registry) : Prop :=
  ∀ entry ∈ natives, ∀ args : List Value, (∀ v ∈ args, G.Has v) →
    (∀ k, entry.2.arity = some k → args.length = k) → G.Safe G.Has (entry.2.call args)

variable {G : Guard}

/-! ## Steps on the store -/

theorem safe_fail {V : α → Prop} {e : EvalError} (h : G.Stops (.failed e)) : G.Safe V (fail e) :=
  Keeps.throw h

theorem safe_fail_bind {V : β → Prop} {e : EvalError} {f : α → Run β} (h : G.Stops (.failed e)) :
    G.Safe V (fail e >>= f) :=
  Keeps.bind (V := fun _ => False) (safe_fail h) nofun

theorem safe_textOrStop (text? : Option String) : G.Safe (fun _ => True) (textOrStop text?) := by
  cases text? with
  | none => exact Keeps.throw trivial
  | some text => exact Keeps.pure trivial

theorem safe_note (cfg : Config) (level : Nat) (entry : LogEntry) :
    G.Safe (fun _ => True) (note cfg level entry) := by
  unfold note
  split
  · split
    · exact Keeps.modify fun s hs => G.of_scopes hs (s.write_scopes entry)
    · exact Keeps.throw trivial
  · exact Keeps.pure trivial

theorem safe_freshId : G.Safe (fun _ => True) freshId :=
  Keeps.bind Keeps.get fun _ hs => Keeps.bind (Keeps.set (G.of_scopes hs rfl)) fun _ _ =>
    Keeps.pure trivial

theorem safe_newString (text : String) : G.Safe G.Has (newString text) :=
  Keeps.bind safe_freshId fun _ _ => Keeps.pure (G.atom rfl nofun)

theorem safe_newArray {elements : List Value} (h : ∀ v ∈ elements, G.Has v) :
    G.Safe G.Has (newArray elements) :=
  Keeps.bind safe_freshId fun _ _ => Keeps.pure (G.array.2 h)

theorem safe_newMap {entries : List (Entry Value)} (hkeyed : Keyed entries)
    (h : ∀ e ∈ entries, G.Has e.key ∧ G.Has e.value) : G.Safe G.Has (newMap entries) :=
  Keeps.bind safe_freshId fun _ _ => Keeps.pure (G.map hkeyed h)

theorem safe_newScope (parent : Option Nat) : G.Safe (fun _ => True) (newScope parent) :=
  fun _ hs => ⟨G.addScope hs parent, trivial⟩

theorem safe_bindName (scope : Nat) (name : String) {v : Value} (hv : G.Has v) :
    G.Safe (fun _ => True) (bindName scope name v) :=
  Keeps.modify fun _ hs => G.set hs hv scope name

theorem safe_assign (cfg : Config) (scope : Nat) (name : String) {v : Value} (hv : G.Has v) :
    G.Safe (fun _ => True) (assign cfg scope name v) := by
  refine Keeps.bind Keeps.get fun s hs => ?_
  split
  · next scopes hu =>
    obtain ⟨j, -, rfl⟩ := Option.map_eq_some_iff.1 hu
    exact Keeps.bind (Keeps.set (G.set hs hv j name)) fun _ _ => safe_note cfg 2 _
  · exact safe_fail trivial

theorem safe_lookUp (cfg : Config) (scope : Nat) (name : String) :
    G.Safe G.Has (lookUp cfg scope name) := by
  refine Keeps.bind Keeps.get fun s hs => ?_
  split
  · next v hv => exact Keeps.pure (G.get? hs hv)
  · split
    · exact Keeps.pure (G.atom rfl nofun)
    · exact safe_fail trivial

theorem safe_bindParams (scope : Nat) : ∀ (params : List String) (args : List Value),
    (∀ v ∈ args, G.Has v) → G.Safe (fun _ => True) (bindParams scope params args)
  | [], _, _ => Keeps.pure trivial
  | _ :: _, [], _ => Keeps.pure trivial
  | p :: ps, v :: vs, h =>
    Keeps.bind (safe_bindName scope p (h v List.mem_cons_self)) fun _ _ =>
      safe_bindParams scope ps vs fun w hw => h w (List.mem_cons_of_mem _ hw)

/-! ## Operations that have no meaning for some values -/

theorem safe_quotient (a : Int) {b : Int} (hb : b ≠ 0) : G.Safe (fun _ => True) (quotient a b) := by
  have hdivide : Word64.divide? a b = some (Word64.wrap (a.tdiv b)) := if_neg hb
  unfold quotient
  rw [hdivide]
  exact Keeps.pure trivial

theorem safe_keyOf {v : Value} (h : v.hashable = true) :
    G.Safe (fun k => v.key? = some k) (keyOf v) := by
  obtain ⟨k, hk⟩ := Option.isSome_iff_exists.1 h
  unfold keyOf
  rw [hk]
  exact Keeps.pure rfl

theorem safe_elementAt {elements : List Value} (h : ∀ v ∈ elements, G.Has v) {i : Nat}
    (hi : i < elements.length) : G.Safe G.Has (elementAt elements i) := by
  unfold elementAt
  rw [List.getElem?_eq_getElem hi]
  exact Keeps.pure (h _ (List.getElem_mem hi))

theorem safe_arg {args : List Value} (h : ∀ v ∈ args, G.Has v) {i : Nat} (hi : i < args.length) :
    G.Safe G.Has (Native.arg args i) := by
  unfold Native.arg
  rw [List.getElem?_eq_getElem hi]
  exact Keeps.pure (h _ (List.getElem_mem hi))

/-! ## Operators and subscripts -/

theorem safe_applyUnary (cfg : Config) (scope : Nat) (text : String) (target : Node Unit) (v : Value) :
    G.Safe G.Has (applyUnary cfg scope text target v) := by
  unfold applyUnary
  split
  · exact Keeps.pure (G.atom rfl nofun)
  · exact Keeps.pure (G.atom rfl nofun)
  · dsimp only
    split
    · exact Keeps.bind (safe_assign cfg scope _ (G.atom rfl nofun)) fun _ _ =>
        Keeps.pure (G.atom rfl nofun)
    · exact Keeps.pure (G.atom rfl nofun)
  · exact safe_fail trivial

theorem safe_arith (op : Arith) (a b : Int) : G.Safe (fun _ => True) (op.apply a b) := by
  cases op with
  | add | sub | mul => exact Keeps.pure trivial
  | div =>
    change G.Safe _ (if b = 0 then fail .divisionByZero else quotient a b)
    split
    · exact safe_fail trivial
    · next hb => exact safe_quotient a hb

theorem safe_applyBinary (text : String) (l r : Value) : G.Safe G.Has (applyBinary text l r) := by
  unfold applyBinary
  split
  · unfold applyIntegers
    split
    · exact Keeps.bind (safe_arith _ _ _) fun _ _ => Keeps.pure (G.atom rfl nofun)
    · exact Keeps.pure (G.atom rfl nofun)
    · exact safe_fail trivial
  · split
    · exact Keeps.pure (G.atom rfl nofun)
    · exact Keeps.pure (G.atom rfl nofun)
    · unfold applyOthers
      split
      · exact Keeps.pure (G.atom rfl nofun)
      · exact safe_newString _
      · split <;> exact safe_fail trivial

theorem safe_subscript {l i : Value} (hl : G.Has l) : G.Safe G.Has (subscript l i) := by
  unfold subscript
  split
  · next elements n =>
    split
    · exact Keeps.pure (G.atom rfl nofun)
    · next hin => exact safe_elementAt (G.array.1 hl) (by omega)
  · next entries =>
    dsimp only
    split
    · exact safe_fail_bind trivial
    · next hkey =>
      refine Keeps.bind (safe_keyOf (by simpa using hkey)) fun k _ => Keeps.pure ?_
      unfold valueAt?
      cases he : entries.find? (hasKey k) with
      | none => exact G.atom rfl nofun
      | some e => exact (G.entry hl (List.mem_of_find?_eq_some he)).2
  · exact safe_fail trivial

/-! ## Native functions -/

section Natives

variable {args : List Value} (hargs : ∀ v ∈ args, G.Has v)
include hargs

theorem safe_arrayArg (name : String) (h : 0 < args.length) :
    G.Safe (fun elements => ∀ v ∈ elements, G.Has v) (Native.arrayArg name args) := by
  refine Keeps.bind (safe_arg hargs h) fun v hv => ?_
  split
  · exact Keeps.pure (G.array.1 hv)
  · exact safe_fail trivial

theorem safe_len (h : 0 < args.length) : G.Safe G.Has (Native.len args) := by
  refine Keeps.bind (safe_arg hargs h) fun v _ => ?_
  split
  · exact Keeps.pure (G.atom rfl nofun)
  · exact Keeps.pure (G.atom rfl nofun)
  · exact Keeps.pure (G.atom rfl nofun)
  · exact safe_fail trivial

omit hargs in
theorem safe_puts : G.Safe G.Has (Native.puts args) := by
  refine Keeps.bind (Keeps.forM (fun v => ?_) args) fun _ _ => Keeps.pure (G.atom rfl nofun)
  exact Keeps.bind (safe_textOrStop _) fun line _ => Keeps.modify fun _ hs => G.of_scopes hs rfl

theorem safe_first (h : 0 < args.length) : G.Safe G.Has (Native.first args) := by
  refine Keeps.bind (safe_arrayArg hargs _ h) fun elements he => Keeps.pure ?_
  cases hv : elements.head? with
  | none => exact G.atom rfl nofun
  | some v => exact he v (List.mem_of_head? hv)

theorem safe_last (h : 0 < args.length) : G.Safe G.Has (Native.last args) := by
  refine Keeps.bind (safe_arrayArg hargs _ h) fun elements he => Keeps.pure ?_
  cases hv : elements.getLast? with
  | none => exact G.atom rfl nofun
  | some v => exact he v (List.mem_of_getLast? hv)

theorem safe_rest (h : 0 < args.length) : G.Safe G.Has (Native.rest args) := by
  refine Keeps.bind (safe_arrayArg hargs _ h) fun elements he => ?_
  split
  · exact Keeps.pure (G.atom rfl nofun)
  · exact safe_newArray fun v hv => he v (List.mem_cons_of_mem _ hv)

theorem safe_push (h : 1 < args.length) : G.Safe G.Has (Native.push args) := by
  refine Keeps.bind (safe_arrayArg hargs _ (by omega)) fun elements he => ?_
  refine Keeps.bind (safe_arg hargs h) fun v hv => safe_newArray fun w hw => ?_
  rcases List.mem_append.1 hw with hw | hw
  · exact he w hw
  · rw [List.mem_singleton.1 hw]
    exact hv

theorem safe_typeOf (h : 0 < args.length) : G.Safe G.Has (Native.typeOf args) :=
  Keeps.bind (safe_arg hargs h) fun _ _ => safe_newString _

end Natives

/-- **The native functions of the language** use no argument that they do not ask for. -/
theorem standard_safe : standard.Safe G := by
  intro entry hentry args hargs harity
  simp only [standard, List.mem_cons, List.not_mem_nil, or_false] at hentry
  have hlength {k : Nat} (h : entry.2.arity = some (k + 1)) : k < args.length := by
    rw [harity _ h]
    exact Nat.lt_succ_self k
  rcases hentry with rfl | rfl | rfl | rfl | rfl | rfl | rfl
  · exact safe_len hargs (hlength rfl)
  · exact safe_puts
  · exact safe_first hargs (hlength rfl)
  · exact safe_last hargs (hlength rfl)
  · exact safe_rest hargs (hlength rfl)
  · exact safe_push hargs (hlength rfl)
  · exact safe_typeOf hargs (hlength rfl)

/-! ## Parts of a node -/

theorem Guard.settle {v : Value} (h : G.Has v) : G.Has (settle v) := by
  cases v with
  | returned w => exact G.returned h
  | _ => exact h

section Parts

variable {ev : Evaluator} (hev : ev.Safe G) (scope : Nat)
include hev

theorem safe_operand {n : Node Unit} (hn : G.Tree n) : G.Safe G.Has (operand ev n scope) := by
  refine Keeps.bind (hev n scope hn) fun v hv => ?_
  split
  · exact Keeps.throw hv
  · next h =>
    rw [settle_of_ne h] at hv
    exact Keeps.pure hv

theorem safe_operands {ns : List (Node Unit)} (hns : ∀ n ∈ ns, G.Tree n) :
    G.Safe (fun vs => ∀ v ∈ vs, G.Has v) (operands ev scope ns) := by
  induction ns with
  | nil => exact Keeps.pure nofun
  | cons n ns ih =>
    obtain ⟨hn, hns⟩ := List.forall_mem_cons.1 hns
    refine Keeps.bind (safe_operand hev scope hn) fun v hv => ?_
    exact Keeps.bind (ih hns) fun vs hvs => Keeps.pure (List.forall_mem_cons.2 ⟨hv, hvs⟩)

/-- A key is asked for its key only if it has one, and entries stay under different keys. -/
theorem safe_mapEntries : ∀ (pairs : List (Node Unit × Node Unit)) (entries : List (Entry Value)),
    (∀ p ∈ pairs, G.Tree p.1 ∧ G.Tree p.2) → Keyed entries → (∀ e ∈ entries, G.Has e.key ∧ G.Has e.value) →
      G.Safe (fun es => Keyed es ∧ ∀ e ∈ es, G.Has e.key ∧ G.Has e.value) (mapEntries ev scope entries pairs)
  | [], _, _, hkeyed, h => Keeps.pure ⟨hkeyed, h⟩
  | (k, v) :: pairs, entries, hpairs, hkeyed, h => by
    obtain ⟨⟨hk, hv⟩, hpairs⟩ := List.forall_mem_cons.1 hpairs
    have hrest : ∀ key : Value, G.Has key → key.hashable = true →
        G.Safe (fun es => Keyed es ∧ ∀ e ∈ es, G.Has e.key ∧ G.Has e.value) (do
          let value ← operand ev v scope
          mapEntries ev scope (putEntry (← keyOf key) key value entries) pairs) := by
      intro key hkey hhash
      refine Keeps.bind (safe_operand hev scope hv) fun value hvalue => ?_
      refine Keeps.bind (safe_keyOf hhash) fun i hi => ?_
      refine safe_mapEntries pairs _ hpairs (hkeyed.putEntry hi value) fun e he => ?_
      rcases Assoc.eq_or_mem_of_mem_put he with rfl | he
      · exact ⟨hkey, hvalue⟩
      · exact h e he
    refine Keeps.bind (safe_operand hev scope hk) fun key hkey => ?_
    dsimp only
    split
    · exact safe_fail_bind trivial
    · next hhash => exact hrest key hkey (by simpa using hhash)

theorem safe_blockBody : ∀ {ns : List (Node Unit)} {result : Value}, (∀ n ∈ ns, G.Tree n) →
    G.Has (settle result) → G.Safe (fun v => G.Has (settle v)) (blockBody ev scope result ns)
  | [], _, _, h => Keeps.pure h
  | n :: ns, _, hns, _ => by
    obtain ⟨hn, hns⟩ := List.forall_mem_cons.1 hns
    refine Keeps.bind (hev n scope hn) fun v hv => ?_
    split
    · exact Keeps.pure hv
    · exact safe_blockBody hns hv

theorem safe_catchReturn {n : Node Unit} (hn : G.Tree n) :
    G.Safe (fun v => G.Has (settle v)) (catchReturn (ev n scope)) := by
  refine Keeps.tryCatch (hev n scope hn) fun e he => ?_
  split
  · exact Keeps.pure he
  · exact Keeps.throw he

theorem safe_programBody : ∀ {ns : List (Node Unit)} {result : Value}, (∀ n ∈ ns, G.Tree n) →
    G.Has result → G.Safe G.Has (programBody ev scope result ns)
  | [], _, _, h => Keeps.pure h
  | n :: ns, _, hns, _ => by
    obtain ⟨hn, hns⟩ := List.forall_mem_cons.1 hns
    refine Keeps.bind (safe_catchReturn hev scope hn) fun v hv => ?_
    split
    · exact Keeps.pure hv
    · next h =>
      rw [settle_of_ne h] at hv
      exact safe_programBody hns hv

end Parts

/-! ## Nodes -/

theorem safe_callNative {cfg : Config} {native : Native} {name : String} (hn : cfg.natives.Safe G)
    (hnative : (name, native) ∈ cfg.natives) (f : Value) {args : List Value}
    (hargs : ∀ v ∈ args, G.Has v) (harity : ∀ k, native.arity = some k → args.length = k) :
    G.Safe G.Has (callNative cfg f native args) := by
  refine Keeps.bind (safe_note cfg 3 _) fun _ _ => ?_
  refine Keeps.bind (hn _ hnative args hargs harity) fun v hv => ?_
  split
  · exact safe_fail (G.error hv)
  · exact Keeps.pure hv

section Nodes

variable {cfg : Config} {ev : Evaluator} (hev : ev.Safe G)
include hev

/-- The arguments are counted before a function gets them. -/
theorem safe_applyFunction (hn : cfg.natives.Safe G) {f : Value} (hf : G.Has f) {args : List Value}
    (hargs : ∀ v ∈ args, G.Has v) : G.Safe G.Has (applyFunction cfg ev f args) := by
  unfold applyFunction
  split
  · next params body scope =>
    dsimp only
    split
    · exact safe_fail_bind trivial
    · refine Keeps.bind (safe_newScope _) fun inner _ => ?_
      refine Keeps.bind (safe_bindParams inner params args hargs) fun _ _ => ?_
      refine Keeps.bind (safe_note cfg 3 _) fun _ _ => ?_
      exact Keeps.bind (safe_catchReturn hev inner (G.function.1 hf)) fun v hv => Keeps.pure hv
  · next name =>
    split
    · next native hnative =>
      have hcall := safe_callNative hn (Assoc.mem_of_lookup hnative) (.native name) hargs
      dsimp only
      split
      · next arity harity =>
        split
        · exact safe_fail_bind trivial
        · next hcount =>
          refine hcall fun k hk => ?_
          rw [harity] at hk
          cases hk
          exact Decidable.not_not.1 hcount
      · next harity => exact hcall fun k hk => absurd hk (harity k)
    · exact safe_fail trivial
  · exact safe_fail trivial

theorem safe_binary (scope : Nat) (text : String) {l r : Node Unit} (hl : G.Tree l) (hr : G.Tree r) :
    G.Safe G.Has (binary cfg ev scope text l r) := by
  refine Keeps.bind (safe_operand hev scope hr) fun _ _ => ?_
  refine Keeps.bind (safe_operand hev scope hl) fun _ _ => ?_
  refine Keeps.bind (safe_applyBinary text _ _) fun v hv => ?_
  dsimp only
  split
  · split
    · exact Keeps.bind (safe_assign cfg scope _ hv) fun _ _ => Keeps.pure hv
    · exact Keeps.bind (safe_textOrStop _) fun _ _ => safe_fail_bind trivial
  · exact Keeps.pure hv

theorem safe_conditional (scope : Nat) {c t e : Node Unit} (h : G.Tree (.conditional () c t e)) :
    G.Safe (fun v => G.Has (settle v)) (conditional cfg ev scope c t e) := by
  have hc : G.Tree c := G.part h List.mem_cons_self
  have ht : G.Tree t := G.part h (List.mem_cons_of_mem _ List.mem_cons_self)
  refine Keeps.bind (safe_operand hev scope hc) fun v _ => ?_
  refine Keeps.bind (safe_note cfg 3 _) fun _ _ => ?_
  split
  · exact hev t scope ht
  · split
    · exact Keeps.pure (G.atom rfl nofun)
    · next he => exact hev e scope (G.alternative h he)

/-- **A node is evaluated safely if its parts are.** -/
theorem layer_safe (hn : cfg.natives.Safe G) : Evaluator.Safe G (layer cfg ev) := by
  have plain {m : Run Value} (h : G.Safe G.Has m) : G.Safe (fun v => G.Has (settle v)) m :=
    Keeps.mono h fun _ => G.settle
  have null : G.Has (settle .null) := G.atom rfl nofun
  intro n scope h
  have hparts : ∀ m ∈ n.needed, G.Tree m := fun m hm => G.part h hm
  cases n with
  | absent => exact safe_fail (G.absent h)
  | program body => exact plain (safe_programBody hev scope hparts null)
  | block _ body => exact safe_blockBody hev scope hparts null
  | expressionStmt _ e => exact hev e scope (hparts e List.mem_cons_self)
  | valueStmt _ name e =>
    refine Keeps.bind (safe_operand hev scope (hparts e List.mem_cons_self)) fun v hv => ?_
    refine Keeps.bind (safe_bindName scope name.text hv) fun _ _ => ?_
    exact Keeps.bind (safe_note cfg 2 _) fun _ _ => Keeps.pure null
  | updateStmt _ name e =>
    refine Keeps.bind (safe_operand hev scope (hparts e List.mem_cons_self)) fun v hv => ?_
    exact Keeps.bind (safe_assign cfg scope name.text hv) fun _ _ => Keeps.pure null
  | returnStmt _ e =>
    exact Keeps.bind (safe_operand hev scope (hparts e List.mem_cons_self)) fun v hv => Keeps.pure hv
  | integer _ n => exact Keeps.pure (G.atom rfl nofun)
  | boolean _ b => exact Keeps.pure (G.atom rfl nofun)
  | string _ text => exact plain (safe_newString text)
  | identifier _ name => exact plain (safe_lookUp cfg scope name)
  | unary _ text e =>
    exact Keeps.bind (safe_operand hev scope (hparts e List.mem_cons_self)) fun v _ =>
      plain (safe_applyUnary cfg scope text e v)
  | binary _ text l r =>
    exact plain (safe_binary hev scope text (hparts l List.mem_cons_self)
      (hparts r (List.mem_cons_of_mem _ List.mem_cons_self)))
  | conditional _ c t e => exact safe_conditional hev scope h
  | function _ params body =>
    exact Keeps.bind safe_freshId fun _ _ => Keeps.pure (G.function.2 (hparts body List.mem_cons_self))
  | call _ f args =>
    obtain ⟨hf, hargs⟩ := List.forall_mem_cons.1 hparts
    refine Keeps.bind (safe_operand hev scope hf) fun callee hcallee => ?_
    exact Keeps.bind (safe_operands hev scope hargs) fun values hvalues =>
      plain (safe_applyFunction hev hn hcallee hvalues)
  | array _ es =>
    exact Keeps.bind (safe_operands hev scope hparts) fun values hvalues =>
      plain (safe_newArray hvalues)
  | index _ l i =>
    refine Keeps.bind (safe_operand hev scope (hparts l List.mem_cons_self)) fun left hl => ?_
    exact Keeps.bind (safe_operand hev scope (hparts i (List.mem_cons_of_mem _ List.mem_cons_self)))
      fun _ _ => plain (safe_subscript hl)
  | map _ ps =>
    have hpairs : ∀ p ∈ ps, G.Tree p.1 ∧ G.Tree p.2 := fun p hp =>
      ⟨hparts _ (List.mem_flatMap.2 ⟨p, hp, List.mem_cons_self⟩),
        hparts _ (List.mem_flatMap.2 ⟨p, hp, List.mem_cons_of_mem _ List.mem_cons_self⟩)⟩
    exact Keeps.bind (safe_mapEntries hev scope ps [] hpairs .nil nofun) fun entries he =>
      plain (safe_newMap he.1 he.2)

end Nodes

/-- **Every evaluation is safe**, however deeply evaluations may be nested. -/
theorem eval_safe {cfg : Config} (hn : cfg.natives.Safe G) : ∀ depth, Evaluator.Safe G (eval cfg depth)
  | 0 => fun _ _ _ => Keeps.throw trivial
  | depth + 1 => layer_safe (eval_safe hn depth) hn

/-! ## No faults -/

/-- Everything is in order. -/
def openGuard : Guard where
  Ok _ := True
  Has _ := True
  Tree _ := True
  Lax := True
  of_scopes _ _ := trivial
  get? _ _ := trivial
  set _ _ _ _ := trivial
  addScope _ _ := trivial
  atom _ _ := trivial
  function := .rfl
  array := ⟨fun _ _ _ => trivial, fun _ => trivial⟩
  map _ _ := trivial
  entry _ _ _ := ⟨trivial, trivial⟩
  returned _ := trivial
  error _ := trivial
  part _ _ := trivial
  alternative _ _ := trivial
  absent _ := trivial

/-- **No evaluation is at fault**, whatever the tree and the store. -/
theorem eval_ne_fault {cfg : Config} (hn : cfg.natives.Safe openGuard) (depth : Nat) (n : Node Unit)
    (scope : Nat) (s : Store) (f : Fault) : (eval cfg depth n scope s).1 ≠ .error (.fault f) :=
  fun h => ((eval_safe hn depth n scope trivial).of_error trivial (Prod.ext h rfl)).2

end SepiaLang
