import SepiaLang.Eval.Basic
import SepiaLang.Proofs.Computation

/-!
# Two runs side by side

The same tree is evaluated twice: from stores that differ in what evaluation never looks at, by
interpreters that write down more or less, or with different bounds on nesting. The two runs stay
level, except that the first one may be cut off because something is nested too deeply, and the
second one goes on alone.

* `Pairing`: which stores of the two runs are level, and which may be those of a run that was cut
  off and of one that went on, with a law for each thing that evaluation does to a store.
* `Pairing.Follows`: the second computation does what the first one does (`Follows.bind`).
* **`layer_follows`**: so do nodes whose parts do.
* **`eval_follows`**: so does evaluation within one bound.
* `near_catchError`: an error is the result of both runs.
-/

namespace SepiaLang

open SepiaLang.Computation

/-- The second store comes of the first one: what was printed stays, and the log is closed or open
as before. -/
def Store.Prints (s s' : Store) : Prop :=
  s.output.toList <+: s'.output.toList ∧ s'.log.isOpen = s.log.isOpen

namespace Store.Prints

theorem refl (s : Store) : s.Prints s := ⟨List.prefix_rfl, rfl⟩

theorem trans {s s₁ s₂ : Store} (h : s.Prints s₁) (h' : s₁.Prints s₂) : s.Prints s₂ :=
  ⟨h.1.trans h'.1, h'.2.trans h.2⟩

theorem print (s : Store) (line : String) : s.Prints (s.print line) := by
  refine ⟨?_, rfl⟩
  show s.output.toList <+: (s.output.push line).toList
  simp

theorem write (s : Store) (entry : LogEntry) : s.Prints (s.write entry) := by
  unfold Store.write
  split
  · exact ⟨List.prefix_rfl, rfl⟩
  · exact print s entry.render

end Store.Prints

/-- The two interpreters have the same native functions. -/
def Config.SameNatives (cfg cfg' : Config) : Prop := cfg'.natives = cfg.natives

theorem Config.SameNatives.refl (cfg : Config) : cfg.SameNatives cfg := rfl

/-- Which stores go together when one tree is evaluated by two interpreters. Runs that are `Near` are
level, with these stores; at a `Cut` the first run was cut off with the first store, and the second
one has come to the second. An entry of the log is written by both, or is too deep for one of the two
to be written. -/
structure Pairing (cfg cfg' : Config) where
  Near : Store → Store → Prop
  Cut : Store → Store → Prop
  natives : cfg.SameNatives cfg'
  scopes_eq {s s' : Store} (h : Near s s') : s'.scopes = s.scopes
  nextId_eq {s s' : Store} (h : Near s s') : s'.nextId = s.nextId
  scopes {s s' : Store} (h : Near s s') (scopes : Scopes) : Near { s with scopes } { s' with scopes }
  nextId {s s' : Store} (h : Near s s') (nextId : Nat) : Near { s with nextId } { s' with nextId }
  print {s s' : Store} (h : Near s s') (line : String) : Near (s.print line) (s'.print line)
  note {s s' : Store} (h : Near s s') {level : Nat} (hlevel : 0 < level) (entry : LogEntry) :
    (note cfg level entry s).1 = (note cfg' level entry s').1 ∧
        Near (note cfg level entry s).2 (note cfg' level entry s').2 ∨
      (note cfg level entry s).1 = .error .tooDeep ∧
        Cut (note cfg level entry s).2 (note cfg' level entry s').2
  cut {g s s' : Store} (h : Cut g s) (hs : s.Prints s') : Cut g s'

variable {cfg cfg' : Config} {α β : Type}

theorem Pairing.natives_eq (P : Pairing cfg cfg') : cfg'.natives = cfg.natives := P.natives

/-- The two runs have come to the same and are still level, or the first one was cut off. -/
def Pairing.Agree (P : Pairing cfg cfg') (x y : Except Stop α × Store) : Prop :=
  x.1 = y.1 ∧ P.Near x.2 y.2 ∨ x.1 = .error .tooDeep ∧ P.Cut x.2 y.2

/-- From stores that are level the two computations agree. Once the first run is cut off, the second
one may go on. -/
structure Pairing.Follows (P : Pairing cfg cfg') (m m' : Run α) : Prop where
  near : ∀ s s', P.Near s s' → P.Agree (m s) (m' s')
  cut : ∀ g s', P.Cut g s' → P.Cut g (m' s').2

/-- Taking a value on its way out does not touch the store. -/
theorem catchReturn_apply (m : Run Value) (s : Store) :
    catchReturn m s = (match (m s).1 with
      | .error (.returning v) => .ok (.returned v)
      | x => x, (m s).2) := by
  rw [catchReturn, tryCatch_apply]
  rcases m s with ⟨(_ | _ | _ | _) | _, _⟩ <;> rfl

variable {P : Pairing cfg cfg'}

namespace Pairing.Follows

theorem pure (a : α) : P.Follows (Pure.pure a) (Pure.pure a) :=
  ⟨fun _ _ h => .inl ⟨rfl, h⟩, fun _ _ h => h⟩

theorem throw (e : Stop) : P.Follows (throw e : Run α) (throw e) :=
  ⟨fun _ _ h => .inl ⟨rfl, h⟩, fun _ _ h => h⟩

theorem fail (e : EvalError) : P.Follows (fail e : Run α) (fail e) := throw _

/-- **One computation after the other.** -/
theorem bind {m m' : Run α} {f f' : α → Run β} (hm : P.Follows m m')
    (hf : ∀ a, P.Follows (f a) (f' a)) : P.Follows (m >>= f) (m' >>= f') := by
  have hcut : ∀ g s', P.Cut g (m' s').2 → P.Cut g ((m' >>= f') s').2 := by
    intro g s' h
    rw [bind_apply]
    rcases hx : m' s' with ⟨e | a, s₁⟩ <;> rw [hx] at h
    · exact h
    · exact (hf a).cut g s₁ h
  refine ⟨fun s s' h => ?_, fun g s' h => hcut g s' (hm.cut g s' h)⟩
  rcases hm.near s s' h with ⟨heq, hnear⟩ | ⟨hdeep, hc⟩
  · rw [bind_apply, bind_apply]
    rcases hx : m s with ⟨e | a, s₁⟩ <;> rcases hx' : m' s' with ⟨e' | a', s₁'⟩ <;>
      rw [hx, hx'] at heq hnear <;> cases heq
    · exact .inl ⟨rfl, hnear⟩
    · exact (hf a).near s₁ s₁' hnear
  · refine .inr ?_
    rw [bind_of_error (Prod.ext hdeep rfl)]
    exact ⟨rfl, hcut _ s' hc⟩

theorem modify {f f' : Store → Store} (h : ∀ s s', P.Near s s' → P.Near (f s) (f' s'))
    (hf : ∀ s : Store, s.Prints (f' s)) : P.Follows (modify f : Run PUnit) (modify f') :=
  ⟨fun s s' hs => .inl ⟨rfl, h s s' hs⟩, fun _ s' hc => P.cut hc (hf s')⟩

theorem forM {f : α → Run PUnit} (hf : ∀ a, P.Follows (f a) (f a)) :
    ∀ l : List α, P.Follows (l.forM f) (l.forM f)
  | [] => pure _
  | a :: l => bind (hf a) fun _ => forM hf l

/-- A value on its way out is taken. Being cut off is not. -/
theorem catchReturn {m m' : Run Value} (hm : P.Follows m m') :
    P.Follows (catchReturn m) (catchReturn m') := by
  constructor
  · intro s s' h
    rw [catchReturn_apply, catchReturn_apply]
    rcases hm.near s s' h with ⟨heq, hnear⟩ | ⟨hdeep, hc⟩
    · rw [heq]
      exact .inl ⟨rfl, hnear⟩
    · rw [hdeep]
      exact .inr ⟨rfl, hc⟩
  · intro g s' hc
    rw [catchReturn_apply]
    exact hm.cut g s' hc

end Pairing.Follows

open Pairing

/-! ## Steps on the store -/

theorem prints_note (cfg : Config) (level : Nat) (entry : LogEntry) (s : Store) :
    s.Prints (note cfg level entry s).2 := by
  unfold note
  split
  · split
    · exact .write s entry
    · exact .refl s
  · exact .refl s

theorem follows_note {level : Nat} (hlevel : 0 < level) (entry : LogEntry) :
    P.Follows (note cfg level entry) (note cfg' level entry) :=
  ⟨fun _ _ h => P.note h hlevel entry, fun _ s' hc => P.cut hc (prints_note cfg' level entry s')⟩

theorem follows_textOrStop (text? : Option String) : P.Follows (textOrStop text?) (textOrStop text?) := by
  cases text? with
  | none => exact .throw _
  | some text => exact .pure text

theorem follows_freshId : P.Follows freshId freshId := by
  refine ⟨fun s s' h => ?_, fun g s' hc => P.cut hc ⟨List.prefix_rfl, rfl⟩⟩
  have hid := P.nextId_eq h
  show P.Agree (.ok s.nextId, { s with nextId := s.nextId + 1 })
    (.ok s'.nextId, { s' with nextId := s'.nextId + 1 })
  rw [hid]
  exact .inl ⟨rfl, P.nextId h _⟩

theorem follows_newString (text : String) : P.Follows (newString text) (newString text) :=
  .bind follows_freshId fun _ => .pure _

theorem follows_newArray (elements : List Value) : P.Follows (newArray elements) (newArray elements) :=
  .bind follows_freshId fun _ => .pure _

theorem follows_newMap (entries : List (Entry Value)) : P.Follows (newMap entries) (newMap entries) :=
  .bind follows_freshId fun _ => .pure _

theorem follows_newScope (parent : Option Nat) : P.Follows (newScope parent) (newScope parent) := by
  refine ⟨fun s s' h => ?_, fun g s' hc => P.cut hc ⟨List.prefix_rfl, rfl⟩⟩
  have hscopes := P.scopes_eq h
  show P.Agree (.ok s.scopes.size, { s with scopes := s.scopes.add parent })
    (.ok s'.scopes.size, { s' with scopes := s'.scopes.add parent })
  rw [hscopes]
  exact .inl ⟨rfl, P.scopes h _⟩

theorem follows_bindName (i : Nat) (x : String) (v : Value) :
    P.Follows (bindName i x v) (bindName i x v) := by
  refine .modify (fun s s' h => ?_) fun s => ⟨List.prefix_rfl, rfl⟩
  rw [P.scopes_eq h]
  exact P.scopes h _

theorem assign_apply (cfg : Config) (i : Nat) (x : String) (v : Value) (s : Store) :
    assign cfg i x v s = match s.scopes.update? i x v with
      | some scopes => note cfg 2 (.updated x v) { s with scopes }
      | none => (.error (.failed (.unbound x)), s) := by
  show (match s.scopes.update? i x v with
    | some scopes => (do set { s with scopes }; note cfg 2 (.updated x v) : Run Unit)
    | none => fail (.unbound x)) s = _
  cases s.scopes.update? i x v <;> rfl

theorem follows_assign (i : Nat) (x : String) (v : Value) :
    P.Follows (assign cfg i x v) (assign cfg' i x v) := by
  constructor
  · intro s s' h
    rw [assign_apply, assign_apply, P.scopes_eq h]
    cases s.scopes.update? i x v with
    | some scopes => exact P.note (P.scopes h scopes) (by decide) (.updated x v)
    | none => exact .inl ⟨rfl, h⟩
  · intro g s' hc
    rw [assign_apply]
    cases s'.scopes.update? i x v with
    | some scopes =>
      have hset : s'.Prints { s' with scopes } := ⟨List.prefix_rfl, rfl⟩
      exact P.cut hc (hset.trans (prints_note cfg' 2 _ _))
    | none => exact hc

theorem lookUp_apply (cfg : Config) (i : Nat) (x : String) (s : Store) :
    lookUp cfg i x s = (match s.scopes.get? i x, cfg.natives.lookup x with
      | some v, _ => .ok v
      | none, some _ => .ok (.native x)
      | none, none => .error (.failed (.unbound x)), s) := by
  have hget : (get : Run Store) s = (.ok s, s) := rfl
  rw [lookUp, bind_of_ok hget]
  cases s.scopes.get? i x <;> cases cfg.natives.lookup x <;> rfl

theorem follows_lookUp (i : Nat) (x : String) : P.Follows (lookUp cfg i x) (lookUp cfg' i x) := by
  constructor
  · intro s s' h
    rw [lookUp_apply, lookUp_apply, P.scopes_eq h, P.natives_eq]
    exact .inl ⟨rfl, h⟩
  · intro g s' hc
    rwa [lookUp_apply]

theorem follows_bindParams (i : Nat) : ∀ (params : List String) (args : List Value),
    P.Follows (bindParams i params args) (bindParams i params args)
  | [], _ => .pure _
  | _ :: _, [] => .pure _
  | p :: ps, v :: vs => .bind (follows_bindName i p v) fun _ => follows_bindParams i ps vs

/-! ## Operators and subscripts -/

theorem follows_applyUnary (i : Nat) (text : String) (target : Node Unit) (v : Value) :
    P.Follows (applyUnary cfg i text target v) (applyUnary cfg' i text target v) := by
  unfold applyUnary
  split
  · exact .pure _
  · exact .pure _
  · dsimp only
    split
    · exact .bind (follows_assign i _ _) fun _ => .pure _
    · exact .pure _
  · exact .fail _

theorem follows_arith (op : Arith) (a b : Int) : P.Follows (op.apply a b) (op.apply a b) := by
  cases op with
  | add | sub | mul => exact .pure _
  | div =>
    unfold Arith.apply quotient
    dsimp only
    split
    · exact .fail _
    · split
      · exact .pure _
      · exact .throw _

theorem follows_applyBinary (text : String) (l r : Value) :
    P.Follows (applyBinary text l r) (applyBinary text l r) := by
  unfold applyBinary
  split
  · unfold applyIntegers
    split
    · exact .bind (follows_arith _ _ _) fun _ => .pure _
    · exact .pure _
    · exact .fail _
  · split
    · exact .pure _
    · exact .pure _
    · unfold applyOthers
      split
      · exact .pure _
      · exact follows_newString _
      · split <;> exact .fail _

theorem follows_keyOf (v : Value) : P.Follows (keyOf v) (keyOf v) := by
  unfold keyOf
  split
  · exact .pure _
  · exact .throw _

theorem follows_subscript (l i : Value) : P.Follows (subscript l i) (subscript l i) := by
  unfold subscript
  split
  · split
    · exact .pure _
    · unfold elementAt
      split
      · exact .pure _
      · exact .throw _
  · dsimp only
    split
    · exact .bind (.fail _) fun _ => .bind (follows_keyOf i) fun _ => .pure _
    · exact .bind (follows_keyOf i) fun _ => .pure _
  · exact .fail _

/-! ## Native functions -/

/-- The native functions do the same in both runs. -/
def Registry.Follows (P : Pairing cfg cfg') (natives : Registry) : Prop :=
  ∀ entry ∈ natives, ∀ args, P.Follows (entry.2.call args) (entry.2.call args)

theorem follows_arg (args : List Value) (i : Nat) : P.Follows (Native.arg args i) (Native.arg args i) := by
  unfold Native.arg
  split
  · exact .pure _
  · exact .throw _

theorem follows_arrayArg (name : String) (args : List Value) :
    P.Follows (Native.arrayArg name args) (Native.arrayArg name args) := by
  refine .bind (follows_arg args 0) fun v => ?_
  split
  · exact .pure _
  · exact .fail _

theorem follows_puts (args : List Value) : P.Follows (Native.puts args) (Native.puts args) := by
  refine .bind (.forM (fun v => ?_) args) fun _ => .pure _
  refine .bind (follows_textOrStop _) fun line => ?_
  exact .modify (fun _ _ h => P.print h line) fun s => .print s line

/-- **The native functions of the language** do the same in any two runs. -/
theorem standard_follows : standard.Follows P := by
  intro entry hentry args
  simp only [standard, List.mem_cons, List.not_mem_nil, or_false] at hentry
  rcases hentry with rfl | rfl | rfl | rfl | rfl | rfl | rfl
  · refine .bind (follows_arg args 0) fun v => ?_
    split
    · exact .pure _
    · exact .pure _
    · exact .pure _
    · exact .fail _
  · exact follows_puts args
  · exact .bind (follows_arrayArg _ args) fun _ => .pure _
  · exact .bind (follows_arrayArg _ args) fun _ => .pure _
  · refine .bind (follows_arrayArg _ args) fun elements => ?_
    split
    · exact .pure _
    · exact follows_newArray _
  · exact .bind (follows_arrayArg _ args) fun _ => .bind (follows_arg args 1) fun _ => follows_newArray _
  · exact .bind (follows_arg args 0) fun _ => follows_newString _

theorem follows_callNative {native : Native} {name : String} (hn : cfg.natives.Follows P)
    (hnative : (name, native) ∈ cfg.natives) (f : Value) (args : List Value) :
    P.Follows (callNative cfg f native args) (callNative cfg' f native args) := by
  refine .bind (follows_note (by decide) _) fun _ => .bind (hn _ hnative args) fun v => ?_
  split
  · exact .fail _
  · exact .pure _

/-! ## Parts of a node -/

/-- The second evaluator does what the first one does. -/
def Evaluator.Follows (P : Pairing cfg cfg') (ev ev' : Evaluator) : Prop :=
  ∀ n i, P.Follows (ev n i) (ev' n i)

section Parts

variable {ev ev' : Evaluator} (hev : ev.Follows P ev') (i : Nat)
include hev

theorem follows_operand (n : Node Unit) : P.Follows (operand ev n i) (operand ev' n i) := by
  refine .bind (hev n i) fun v => ?_
  split
  · exact .throw _
  · exact .pure _

theorem follows_operands (ns : List (Node Unit)) : P.Follows (operands ev i ns) (operands ev' i ns) := by
  induction ns with
  | nil => exact .pure _
  | cons n ns ih => exact .bind (follows_operand hev i n) fun _ => .bind ih fun _ => .pure _

theorem follows_mapEntries : ∀ (pairs : List (Node Unit × Node Unit)) (entries : List (Entry Value)),
    P.Follows (mapEntries ev i entries pairs) (mapEntries ev' i entries pairs)
  | [], _ => .pure _
  | (k, v) :: pairs, entries => by
    have hrest (key : Value) := Follows.bind (follows_operand hev i v) fun value =>
      Follows.bind (follows_keyOf key) fun c => follows_mapEntries pairs (putEntry c key value entries)
    refine .bind (follows_operand hev i k) fun key => ?_
    dsimp only
    split
    · exact .bind (.fail _) fun _ => hrest key
    · exact hrest key

theorem follows_blockBody : ∀ (ns : List (Node Unit)) (result : Value),
    P.Follows (blockBody ev i result ns) (blockBody ev' i result ns)
  | [], _ => .pure _
  | n :: ns, _ => by
    refine .bind (hev n i) fun v => ?_
    split
    · exact .pure _
    · exact follows_blockBody ns _

theorem follows_programBody : ∀ (ns : List (Node Unit)) (result : Value),
    P.Follows (programBody ev i result ns) (programBody ev' i result ns)
  | [], _ => .pure _
  | n :: ns, _ => by
    refine .bind (.catchReturn (hev n i)) fun v => ?_
    split
    · exact .pure _
    · exact follows_programBody ns _

omit i in
theorem follows_applyFunction (hn : cfg.natives.Follows P) (f : Value) (args : List Value) :
    P.Follows (applyFunction cfg ev f args) (applyFunction cfg' ev' f args) := by
  cases f with
  | function id params body scope =>
    have hcall : P.Follows
        (do let inner ← newScope (some scope)
            bindParams inner params args
            note cfg 3 (.called (.function id params body scope) args)
            return settle (← catchReturn (ev body inner)))
        (do let inner ← newScope (some scope)
            bindParams inner params args
            note cfg' 3 (.called (.function id params body scope) args)
            return settle (← catchReturn (ev' body inner))) := by
      refine .bind (follows_newScope _) fun inner => .bind (follows_bindParams inner params args) fun _ => ?_
      refine .bind (follows_note (by decide) _) fun _ => .bind (.catchReturn (hev body inner)) fun _ => ?_
      exact .pure _
    unfold applyFunction
    dsimp only
    split
    · exact .bind (.fail _) fun _ => hcall
    · exact hcall
  | native name =>
    unfold applyFunction
    rw [P.natives_eq]
    dsimp only
    split
    · next native hlookup =>
      have hcall := follows_callNative hn (Assoc.mem_of_lookup hlookup) (.native name) args
      split
      · split
        · exact .bind (.fail _) fun _ => hcall
        · exact hcall
      · exact hcall
    · exact .fail _
  | integer | boolean | null | string | array | map | returned | error => exact .fail _

theorem follows_binary (text : String) (l r : Node Unit) :
    P.Follows (binary cfg ev i text l r) (binary cfg' ev' i text l r) := by
  refine .bind (follows_operand hev i r) fun _ => .bind (follows_operand hev i l) fun _ => ?_
  refine .bind (follows_applyBinary text _ _) fun result => ?_
  dsimp only
  split
  · split
    · exact .bind (follows_assign i _ _) fun _ => .pure _
    · exact .bind (follows_textOrStop _) fun _ => .bind (.fail _) fun _ => .pure _
  · exact .pure _

theorem follows_conditional (c t e : Node Unit) :
    P.Follows (conditional cfg ev i c t e) (conditional cfg' ev' i c t e) := by
  refine .bind (follows_operand hev i c) fun v => .bind (follows_note (by decide) _) fun _ => ?_
  split
  · exact hev t i
  · split
    · exact .pure _
    · exact hev e i

end Parts

/-! ## Nodes -/

/-- **A node does the same in both runs if its parts do.** -/
theorem layer_follows (hn : cfg.natives.Follows P) {ev ev' : Evaluator} (hev : ev.Follows P ev') :
    Evaluator.Follows P (layer cfg ev) (layer cfg' ev') := by
  intro n i
  have used (n : Node Unit) := follows_operand hev i n
  cases n with
  | absent => exact .fail _
  | program body => exact follows_programBody hev i body .null
  | block _ body => exact follows_blockBody hev i body .null
  | expressionStmt _ e => exact hev e i
  | valueStmt _ x e =>
    refine .bind (used e) fun v => .bind (follows_bindName i x.text v) fun _ => ?_
    exact .bind (follows_note (by decide) _) fun _ => .pure _
  | updateStmt _ x e => exact .bind (used e) fun v => .bind (follows_assign i x.text v) fun _ => .pure _
  | returnStmt _ e => exact .bind (used e) fun _ => .pure _
  | integer | boolean => exact .pure _
  | string _ text => exact follows_newString text
  | identifier _ x => exact follows_lookUp i x
  | unary _ text e => exact .bind (used e) fun v => follows_applyUnary i text e v
  | binary _ text l r => exact follows_binary hev i text l r
  | conditional _ c t e => exact follows_conditional hev i c t e
  | function _ params body => exact .bind follows_freshId fun _ => .pure _
  | call _ f args =>
    refine .bind (used f) fun callee => .bind (follows_operands hev i args) fun values => ?_
    exact follows_applyFunction hev hn callee values
  | array _ es => exact .bind (follows_operands hev i es) fun values => follows_newArray values
  | index _ l r => exact .bind (used l) fun left => .bind (used r) fun place => follows_subscript left place
  | map _ ps => exact .bind (follows_mapEntries hev i ps []) fun entries => follows_newMap entries

/-- **Evaluation within one bound does the same in both runs.** -/
theorem eval_follows (hn : cfg.natives.Follows P) :
    ∀ depth, Evaluator.Follows P (eval cfg depth) (eval cfg' depth)
  | 0 => fun _ _ => .throw _
  | depth + 1 => layer_follows hn (eval_follows hn depth)

/-! ## Errors as results -/

theorem near_newError (message : String) {s s' : Store} (h : P.Near s s') :
    (newError message s).1 = (newError message s').1 ∧
      P.Near (newError message s).2 (newError message s').2 := by
  show (.ok (.error s.nextId message) : Except Stop Value) = .ok (.error s'.nextId message) ∧
    P.Near { s with nextId := s.nextId + 1 } { s' with nextId := s'.nextId + 1 }
  rw [P.nextId_eq h]
  exact ⟨rfl, P.nextId h _⟩

/-- Where two evaluations come to the same, an error is the result of both. -/
theorem near_catchError {m m' : Run Value} {s s' : Store} (heq : (m s).1 = (m' s').1)
    (h : P.Near (m s).2 (m' s').2) :
    (catchError m s).1 = (catchError m' s').1 ∧ P.Near (catchError m s).2 (catchError m' s').2 := by
  rw [catchError, catchError, tryCatch_apply, tryCatch_apply]
  rcases hx : m s with ⟨stop | v, s₁⟩ <;> rcases hx' : m' s' with ⟨stop' | v', s₁'⟩ <;>
    rw [hx, hx'] at heq h <;> cases heq
  · cases stop with
    | failed e => exact near_newError _ h
    | tooDeep => exact near_newError _ h
    | returning | fault => exact ⟨rfl, h⟩
  · exact ⟨rfl, h⟩

end SepiaLang
