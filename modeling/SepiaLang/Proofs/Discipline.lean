import SepiaLang.Proofs.Confined
import SepiaLang.Proofs.Moments

/-!
# Disciplines of evaluation

Evaluation touches the scopes in three ways only: it binds a name in the scope that it works in, it
binds a name anew where that scope sees it, and it opens a scope inside the one of a function that it
calls. The values that it works with come from literals, from names that the scope sees, from
arithmetic, and from other values. A discipline says which stores, scopes, values and trees are in
order, with a law for each of these ways; evaluation then keeps to it throughout.

* `Discipline`: what is in order, and the laws.
* `Discipline.Respects`: a computation keeps to the discipline, from one store.
* `layer_respects`: a node keeps to it if its parts do.
* **`eval_respects`**: every evaluation keeps to it.
* `Task.Uses`: what is expected of the values that are used on the way. **`respectsAt`**,
  `Task.Reaches.ready`: an evaluation and those on its way keep to a discipline that needs it.
-/

namespace SepiaLang

open SepiaLang.Computation

/-- The parts of a node that belong to its scope: all but the body of a function. -/
def Node.inner {α : Type} : Node α → List (Node α)
  | function .. => []
  | n => n.children

/-- Which stores, scopes, values and trees are in order, and that each step of evaluation keeps them
so. A store that `Leads` to another may become it, an evaluation may work in a scope that is `Open`,
and `Word`, `Closure`, `Tree` and `Binds` tell the integers, the functions, the trees and the names
that may occur. Of a store only the scopes matter; a scope is made by `enter`, for the body of a
function. -/
structure Discipline where
  Ok : Store → Prop
  Leads : Store → Store → Prop
  Open : Store → Nat → Prop
  Word : Int → Prop
  Closure : Store → Node Unit → Nat → Prop
  Tree : Nat → Node Unit → Prop
  Binds : Nat → String → Prop
  refl (s : Store) : Leads s s
  trans {s s₁ s₂ : Store} (h : Leads s s₁) (h' : Leads s₁ s₂) : Leads s s₂
  open_mono {s s' : Store} {i : Nat} (h : Leads s s') (hi : Open s i) : Open s' i
  closure_mono {s s' : Store} {body : Node Unit} {i : Nat} (h : Leads s s') (hf : Closure s body i) :
    Closure s' body i
  of_scopes {s s' : Store} (hs : Ok s) (h : s'.scopes = s.scopes) : Ok s' ∧ Leads s s'
  get? {s : Store} {i : Nat} {x : String} {v : Value} (hs : Ok s) (hi : Open s i)
    (h : s.scopes.get? i x = some v) : v.Within Word (Closure s)
  set {s : Store} {i : Nat} {x : String} {v : Value} (hs : Ok s) (hi : Open s i) (hx : Binds i x)
    (hv : v.Within Word (Closure s)) :
    Ok { s with scopes := s.scopes.set i x v } ∧ Leads s { s with scopes := s.scopes.set i x v }
  update? {s : Store} {i : Nat} {x : String} {v : Value} {scopes : Scopes} (hs : Ok s) (hi : Open s i)
    (hv : v.Within Word (Closure s)) (h : s.scopes.update? i x v = some scopes) :
    Ok { s with scopes } ∧ Leads s { s with scopes }
  enter {s : Store} {body : Node Unit} {i : Nat} (hs : Ok s) (hf : Closure s body i) :
    (Ok (s.addScope (some i)).2 ∧ Leads s (s.addScope (some i)).2) ∧
      Open (s.addScope (some i)).2 s.scopes.size ∧ Tree s.scopes.size body ∧
      ∀ x, Binds s.scopes.size x
  function {s : Store} {i : Nat} {params : List (Ident Unit)} {body : Node Unit} (hs : Ok s)
    (hi : Open s i) (h : Tree i (.function () params body)) : Closure s body i
  part {i : Nat} {n m : Node Unit} (h : Tree i n) (hm : m ∈ n.inner) : Tree i m
  valueStmt {i : Nat} {x : Ident Unit} {e : Node Unit} (h : Tree i (.valueStmt () x e)) :
    Binds i x.text
  integer {i : Nat} {n : Int} (h : Tree i (.integer () n)) : Word n
  wrap (n : Int) : Word (Word64.wrap n)

namespace Discipline

variable (D : Discipline) {α β : Type}

/-- The value may be at hand. -/
def Has (v : Value) (s : Store) : Prop := v.Within D.Word (D.Closure s)

/-- The second store is in order and may come of the first one. -/
def Next (s s' : Store) : Prop := D.Ok s' ∧ D.Leads s s'

/-- An evaluation may stop in this way. -/
def Stops : Stop → Store → Prop
  | .returning v, s => D.Has v s
  | _, _ => True

/-- The computation keeps to the discipline from the store `s`, if that is in order, and its result
satisfies `V`. -/
def Respects (V : α → Store → Prop) (m : Run α) (s : Store) : Prop :=
  D.Ok s → D.Next s (m s).2 ∧ match (m s).1 with
    | .ok a => V a (m s).2
    | .error e => D.Stops e (m s).2

end Discipline

variable {D : Discipline} {α β : Type} {s : Store}

theorem Discipline.Has.mono {s' : Store} {v : Value} (hv : D.Has v s) (h : D.Next s s') : D.Has v s' :=
  Value.Within.mono hv (fun _ hn => hn) fun _ _ => D.closure_mono h.2

namespace Discipline.Respects

variable {V V' : α → Store → Prop} {W : β → Store → Prop} {m : Run α} {f : α → Run β}

theorem pure {a : α} (h : D.Ok s → V a s) : D.Respects V (Pure.pure a) s :=
  fun hs => ⟨⟨hs, D.refl s⟩, h hs⟩

theorem throw {e : Stop} (h : D.Stops e s) : D.Respects V (throw e) s := fun hs => ⟨⟨hs, D.refl s⟩, h⟩

theorem fail (e : EvalError) : D.Respects V (fail e) s := throw trivial

/-- What is known of a store that is in order. -/
theorem of_ok (h : D.Ok s → D.Respects V m s) : D.Respects V m s := fun hs => h hs hs

theorem mono (hm : D.Respects V m s) (h : ∀ a s', V a s' → V' a s') : D.Respects V' m s := by
  intro hs
  obtain ⟨h1, h2⟩ := hm hs
  refine ⟨h1, ?_⟩
  cases hx : (m s).1 with
  | ok a => rw [hx] at h2; exact h a _ h2
  | error e => rw [hx] at h2; exact h2

/-- **One computation after the other.** -/
theorem bind (hm : D.Respects V m s)
    (hf : ∀ a s', D.Next s s' → V a s' → D.Respects W (f a) s') : D.Respects W (m >>= f) s := by
  intro hs
  obtain ⟨h1, h2⟩ := hm hs
  rw [bind_apply]
  rcases hx : m s with ⟨e | a, s'⟩
  · rw [hx] at h1 h2
    exact ⟨h1, h2⟩
  · rw [hx] at h1 h2
    obtain ⟨h3, h4⟩ := hf a s' h1 h2 h1.1
    exact ⟨⟨h3.1, D.trans h1.2 h3.2⟩, h4⟩

theorem get {f : Store → Run β} (h : D.Respects W (f s) s) :
    D.Respects W (MonadState.get >>= f) s := h

/-- After a failure nothing is done. -/
theorem fail_bind (e : EvalError) (f : α → Run β) : D.Respects W (SepiaLang.fail e >>= f) s :=
  bind (V := fun _ _ => False) (fail e) fun _ _ _ => nofun

/-- **A computation whose stops are taken care of.** -/
theorem tryCatch {h : Stop → Run α} (hm : D.Respects V m s)
    (hh : ∀ e s', D.Next s s' → D.Stops e s' → D.Respects V (h e) s') :
    D.Respects V (tryCatch m h) s := by
  intro hs
  obtain ⟨h1, h2⟩ := hm hs
  rw [tryCatch_apply]
  rcases hx : m s with ⟨e | a, s'⟩
  · rw [hx] at h1 h2
    obtain ⟨h3, h4⟩ := hh e s' h1 h2 h1.1
    exact ⟨⟨h3.1, D.trans h1.2 h3.2⟩, h4⟩
  · rw [hx] at h1 h2
    exact ⟨h1, h2⟩

/-- A computation that leaves the scopes alone. -/
theorem of_calm {V : α → Prop} (hm : Calm s.scopes V m) : D.Respects (fun a _ => V a) m s := by
  intro hs
  obtain ⟨h1, h2⟩ := hm s rfl
  refine ⟨D.of_scopes hs h1, ?_⟩
  cases hx : (m s).1 with
  | ok a => rw [hx] at h2; exact h2
  | error e =>
    rw [hx] at h2
    cases e with
    | returning v => exact absurd rfl (h2 v)
    | failed | tooDeep | fault => trivial

end Discipline.Respects

open Discipline

/-! ## Steps on the store -/

theorem calm_note {scopes : Scopes} (cfg : Config) (level : Nat) (entry : LogEntry) :
    Calm scopes (fun _ => True) (note cfg level entry) := by
  unfold note
  split
  · split
    · exact Keeps.modify fun s hs => (s.write_scopes entry).trans hs
    · exact Keeps.throw fun _ => nofun
  · exact Keeps.pure trivial

theorem respects_note (cfg : Config) (level : Nat) (entry : LogEntry) :
    D.Respects (fun _ _ => True) (note cfg level entry) s :=
  .of_calm (calm_note cfg level entry)

theorem respects_freshId : D.Respects (fun _ _ => True) freshId s := .of_calm calm_freshId

theorem respects_textOrStop (text? : Option String) :
    D.Respects (fun _ _ => True) (textOrStop text?) s := by
  cases text? with
  | none => exact .throw trivial
  | some text => exact .pure fun _ => trivial

theorem respects_newString (text : String) : D.Respects D.Has (newString text) s :=
  .bind respects_freshId fun _ _ _ _ => .pure fun _ => Value.within_string _ _

theorem respects_newArray {elements : List Value} (h : ∀ v ∈ elements, D.Has v s) :
    D.Respects D.Has (newArray elements) s :=
  .bind respects_freshId fun _ _ hs' _ => .pure fun _ => Value.within_array fun v hv => (h v hv).mono hs'

theorem respects_newMap {entries : List (Entry Value)} (h : ∀ e ∈ entries, D.Has e.key s ∧ D.Has e.value s) :
    D.Respects D.Has (newMap entries) s :=
  .bind respects_freshId fun _ _ hs' _ => .pure fun _ => Value.within_map fun e he =>
    ⟨(h e he).1.mono hs', (h e he).2.mono hs'⟩

theorem respects_bindName {i : Nat} {x : String} {v : Value} (hi : D.Open s i) (hx : D.Binds i x)
    (hv : D.Has v s) : D.Respects (fun _ _ => True) (bindName i x v) s :=
  fun hs => ⟨D.set hs hi hx hv, trivial⟩

theorem respects_assign (cfg : Config) {i : Nat} (x : String) {v : Value} (hi : D.Open s i)
    (hv : D.Has v s) : D.Respects (fun _ _ => True) (assign cfg i x v) s := by
  refine .get ?_
  split
  · next scopes hu =>
    refine .bind (V := fun _ _ => True) (fun hs => ⟨D.update? hs hi hv hu, trivial⟩) fun _ _ _ _ => ?_
    exact respects_note cfg 2 _
  · exact .fail _

theorem respects_lookUp (cfg : Config) {i : Nat} (x : String) (hi : D.Open s i) :
    D.Respects D.Has (lookUp cfg i x) s := by
  refine .get ?_
  split
  · next v hv => exact .pure fun hs => D.get? hs hi hv
  · split
    · exact .pure fun _ => Value.within_native _
    · exact .fail _

theorem respects_bindParams {i : Nat} : ∀ (params : List String) (args : List Value) {s : Store},
    D.Open s i → (∀ x, D.Binds i x) → (∀ v ∈ args, D.Has v s) →
      D.Respects (fun _ _ => True) (bindParams i params args) s
  | [], _, _, _, _, _ => .pure fun _ => trivial
  | _ :: _, [], _, _, _, _ => .pure fun _ => trivial
  | p :: ps, v :: vs, _, hi, hx, h =>
    .bind (respects_bindName hi (hx p) (h v List.mem_cons_self)) fun _ _ hs' _ =>
      respects_bindParams ps vs (D.open_mono hs'.2 hi) hx fun w hw =>
        (h w (List.mem_cons_of_mem _ hw)).mono hs'

/-! ## Operators and subscripts -/

theorem respects_applyUnary (cfg : Config) {i : Nat} (hi : D.Open s i) (text : String)
    (target : Node Unit) (v : Value) : D.Respects D.Has (applyUnary cfg i text target v) s := by
  have word (n : Int) (s' : Store) : D.Has (.integer (Word64.wrap n)) s' :=
    Value.within_integer (D.wrap n)
  unfold applyUnary
  split
  · exact .pure fun _ => Value.within_boolean _
  · exact .pure fun _ => word _ _
  · dsimp only
    split
    · exact .bind (respects_assign cfg _ hi (word _ _)) fun _ _ _ _ => .pure fun _ => word _ _
    · exact .pure fun _ => word _ _
  · exact .fail _

theorem respects_arith (op : Arith) (a b : Int) :
    D.Respects (fun n _ => D.Word n) (op.apply a b) s := by
  cases op with
  | add | sub | mul => exact .pure fun _ => D.wrap _
  | div =>
    change D.Respects _ (if b = 0 then fail .divisionByZero else quotient a b) s
    unfold quotient Word64.divide?
    split
    · exact .fail _
    · exact .pure fun _ => D.wrap _

theorem respects_applyBinary (text : String) (l r : Value) :
    D.Respects D.Has (applyBinary text l r) s := by
  unfold applyBinary
  split
  · unfold applyIntegers
    split
    · exact .bind (respects_arith _ _ _) fun _ _ _ hn => .pure fun _ => Value.within_integer hn
    · exact .pure fun _ => Value.within_boolean _
    · exact .fail _
  · split
    · exact .pure fun _ => Value.within_boolean _
    · exact .pure fun _ => Value.within_boolean _
    · unfold applyOthers
      split
      · exact .pure fun _ => Value.within_boolean _
      · exact respects_newString _
      · split <;> exact .fail _

theorem respects_keyOf (v : Value) : D.Respects (fun _ _ => True) (keyOf v) s := by
  unfold keyOf
  split
  · exact .pure fun _ => trivial
  · exact .throw trivial

theorem respects_subscript {l i : Value} (hl : D.Has l s) :
    D.Respects D.Has (subscript l i) s := by
  unfold subscript
  split
  · next elements n =>
    split
    · exact .pure fun _ => Value.within_null
    · unfold elementAt
      split
      · next v hv => exact .pure fun _ => hl.part (.element (List.mem_of_getElem? hv) (.self v))
      · exact .throw trivial
  · next entries =>
    dsimp only
    split
    · exact .fail_bind _ _
    · refine .bind (respects_keyOf i) fun k s' hs' _ => .pure fun _ => ?_
      unfold valueAt?
      cases he : entries.find? (hasKey k) with
      | none => exact Value.within_null
      | some e =>
        exact Has.mono (hl.part (.value (List.mem_of_find?_eq_some he) (.self e.value))) hs'
  · exact .fail _

/-! ## Native functions -/

/-- The native functions keep to the discipline when they are given values that satisfy `F`. -/
def Registry.Respects (D : Discipline) (F : Value → Prop) (natives : Registry) : Prop :=
  ∀ entry ∈ natives, ∀ (args : List Value) (s : Store), (∀ v ∈ args, D.Has v s ∧ F v) →
    D.Respects D.Has (entry.2.call args) s

/-- **Native functions that make nothing up keep to every discipline**, if lengths may occur. -/
theorem Registry.Confined.respects {natives : Registry} (hn : natives.Confined) {F : Value → Prop}
    (hF : ∀ v k, F v → v.size? = some k → D.Word k) : natives.Respects D F := by
  intro entry hentry args s hargs hs
  have has {v : Value} {s' : Store} (hv : v.MadeOf args) (hs' : D.Leads s s') : D.Has v s' := by
    refine Value.Within.mono hv ?_ ?_
    · rintro n (⟨a, ha, hn⟩ | ⟨a, ha, k, hk, rfl⟩)
      · exact (hargs a ha).1.1 n hn
      · exact hF a k (hargs a ha).2 hk
    · rintro body scope ⟨a, ha, id, params, hf⟩
      exact D.closure_mono hs' ((hargs a ha).1.2 id params body scope hf)
  obtain ⟨h1, h2⟩ := hn entry hentry args s.scopes s rfl
  have hnext := D.of_scopes hs h1
  refine ⟨hnext, ?_⟩
  cases hx : (entry.2.call args s).1 with
  | ok v =>
    rw [hx] at h2
    exact has h2 hnext.2
  | error e =>
    rw [hx] at h2
    cases e with
    | returning v => exact has (h2 v rfl) hnext.2
    | failed | tooDeep | fault => trivial

/-! ## Parts of a node -/

/-- The evaluator keeps to the discipline, and its values that are for use satisfy `F`. -/
def Evaluator.Respects (D : Discipline) (F : Value → Prop) (ev : Evaluator) : Prop :=
  ∀ n i s, D.Open s i → D.Tree i n →
    D.Respects (fun v s' => D.Has v s' ∧ ((∀ w, v ≠ .returned w) → F v)) (ev n i) s

theorem has_settle {v : Value} (h : D.Has v s) : D.Has (settle v) s := by
  cases v with
  | returned w => exact Value.within_returned_iff.1 h
  | _ => exact h

section Parts

variable {F : Value → Prop} {ev : Evaluator} (hev : ev.Respects D F) {i : Nat}
include hev

theorem respects_operand {n : Node Unit} (hi : D.Open s i) (hn : D.Tree i n) :
    D.Respects (fun v s' => D.Has v s' ∧ F v) (operand ev n i) s := by
  refine .bind (hev n i s hi hn) fun v s' _ hv => ?_
  split
  · exact .throw (Value.within_returned_iff.1 hv.1)
  · next h => exact .pure fun _ => ⟨hv.1, hv.2 h⟩

theorem respects_operands : ∀ {ns : List (Node Unit)} {s : Store}, D.Open s i →
    (∀ n ∈ ns, D.Tree i n) →
      D.Respects (fun vs s' => ∀ v ∈ vs, D.Has v s' ∧ F v) (operands ev i ns) s
  | [], _, _, _ => .pure fun _ => nofun
  | n :: ns, s, hi, hns => by
    refine .bind (respects_operand hev hi (hns n List.mem_cons_self)) fun v s₁ hs₁ hv => ?_
    have hi₁ := D.open_mono hs₁.2 hi
    refine .bind (respects_operands hi₁ fun m hm => hns m (List.mem_cons_of_mem _ hm))
      fun vs s₂ hs₂ hvs => .pure fun _ w hw => ?_
    rcases List.mem_cons.1 hw with rfl | hw
    · exact ⟨hv.1.mono hs₂, hv.2⟩
    · exact hvs w hw

theorem respects_mapEntries : ∀ {pairs : List (Node Unit × Node Unit)}
    {entries : List (Entry Value)} {s : Store}, D.Open s i →
    (∀ p ∈ pairs, D.Tree i p.1 ∧ D.Tree i p.2) → (∀ e ∈ entries, D.Has e.key s ∧ D.Has e.value s) →
      D.Respects (fun es s' => ∀ e ∈ es, D.Has e.key s' ∧ D.Has e.value s') (mapEntries ev i entries pairs) s
  | [], _, _, _, _, h => .pure fun _ => h
  | (k, v) :: pairs, entries, s, hi, hps, h => by
    obtain ⟨hk, hv⟩ := hps (k, v) List.mem_cons_self
    refine .bind (respects_operand hev hi hk) fun key s₁ hs₁ hkey => ?_
    have hi₁ := D.open_mono hs₁.2 hi
    dsimp only
    split
    · exact .fail_bind _ _
    · refine .bind (respects_operand hev hi₁ hv) fun value s₂ hs₂ hvalue => ?_
      refine .bind (respects_keyOf key) fun j s₃ hs₃ _ => ?_
      have hi₃ := D.open_mono hs₃.2 (D.open_mono hs₂.2 hi₁)
      refine respects_mapEntries hi₃ (fun p hp => hps p (List.mem_cons_of_mem _ hp)) fun e he => ?_
      rcases Assoc.eq_or_mem_of_mem_put he with rfl | he
      · exact ⟨(hkey.1.mono hs₂).mono hs₃, hvalue.1.mono hs₃⟩
      · exact ⟨(((h e he).1.mono hs₁).mono hs₂).mono hs₃, (((h e he).2.mono hs₁).mono hs₂).mono hs₃⟩

theorem respects_blockBody : ∀ {ns : List (Node Unit)} {result : Value} {s : Store}, D.Open s i →
    (∀ n ∈ ns, D.Tree i n) → D.Has result s → D.Respects D.Has (blockBody ev i result ns) s
  | [], _, _, _, _, h => .pure fun _ => h
  | n :: ns, _, s, hi, hns, _ => by
    refine .bind (hev n i s hi (hns n List.mem_cons_self)) fun v s₁ hs₁ hv => ?_
    split
    · exact .pure fun _ => hv.1
    · exact respects_blockBody (D.open_mono hs₁.2 hi) (fun m hm => hns m (List.mem_cons_of_mem _ hm)) hv.1

theorem respects_catchReturn {n : Node Unit} (hi : D.Open s i) (hn : D.Tree i n) :
    D.Respects D.Has (catchReturn (ev n i)) s := by
  refine .tryCatch (.mono (hev n i s hi hn) fun _ _ => And.left) fun e s' _ he => ?_
  split
  · exact .pure fun _ => Value.within_returned_iff.2 he
  · exact .throw he

theorem respects_programBody : ∀ {ns : List (Node Unit)} {result : Value} {s : Store}, D.Open s i →
    (∀ n ∈ ns, D.Tree i n) → D.Has result s → D.Respects D.Has (programBody ev i result ns) s
  | [], _, _, _, _, h => .pure fun _ => h
  | n :: ns, _, s, hi, hns, _ => by
    refine .bind (respects_catchReturn hev hi (hns n List.mem_cons_self)) fun v s₁ hs₁ hv => ?_
    split
    · exact .pure fun _ => Value.within_returned_iff.1 hv
    · exact respects_programBody (D.open_mono hs₁.2 hi) (fun m hm => hns m (List.mem_cons_of_mem _ hm)) hv

end Parts

/-! ## Calls -/

theorem respects_enterCall (cfg : Config) {f : Value} {params : List String} {body : Node Unit}
    {outer : Nat} {args : List Value} (hf : D.Closure s body outer) (hargs : ∀ v ∈ args, D.Has v s) :
    D.Respects (fun inner s' => D.Open s' inner ∧ D.Tree inner body)
      (enterCall cfg f params outer args) s := by
  refine .of_ok fun hs => ?_
  obtain ⟨hnext, hopen, hbody, hbinds⟩ := D.enter hs hf
  refine .bind (V := fun inner s' => inner = s.scopes.size ∧ D.Open s' inner)
    (fun _ => ⟨hnext, rfl, hopen⟩) fun inner s₁ hs₁ ⟨hinner, hi⟩ => ?_
  subst hinner
  refine .bind (respects_bindParams params args hi hbinds fun v hv => (hargs v hv).mono hs₁)
    fun _ s₂ hs₂ _ => ?_
  refine .bind (respects_note cfg 3 _) fun _ s₃ hs₃ _ => .pure fun _ => ?_
  exact ⟨D.open_mono hs₃.2 (D.open_mono hs₂.2 hi), hbody⟩

/-- A call of a function opens its scope and evaluates its body there. -/
theorem applyFunction_function (cfg : Config) (ev : Evaluator) (id : Nat) (params : List String)
    (body : Node Unit) (outer : Nat) {args : List Value} (h : args.length = params.length) :
    applyFunction cfg ev (.function id params body outer) args =
      enterCall cfg (.function id params body outer) params outer args >>= fun inner =>
        return settle (← catchReturn (ev body inner)) := by
  simp [applyFunction, enterCall, h]

theorem respects_callNative {cfg : Config} {F : Value → Prop} {native : Native} {name : String}
    (hn : cfg.natives.Respects D F) (hnative : (name, native) ∈ cfg.natives) (f : Value)
    {args : List Value} (hargs : ∀ v ∈ args, D.Has v s ∧ F v) :
    D.Respects D.Has (callNative cfg f native args) s := by
  refine .bind (respects_note cfg 3 _) fun _ s₁ hs₁ _ => ?_
  have hargs₁ : ∀ v ∈ args, D.Has v s₁ ∧ F v := fun v hv => ⟨(hargs v hv).1.mono hs₁, (hargs v hv).2⟩
  refine .bind (hn _ hnative args s₁ hargs₁) fun v s₂ _ hv => ?_
  split
  · exact .fail _
  · exact .pure fun _ => hv

theorem respects_applyFunction {cfg : Config} {F : Value → Prop} {ev : Evaluator}
    (hev : ev.Respects D F) (hn : cfg.natives.Respects D F) {f : Value} {args : List Value}
    (hf : D.Has f s) (hargs : ∀ v ∈ args, D.Has v s ∧ F v) :
    D.Respects D.Has (applyFunction cfg ev f args) s := by
  cases f with
  | function id params body outer =>
    by_cases hlength : args.length = params.length
    · rw [applyFunction_function cfg ev id params body outer hlength]
      have hbody : D.Closure s body outer := hf.2 id params body outer (.self _)
      refine .bind (respects_enterCall cfg hbody fun v hv => (hargs v hv).1) fun inner s₁ _ hinner => ?_
      refine .bind (respects_catchReturn hev hinner.1 hinner.2) fun v s₂ _ hv => ?_
      exact .pure fun _ => has_settle hv
    · unfold applyFunction
      simp only [ne_eq, hlength, not_false_eq_true, if_true]
      exact .fail_bind _ _
  | native name =>
    unfold applyFunction
    dsimp only
    split
    · next native hnative =>
      have hcall := respects_callNative hn (Assoc.mem_of_lookup hnative) (.native name) hargs
      split
      · split
        · exact .fail_bind _ _
        · exact hcall
      · exact hcall
    · exact .fail _
  | integer | boolean | null | string | array | map | returned | error => exact .fail _

/-! ## Nodes -/

section Nodes

variable {cfg : Config} {F : Value → Prop} {ev : Evaluator} (hev : ev.Respects D F) {i : Nat}
include hev

theorem respects_binary (text : String) {l r : Node Unit} (hi : D.Open s i) (hl : D.Tree i l)
    (hr : D.Tree i r) : D.Respects D.Has (binary cfg ev i text l r) s := by
  refine .bind (respects_operand hev hi hr) fun _ s₁ hs₁ _ => ?_
  have hi₁ := D.open_mono hs₁.2 hi
  refine .bind (respects_operand hev hi₁ hl) fun _ s₂ hs₂ _ => ?_
  have hi₂ := D.open_mono hs₂.2 hi₁
  refine .bind (respects_applyBinary text _ _) fun v s₃ hs₃ hv => ?_
  have hi₃ := D.open_mono hs₃.2 hi₂
  dsimp only
  split
  · split
    · exact .bind (respects_assign cfg _ hi₃ hv) fun _ _ hs₄ _ => .pure fun _ => hv.mono hs₄
    · exact .bind (respects_textOrStop _) fun _ _ _ _ => .fail_bind _ _
  · exact .pure fun _ => hv

theorem respects_conditional {c t e : Node Unit} (hi : D.Open s i) (hc : D.Tree i c) (ht : D.Tree i t)
    (he : D.Tree i e) : D.Respects D.Has (conditional cfg ev i c t e) s := by
  refine .bind (respects_operand hev hi hc) fun v s₁ hs₁ _ => ?_
  refine .bind (respects_note cfg 3 _) fun _ s₂ hs₂ _ => ?_
  have hi₂ := D.open_mono hs₂.2 (D.open_mono hs₁.2 hi)
  split
  · exact .mono (hev t i s₂ hi₂ ht) fun _ _ => And.left
  · split
    · exact .pure fun _ => Value.within_null
    · exact .mono (hev e i s₂ hi₂ he) fun _ _ => And.left

/-- **A node keeps to the discipline if its parts do.** -/
theorem layer_respects (hn : cfg.natives.Respects D F) :
    Evaluator.Respects D (fun _ => True) (layer cfg ev) := by
  intro n i s hi htree
  have hparts : ∀ m ∈ n.inner, D.Tree i m := fun m hm => D.part htree hm
  have used {m : Node Unit} {s : Store} (hi : D.Open s i) (hm : m ∈ n.inner) :=
    respects_operand hev hi (hparts m hm)
  suffices h : D.Respects D.Has (layer cfg ev n i) s from
    .mono h fun _ _ hv => ⟨hv, fun _ => trivial⟩
  cases n with
  | absent => exact .fail _
  | program body => exact respects_programBody hev hi hparts Value.within_null
  | block _ body => exact respects_blockBody hev hi hparts Value.within_null
  | expressionStmt _ e =>
    exact .mono (hev e i s hi (hparts e List.mem_cons_self)) fun _ _ => And.left
  | valueStmt _ name e =>
    refine .bind (used hi List.mem_cons_self) fun v s₁ hs₁ hv => ?_
    refine .bind (respects_bindName (D.open_mono hs₁.2 hi) (D.valueStmt htree) hv.1) fun _ _ _ _ => ?_
    exact .bind (respects_note cfg 2 _) fun _ _ _ _ => .pure fun _ => Value.within_null
  | updateStmt _ name e =>
    refine .bind (used hi List.mem_cons_self) fun v s₁ hs₁ hv => ?_
    exact .bind (respects_assign cfg name.text (D.open_mono hs₁.2 hi) hv.1) fun _ _ _ _ =>
      .pure fun _ => Value.within_null
  | returnStmt _ e =>
    exact .bind (used hi List.mem_cons_self) fun v _ _ hv => .pure fun _ =>
      Value.within_returned_iff.2 hv.1
  | integer _ n => exact .pure fun _ => Value.within_integer (D.integer htree)
  | boolean _ b => exact .pure fun _ => Value.within_boolean b
  | string _ text => exact respects_newString text
  | identifier _ name => exact respects_lookUp cfg name hi
  | unary _ text e =>
    exact .bind (used hi List.mem_cons_self) fun v _ hs₁ _ =>
      respects_applyUnary cfg (D.open_mono hs₁.2 hi) text e v
  | binary _ text l r =>
    exact respects_binary hev text hi (hparts l List.mem_cons_self)
      (hparts r (List.mem_cons_of_mem _ List.mem_cons_self))
  | conditional _ c t e =>
    exact respects_conditional hev hi (hparts c List.mem_cons_self)
      (hparts t (List.mem_cons_of_mem _ List.mem_cons_self))
      (hparts e (List.mem_cons_of_mem _ (List.mem_cons_of_mem _ List.mem_cons_self)))
  | function _ params body =>
    refine .bind respects_freshId fun _ _ hs₁ _ => .pure fun hs => ?_
    exact Value.within_function (D.function hs (D.open_mono hs₁.2 hi) htree)
  | call _ f args =>
    refine .bind (used hi List.mem_cons_self) fun callee s₁ hs₁ hcallee => ?_
    refine .bind (respects_operands hev (D.open_mono hs₁.2 hi) fun m hm =>
      hparts m (List.mem_cons_of_mem _ hm)) fun values s₂ hs₂ hvalues => ?_
    exact respects_applyFunction hev hn (hcallee.1.mono hs₂) hvalues
  | array _ es =>
    exact .bind (respects_operands hev hi hparts) fun values _ _ hvalues =>
      respects_newArray fun v hv => (hvalues v hv).1
  | index _ l r =>
    refine .bind (used hi List.mem_cons_self) fun left s₁ hs₁ hl => ?_
    exact .bind (used (D.open_mono hs₁.2 hi) (List.mem_cons_of_mem _ List.mem_cons_self))
      fun _ _ hs₂ _ => respects_subscript (hl.1.mono hs₂)
  | map _ ps =>
    have hpairs : ∀ p ∈ ps, D.Tree i p.1 ∧ D.Tree i p.2 := fun p hp =>
      ⟨hparts p.1 (List.mem_flatMap.2 ⟨p, hp, List.mem_cons_self⟩),
        hparts p.2 (List.mem_flatMap.2 ⟨p, hp, List.mem_cons_of_mem _ List.mem_cons_self⟩)⟩
    exact .bind (respects_mapEntries hev hi hpairs nofun) fun entries _ _ he => respects_newMap he

end Nodes

/-- **Every evaluation keeps to the discipline**, however deeply evaluations may be nested. -/
theorem eval_respects {cfg : Config} (hn : cfg.natives.Respects D fun _ => True) :
    ∀ depth, Evaluator.Respects D (fun _ => True) (eval cfg depth)
  | 0 => fun _ _ _ _ _ => .throw trivial
  | depth + 1 => layer_respects (eval_respects hn depth) hn

/-! ## Programs -/

theorem respects_newError (message : String) : D.Respects D.Has (newError message) s :=
  .bind respects_freshId fun _ _ _ _ => .pure fun _ => Value.within_error _ _

theorem respects_catchError {m : Run Value} (hm : D.Respects D.Has m s) :
    D.Respects D.Has (catchError m) s := by
  refine .tryCatch hm fun e s' _ he => ?_
  split
  · exact respects_newError _
  · exact respects_newError _
  · exact .throw he

/-- A run keeps to the discipline if its evaluation does. -/
theorem respects_runWithin {cfg : Config} {limit : Nat} {program : Node Unit} {i : Nat}
    (h : D.Respects D.Has (eval cfg limit program i) (note cfg 1 .running s).2) :
    D.Respects D.Has (runWithin cfg limit program i) s := by
  have hstart : D.Respects (fun _ s' => s' = (note cfg 1 .running s).2) (note cfg 1 .running) s := by
    intro hs
    refine ⟨(respects_note cfg 1 .running hs).1, ?_⟩
    rw [note_running cfg s]
  refine .bind hstart fun _ s₁ _ hs₁ => ?_
  subst hs₁
  refine .bind (respects_catchError h) fun v s₂ _ hv => ?_
  exact .bind (respects_note cfg 1 _) fun _ _ hs₃ _ => .pure fun _ => hv.mono hs₃

/-- The value that an evaluation ends with: its own one, or one on its way out. -/
def carried? : Except Stop Value → Option Value
  | .ok v | .error (.returning v) => some v
  | _ => none

theorem Discipline.Respects.carried {m : Run Value} (h : D.Respects D.Has m s)
    (hs : D.Ok s) : D.Next s (m s).2 ∧ ∀ v, carried? (m s).1 = some v → D.Has v (m s).2 := by
  obtain ⟨h1, h2⟩ := h hs
  refine ⟨h1, fun v hv => ?_⟩
  rcases hr : (m s).1 with stop | w <;> rw [hr] at h2 hv
  · cases stop <;> cases hv
    exact h2
  · cases hv
    exact h2

/-! ## Evaluations on the way -/

section Congr

variable {ev ev' : Evaluator} {i : Nat}

theorem Passes.congr {before after ns : List (Node Unit)} {s s' : Store}
    (hpass : Passes ev i before s s') (hns : ns = before ++ after) (h : Agree ev ev' i ns s) :
    Passes ev' i before s s' := by
  induction hpass generalizing ns with
  | nil => exact .nil _
  | cons hn hv _ ih =>
    subst hns
    exact .cons (h.head.symm.trans hn) hv (ih rfl (h.tail hn hv))

/-- Evaluators that do the same in all evaluations that a node starts start the same ones. -/
theorem Starts.congr {cfg : Config} {n m : Node Unit} {j : Nat} {s s' : Store}
    (h : ∀ m j s', Starts cfg ev n i s m j s' → ev m j s' = ev' m j s')
    (hstarts : Starts cfg ev n i s m j s') : Starts cfg ev' n i s m j s' := by
  have hparts : Agree ev ev' i n.parts s :=
    fun before m after s' hn hpass => h m i s' (.part hn hpass)
  cases hstarts with
  | part hn hpass => exact .part hn (hpass.congr hn hparts)
  | branch hc hnote => exact .branch (hparts.operand.symm.trans hc) hnote
  | body hf hargs henter =>
    have hafter := hparts.after hf
    exact .body (hparts.operand.symm.trans hf) ((operands_congr hafter).symm.trans hargs) henter

end Congr

namespace Discipline.Respects

variable {V : α → Store → Prop} {m m' : Run α}

theorem congr (h : D.Respects V m s) (hm : m' s = m s) : D.Respects V m' s := by
  unfold Respects at *
  rwa [hm]

theorem of_result (h : D.Respects V m s) (hs : D.Ok s) {a : α} {s' : Store} (hm : m s = (.ok a, s')) :
    D.Next s s' ∧ V a s' := by
  have := h hs
  rwa [hm] at this

end Discipline.Respects

theorem Node.mem_inner_of_mem_parts {n m : Node Unit} (h : m ∈ n.parts) : m ∈ n.inner := by
  cases n with
  | binary | conditional => simp_all [parts, inner, children, or_comm]
  | _ => exact h

/-- The evaluation may be made: its store is in order, and so are its scope and its tree. -/
def Task.Ready (D : Discipline) (t : Task) : Prop :=
  D.Ok t.store ∧ D.Open t.store t.scope ∧ D.Tree t.scope t.tree

section Ready

variable {cfg : Config} {F : Value → Prop}

theorem Passes.next {ev : Evaluator} (hev : ev.Respects D F) {i : Nat} {ns : List (Node Unit)}
    {s s' : Store} (h : Passes ev i ns s s') (hs : D.Ok s) (hi : D.Open s i)
    (hns : ∀ n ∈ ns, D.Tree i n) : D.Next s s' := by
  induction h with
  | nil => exact ⟨hs, D.refl _⟩
  | cons hn _ _ ih =>
    obtain ⟨hnext, -⟩ := (hev _ i _ hi (hns _ List.mem_cons_self)).of_result hs hn
    have hrest := ih hnext.1 (D.open_mono hnext.2 hi) fun m hm => hns m (List.mem_cons_of_mem _ hm)
    exact ⟨hrest.1, D.trans hnext.2 hrest.2⟩

/-- An evaluation that another one starts may be made if that one may. -/
theorem Starts.ready {ev : Evaluator} (hev : ev.Respects D F) {n m : Node Unit} {i j depth depth' : Nat}
    {s s' : Store} (h : Starts cfg ev n i s m j s') (hready : Task.Ready D ⟨depth, n, i, s⟩) :
    Task.Ready D ⟨depth', m, j, s'⟩ := by
  obtain ⟨hs, hi, htree⟩ := hready
  have hparts : ∀ m ∈ n.parts, D.Tree i m := fun m hm => D.part htree (Node.mem_inner_of_mem_parts hm)
  cases h with
  | part hn hpass =>
    rw [hn] at hparts
    have hnext := hpass.next hev hs hi fun m hm => hparts m (List.mem_append_left _ hm)
    exact ⟨hnext.1, D.open_mono hnext.2 hi, hparts m (List.mem_append_right _ List.mem_cons_self)⟩
  | @branch c t e _ v _ s₁ _ hc hnote =>
    obtain ⟨h₁, -⟩ := (respects_operand hev hi (hparts c List.mem_cons_self)).of_result hs hc
    obtain ⟨h₂, -⟩ := (respects_note cfg 3 _).of_result h₁.1 hnote
    refine ⟨h₂.1, D.open_mono h₂.2 (D.open_mono h₁.2 hi), ?_⟩
    split
    · exact D.part htree (List.mem_cons_of_mem _ List.mem_cons_self)
    · exact D.part htree (List.mem_cons_of_mem _ (List.mem_cons_of_mem _ List.mem_cons_self))
  | @body f _ args _ id _ _ params values _ s₁ s₂ _ hf hargs henter =>
    obtain ⟨h₁, hfun, -⟩ := (respects_operand hev hi (hparts f List.mem_cons_self)).of_result hs hf
    obtain ⟨h₂, hvalues⟩ := (respects_operands hev (D.open_mono h₁.2 hi) fun m hm =>
      hparts m (List.mem_cons_of_mem _ hm)).of_result h₁.1 hargs
    have hbody := (hfun.mono h₂).2 _ _ _ _ (.self _)
    obtain ⟨h₃, hinner⟩ := (respects_enterCall cfg hbody fun v hv => (hvalues v hv).1).of_result h₂.1 henter
    exact ⟨h₃.1, hinner⟩

/-- All values that are used on the way of the evaluation satisfy `F`. -/
def Task.Uses (cfg : Config) (F : Value → Prop) (t : Task) : Prop :=
  ∀ t' : Task, t.Reaches cfg t' → ∀ v, t'.used? cfg = some v → F v

open Classical in
/-- The evaluator, stopped where the values that are used would not satisfy `F`. -/
noncomputable def checked (cfg : Config) (F : Value → Prop) (depth : Nat) : Evaluator := fun n i s =>
  if Task.Uses cfg F ⟨depth, n, i, s⟩ then eval cfg depth n i s else (.error .tooDeep, s)

theorem Task.Uses.starts {depth : Nat} {n m : Node Unit} {i j : Nat} {s s' : Store}
    (h : Task.Uses cfg F ⟨depth + 1, n, i, s⟩) (hstarts : Starts cfg (eval cfg depth) n i s m j s') :
    Task.Uses cfg F ⟨depth, m, j, s'⟩ := fun t' ht' => h t' (.step hstarts ht')

theorem Task.Reaches.uses {t t' : Task} (h : t.Reaches cfg t') (huses : t.Uses cfg F) :
    t'.Uses cfg F := by
  induction h with
  | refl => exact huses
  | step hstarts _ ih => exact ih (huses.starts hstarts)

/-- Where all values are as they should be, nothing is stopped. -/
theorem eval_eq_checked {depth : Nat} {n m : Node Unit} {i j : Nat} {s s' : Store}
    (h : Task.Uses cfg F ⟨depth + 1, n, i, s⟩) (hstarts : Starts cfg (eval cfg depth) n i s m j s') :
    eval cfg depth m j s' = checked cfg F depth m j s' :=
  (if_pos (h.starts hstarts)).symm

theorem used?_of_result {t : Task} {v : Value} {s' : Store} (h : t.result cfg = (.ok v, s'))
    (hv : ∀ w, v ≠ .returned w) : t.used? cfg = some v := by
  unfold Task.result at h
  unfold Task.used? operand
  rw [bind_of_ok h]
  cases v with
  | returned w => exact absurd rfl (hv w)
  | _ => rfl

/-- Evaluation at some depth keeps to the discipline if the values that it uses satisfy `F`. -/
def RespectsAt (D : Discipline) (cfg : Config) (F : Value → Prop) (depth : Nat) : Prop :=
  ∀ (n : Node Unit) (i : Nat) (s : Store), Task.Uses cfg F ⟨depth, n, i, s⟩ → D.Open s i → D.Tree i n →
    D.Respects D.Has (eval cfg depth n i) s

theorem RespectsAt.checked {depth : Nat} (h : RespectsAt D cfg F depth) :
    (checked cfg F depth).Respects D F := by
  intro m j s' hj hm
  by_cases huses : Task.Uses cfg F ⟨depth, m, j, s'⟩
  · have heq : SepiaLang.checked cfg F depth m j s' = eval cfg depth m j s' := if_pos huses
    intro hs
    obtain ⟨h1, h2⟩ := h m j s' huses hj hm hs
    rw [heq]
    refine ⟨h1, ?_⟩
    rcases hr : eval cfg depth m j s' with ⟨stop | v, s''⟩ <;> rw [hr] at h2
    · exact h2
    · exact ⟨h2, fun hv => huses _ (.refl _) v (used?_of_result hr hv)⟩
  · exact .congr (.throw (e := .tooDeep) trivial) (if_neg huses)

variable (hn : cfg.natives.Respects D F)
include hn

/-- **An evaluation keeps to the discipline if the values that it uses satisfy `F`.** -/
theorem respectsAt : ∀ depth, RespectsAt D cfg F depth
  | 0 => fun _ _ _ _ _ _ => .throw trivial
  | depth + 1 => fun n i s huses hi htree => by
    have hlayer := layer_respects (respectsAt depth).checked hn n i s hi htree
    refine .congr (.mono hlayer fun _ _ => And.left) ?_
    -- the evaluations that are stopped for their values are not among those that the node starts
    exact layer_congr_of_starts fun m j s' hstarts => eval_eq_checked huses hstarts

/-- **Every evaluation on the way may be made.** -/
theorem Task.Reaches.ready {t t' : Task} (h : t.Reaches cfg t') (huses : t.Uses cfg F)
    (ht : t.Ready D) : t'.Ready D := by
  induction h with
  | refl => exact ht
  | step hstarts _ ih =>
    have hchecked := hstarts.congr fun m j s' hstarts => eval_eq_checked huses hstarts
    exact ih (huses.starts hstarts) (hchecked.ready (respectsAt hn _).checked ht)

end Ready

end SepiaLang
