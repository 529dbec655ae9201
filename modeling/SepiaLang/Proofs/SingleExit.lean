import SepiaLang.Proofs.Sparing

/-!
# Returning by a single exit

An evaluator in which `return` has one meaning: it stops the evaluation at once with its value, and
only the call of a function and a statement of the program take that value. Nothing looks at a value
to see whether it is on its way out.

The evaluator of the language returns in two ways. A value that is on its way out passes through
blocks as an ordinary result with a mark, and where it would be used it stops the evaluation. The
two ways hand over to each other at the right places:

* `SingleExit.eval`, `SingleExit.runWithin`: the evaluator with a single exit.
* `handOver`: a marked result stops the evaluation instead.
* `handOver_layer`, `handOver_eval`: evaluation that hands its result over is evaluation with a
  single exit.
* **`runWithin_eq_singleExit`**: programs run the same in both evaluators.
* `runWithin_ne_singleExit_element`: not so with a value on its way out inside an array.
-/

namespace SepiaLang

namespace SingleExit

/-! ## The evaluator -/

/-- Parts from left to right. -/
def values (ev : Evaluator) (scope : Nat) : List (Node Unit) → Run (List Value)
  | [] => return []
  | n :: rest => do
    let v ← ev n scope
    return v :: (← values ev scope rest)

/-- The entries of a map literal, from left to right, added to those before. -/
def mapEntries (ev : Evaluator) (scope : Nat) (entries : List (Entry Value)) :
    List (Node Unit × Node Unit) → Run (List (Entry Value))
  | [] => return entries
  | (k, v) :: rest => do
    let key ← ev k scope
    if !key.hashable then fail (.unusableKey key.type)
    let value ← ev v scope
    mapEntries ev scope (putEntry (← keyOf key) key value entries) rest

/-- Statements one after the other. The result is that of the last one, or `result` if there is
none. -/
def blockBody (ev : Evaluator) (scope : Nat) (result : Value) : List (Node Unit) → Run Value
  | [] => return result
  | n :: rest => do
    let v ← ev n scope
    blockBody ev scope v rest

/-- What comes of an evaluation: its own value, or, as an `error`, the one that it returned. -/
def outcome (r : Run Value) : Run (Except Value Value) :=
  tryCatch (do return .ok (← r)) fun
    | .returning v => return .error v
    | stop => throw stop

/-- The statements of a program, up to one that returned. -/
def programBody (ev : Evaluator) (scope : Nat) (result : Value) : List (Node Unit) → Run Value
  | [] => return result
  | n :: rest => do
    match ← outcome (ev n scope) with
    | .ok v => programBody ev scope v rest
    | .error v => return v

/-- Calls a function. Only functions of the program evaluate anything. -/
def applyFunction (cfg : Config) (ev : Evaluator) (f : Value) (args : List Value) : Run Value := do
  match f with
  | .function _ params body scope =>
    if args.length ≠ params.length then fail (.wrongArgCount params.length args.length)
    let inner ← newScope (some scope)
    bindParams inner params args
    note cfg 3 (.called f args)
    match ← outcome (ev body inner) with
    | .ok v => return v
    | .error v => return v
  | f => SepiaLang.applyFunction cfg ev f args

/-- A binary operation. The right operand is evaluated first. -/
def binary (cfg : Config) (ev : Evaluator) (scope : Nat) (text : String) (left right : Node Unit) :
    Run Value := do
  let r ← ev right scope
  let l ← ev left scope
  let result ← applyBinary text l r
  if ((BinaryOp.ofText? text).map (·.assigns)).getD false then
    match left with
    | .identifier _ name => assign cfg scope name result
    | target => fail (.badTarget (← textOrStop target.shown?))
  return result

/-- A choice. -/
def conditional (cfg : Config) (ev : Evaluator) (scope : Nat)
    (condition consequence alternative : Node Unit) : Run Value := do
  let c ← ev condition scope
  note cfg 3 (.tested c)
  if c.truthy then ev consequence scope
  else
    match alternative with
    | .absent => return .null
    | alternative => ev alternative scope

/-- The value of a node, given how to evaluate its parts. A `return` stops the evaluation. -/
def layer (cfg : Config) (ev : Evaluator) : Evaluator
  | .absent, _ => fail (.unknownNode (Node.absent : Node Unit).form)
  | .program body, scope => programBody ev scope .null body
  | .block _ body, scope => blockBody ev scope .null body
  | .expressionStmt _ e, scope => ev e scope
  | .valueStmt _ name e, scope => do
    let v ← ev e scope
    bindName scope name.text v
    note cfg 2 (.bound name.text v)
    return .null
  | .updateStmt _ name e, scope => do
    let v ← ev e scope
    assign cfg scope name.text v
    return .null
  | .returnStmt _ e, scope => do
    let v ← ev e scope
    throw (.returning v)
  | .integer _ n, _ => return .integer n
  | .boolean _ b, _ => return .boolean b
  | .string _ text, _ => newString text
  | .identifier _ name, scope => lookUp cfg scope name
  | .unary _ text e, scope => do
    let v ← ev e scope
    applyUnary cfg scope text e v
  | .binary _ text l r, scope => binary cfg ev scope text l r
  | .conditional _ c t e, scope => conditional cfg ev scope c t e
  | .function _ params body, scope => return .function (← freshId) (params.map (·.text)) body scope
  | .call _ f args, scope => do
    let callee ← ev f scope
    let values ← values ev scope args
    applyFunction cfg ev callee values
  | .array _ es, scope => do
    newArray (← values ev scope es)
  | .index _ l i, scope => do
    let left ← ev l scope
    let place ← ev i scope
    subscript left place
  | .map _ ps, scope => do
    newMap (← mapEntries ev scope [] ps)

/-- The value of a tree in a scope, with at most so many evaluations nested in each other. -/
def eval (cfg : Config) : Nat → Evaluator
  | 0 => fun _ _ => throw .tooDeep
  | depth + 1 => layer cfg (eval cfg depth)

/-- Runs a program in a scope with a bound on nested evaluations. -/
def runWithin (cfg : Config) (limit : Nat) (program : Node Unit) (scope : Nat) : Run Value := do
  note cfg 1 .running
  let result ← catchError (eval cfg limit program scope)
  note cfg 1 (.finished result)
  return result

end SingleExit

open SepiaLang.Computation

variable {bad : ValueType → Prop}

/-! ## Handing over -/

/-- A result that is on its way out stops the evaluation instead. -/
def handOver (r : Run Value) : Run Value := do
  match ← r with
  | .returned v => throw (.returning v)
  | v => return v

theorem operand_eq_handOver (ev : Evaluator) (n : Node Unit) (scope : Nat) :
    operand ev n scope = handOver (ev n scope) := rfl

/-- Nothing is handed over where no result is marked. -/
theorem handOver_of_spares (hb : Inner bad) {m : Run Value} (hm : Spares bad (Value.Free bad) m) :
    EqOn (Store.Free bad) (handOver m) m := by
  have key : EqOn (Store.Free bad) (handOver m) (m >>= pure) := by
    refine EqOn.bind (EqOn.refl m) hm fun v hv => ?_
    split
    · exact absurd rfl (hb.ne_returned hv _)
    · exact EqOn.refl _
  rwa [bind_pure] at key

/-- What is handed over by a sequence is what its last step hands over. -/
theorem handOver_bind {α : Type} {V : α → Prop} {m m' : Run α} {f f' : α → Run Value}
    (h : EqOn (Store.Free bad) m m') (hm : Spares bad V m)
    (hf : ∀ a, V a → EqOn (Store.Free bad) (handOver (f a)) (f' a)) :
    EqOn (Store.Free bad) (handOver (m >>= f)) (m' >>= f') := by
  have key : handOver (m >>= f) = m >>= fun a => handOver (f a) := bind_assoc m f _
  rw [key]
  exact EqOn.bind h hm hf

/-! ## Parts of a node -/

section Parts

variable {ev ev' : Evaluator} (hev : ev.Spares bad)
  (heq : ∀ n scope, EqOn (Store.Free bad) (operand ev n scope) (ev' n scope)) (scope : Nat)
include hev heq

theorem operands_eqOn (ns : List (Node Unit)) :
    EqOn (Store.Free bad) (operands ev scope ns) (SingleExit.values ev' scope ns) := by
  induction ns with
  | nil => exact EqOn.refl _
  | cons n ns ih =>
    refine EqOn.bind (heq n scope) (spares_operand hev scope n) fun v _ => ?_
    exact EqOn.bind ih (spares_operands hev scope ns) fun vs _ => EqOn.refl _

theorem mapEntries_eqOn : ∀ (pairs : List (Node Unit × Node Unit)) (entries : List (Entry Value)),
    EqOn (Store.Free bad) (mapEntries ev scope entries pairs)
      (SingleExit.mapEntries ev' scope entries pairs)
  | [], _ => EqOn.refl _
  | (k, v) :: pairs, entries => by
    refine EqOn.bind (heq k scope) (spares_operand hev scope k) fun key _ => ?_
    dsimp only
    split
    · exact EqOn.bind (EqOn.refl _) (spares_fail (V := fun _ => False) _) nofun
    · refine EqOn.bind (heq v scope) (spares_operand hev scope v) fun value _ => ?_
      exact EqOn.bind (EqOn.refl _) (spares_keyOf key) fun i _ => mapEntries_eqOn pairs _

/-- A part that is not used, before a continuation that passes a marked result on. -/
theorem bind_eqOn (n : Node Unit) {f f' : Value → Run Value}
    (hreturned : ∀ w, f (.returned w) = throw (.returning w))
    (hf : ∀ v, (∀ w, v ≠ .returned w) → v.Free bad → EqOn (Store.Free bad) (f v) (f' v)) :
    EqOn (Store.Free bad) (ev n scope >>= f) (ev' n scope >>= f') := by
  have split : EqOn (Store.Free bad) (ev n scope >>= f) (operand ev n scope >>= f') := by
    rw [operand_eq_handOver, handOver, bind_assoc]
    refine EqOn.bind (EqOn.refl _) (hev n scope) fun v hv => ?_
    split
    · next w =>
      rw [hreturned]
      exact EqOn.refl _
    · next h =>
      rw [settle_of_ne h] at hv
      exact hf v h hv
  exact split.trans
    (EqOn.bind (heq n scope) (spares_operand hev scope n) fun v _ => EqOn.refl _)

theorem handOver_blockBody (hb : Inner bad) : ∀ (ns : List (Node Unit)) {result : Value},
    result.Free bad → EqOn (Store.Free bad) (handOver (blockBody ev scope result ns))
      (SingleExit.blockBody ev' scope result ns)
  | [], _, h => handOver_of_spares hb (Keeps.pure h)
  | n :: ns, result, _ => by
    have key : handOver (blockBody ev scope result (n :: ns)) = ev n scope >>= fun v => handOver
        (match v with
          | .returned v => return .returned v
          | v => blockBody ev scope v ns) := bind_assoc _ _ _
    rw [key]
    refine bind_eqOn hev heq scope n (fun w => rfl) fun v hv hfree => ?_
    split
    · exact absurd rfl (hv _)
    · exact handOver_blockBody hb ns hfree

/-- A part whose return is taken. The value that it returns is marked for one evaluator and an
outcome of its own for the other. -/
theorem catchReturn_eqOn (n : Node Unit) {f : Value → Run Value} {f' : Except Value Value → Run Value}
    (hreturned : ∀ w, w.Free bad → EqOn (Store.Free bad) (f (.returned w)) (f' (.error w)))
    (hf : ∀ v, (∀ w, v ≠ .returned w) → v.Free bad → EqOn (Store.Free bad) (f v) (f' (.ok v))) :
    EqOn (Store.Free bad) (catchReturn (ev n scope) >>= f)
      (SingleExit.outcome (ev' n scope) >>= f') := by
  intro s hs
  have hs' := hev n scope s hs
  have hev' := heq n scope s hs
  rw [operand_eq_handOver, handOver, bind_apply] at hev'
  rw [bind_apply, catchReturn, tryCatch_apply, bind_apply, SingleExit.outcome, tryCatch_apply,
    bind_apply, ← hev']
  rcases hr : ev n scope s with ⟨stop | v, s'⟩
  · rw [hr] at hs'
    cases stop with
    | returning w => exact hreturned w hs'.2 s' hs'.1
    | failed | tooDeep | fault => rfl
  · rw [hr] at hs'
    by_cases h : ∃ w, v = .returned w
    · obtain ⟨w, rfl⟩ := h
      exact hreturned w hs'.2 s' hs'.1
    · have hv : ∀ w, v ≠ .returned w := fun w e => h ⟨w, e⟩
      have hfree : v.Free bad := by simpa only [settle_of_ne hv] using hs'.2
      have := hf v hv hfree s' hs'.1
      cases v with
      | returned w => exact absurd rfl (hv w)
      | _ => exact this

theorem programBody_eqOn : ∀ (ns : List (Node Unit)) (result : Value),
    EqOn (Store.Free bad) (programBody ev scope result ns)
      (SingleExit.programBody ev' scope result ns)
  | [], _ => EqOn.refl _
  | n :: ns, _ => by
    refine catchReturn_eqOn hev heq scope n (fun w _ => EqOn.refl _) fun v hv _ => ?_
    split
    · exact absurd rfl (hv _)
    · exact programBody_eqOn ns _

theorem applyFunction_eqOn (cfg : Config) (f : Value) {args : List Value}
    (hargs : ∀ v ∈ args, v.Free bad) :
    EqOn (Store.Free bad) (applyFunction cfg ev f args) (SingleExit.applyFunction cfg ev' f args) := by
  cases f with
  | function id params body scope =>
    unfold applyFunction SingleExit.applyFunction
    dsimp only
    split
    · exact EqOn.bind (EqOn.refl _) (spares_fail (V := fun _ => False) _) nofun
    · refine EqOn.bind (EqOn.refl _) (spares_newScope _) fun inner _ => ?_
      refine EqOn.bind (EqOn.refl _) (spares_bindParams inner params args hargs) fun _ _ => ?_
      refine EqOn.bind (EqOn.refl _) (spares_note cfg 3 _) fun _ _ => ?_
      refine catchReturn_eqOn hev heq inner body (fun w _ => EqOn.refl _) fun v hv _ => ?_
      rw [settle_of_ne hv]
      exact EqOn.refl _
  | native name | integer | boolean | null | string | array | map | returned | error =>
    exact EqOn.refl _

end Parts

/-! ## Nodes and programs -/

section Nodes

variable {cfg : Config} (hb : Inner bad) (hn : cfg.natives.Spares bad)
include hb hn

/-- **A node hands over as it would return by a single exit**, if its parts do. -/
theorem handOver_layer {ev ev' : Evaluator} (hev : ev.Spares bad)
    (heq : ∀ n scope, EqOn (Store.Free bad) (operand ev n scope) (ev' n scope)) (n : Node Unit)
    (scope : Nat) :
    EqOn (Store.Free bad) (handOver (layer cfg ev n scope)) (SingleExit.layer cfg ev' n scope) := by
  have plain {m : Run Value} (hm : Spares bad (Value.Free bad) m) :
      EqOn (Store.Free bad) (handOver m) m := handOver_of_spares hb hm
  have null : Value.null.Free bad := hb.free_of_atomic rfl
  have used (n : Node Unit) := spares_operand hev scope n
  cases n with
  | absent => exact plain (spares_fail _)
  | program body =>
    exact (plain (spares_programBody hev scope body null)).trans
      (programBody_eqOn hev heq scope body .null)
  | block _ body => exact handOver_blockBody hev heq scope hb body null
  | expressionStmt _ e => exact heq e scope
  | valueStmt _ name e =>
    refine handOver_bind (heq e scope) (used e) fun v hv => plain ?_
    refine Keeps.bind (spares_bindName scope name.text hv) fun _ _ => ?_
    exact Keeps.bind (spares_note cfg 2 _) fun _ _ => Keeps.pure null
  | updateStmt _ name e =>
    refine handOver_bind (heq e scope) (used e) fun v hv => plain ?_
    exact Keeps.bind (spares_assign cfg scope name.text hv) fun _ _ => Keeps.pure null
  | returnStmt _ e =>
    -- the mark is put on and handed over at once
    exact handOver_bind (heq e scope) (used e) fun v _ => EqOn.refl _
  | integer _ n => exact plain (Keeps.pure (hb.free_of_atomic rfl))
  | boolean _ b => exact plain (Keeps.pure (hb.free_of_atomic rfl))
  | string _ text => exact plain (spares_newString hb text)
  | identifier _ name => exact plain (spares_lookUp hb cfg scope name)
  | unary _ text e =>
    exact handOver_bind (heq e scope) (used e) fun v _ =>
      plain (spares_applyUnary hb cfg scope text e v)
  | binary _ text l r =>
    refine (plain (spares_binary hb hev scope text l r)).trans ?_
    refine EqOn.bind (heq r scope) (used r) fun _ _ => ?_
    exact EqOn.bind (heq l scope) (used l) fun _ _ => EqOn.refl _
  | conditional _ c t e =>
    refine handOver_bind (heq c scope) (used c) fun v _ => ?_
    refine handOver_bind (EqOn.refl _) (spares_note cfg 3 _) fun _ _ => ?_
    -- the branches are not used here, so that their marked results are handed over now
    split
    · exact heq t scope
    · cases e with
      | absent => exact plain (Keeps.pure null)
      | _ => exact heq _ scope
  | function _ params body =>
    exact plain (Keeps.bind spares_freshId fun _ _ => Keeps.pure (hb.free_of_atomic rfl))
  | call _ f args =>
    refine handOver_bind (heq f scope) (used f) fun callee _ => ?_
    refine handOver_bind (operands_eqOn hev heq scope args) (spares_operands hev scope args)
      fun values hvalues => ?_
    exact (plain (spares_applyFunction hev hn callee hvalues)).trans
      (applyFunction_eqOn hev heq cfg callee hvalues)
  | array _ es =>
    exact handOver_bind (operands_eqOn hev heq scope es) (spares_operands hev scope es)
      fun values hvalues => plain (spares_newArray hb hvalues)
  | index _ l i =>
    refine handOver_bind (heq l scope) (used l) fun left hl => ?_
    exact handOver_bind (heq i scope) (used i) fun _ _ => plain (spares_subscript hb hl)
  | map _ ps =>
    exact handOver_bind (mapEntries_eqOn hev heq scope ps []) (spares_mapEntries hev scope ps [] nofun)
      fun entries he => plain (spares_newMap hb he)

/-- **Evaluation for use is evaluation with a single exit**, at every depth of nesting. -/
theorem handOver_eval : ∀ depth n scope,
    EqOn (Store.Free bad) (operand (eval cfg depth) n scope) (SingleExit.eval cfg depth n scope)
  | 0, _, _ => EqOn.refl _
  | depth + 1, n, scope =>
    handOver_layer hb hn (eval_spares hb hn depth) (handOver_eval depth) n scope

/-- A program evaluates the same in both evaluators: its value is never marked. -/
theorem eval_program_eqOn (limit : Nat) (body : List (Node Unit)) (scope : Nat) :
    EqOn (Store.Free bad) (eval cfg limit (.program body) scope)
      (SingleExit.eval cfg limit (.program body) scope) := fun s hs =>
  (handOver_of_spares hb (eval_program_spares hb hn limit body scope) s hs).symm.trans
    (handOver_eval hb hn limit (.program body) scope s hs)

end Nodes

/-- **Returning by marks and stops is returning by a single exit.** A program run in a store that
holds no value on its way out, with native functions that never give one back, neither alone nor
inside an array or a map, has the same result in both evaluators and leaves the same store: the same
bindings in every scope and the same output. -/
theorem runWithin_eq_singleExit (cfg : Config) (hn : cfg.natives.Spares (· = .returned))
    (limit : Nat) (body : List (Node Unit)) (scope : Nat) (s : Store)
    (hs : ∀ v : Value, s.Holds v → v.type ≠ .returned) :
    runWithin cfg limit (.program body) scope s =
      SingleExit.runWithin cfg limit (.program body) scope s := by
  have hfree : s.Free (· = .returned) := hs
  have heval := eval_program_eqOn inner_returned hn limit body scope
  refine EqOn.bind (EqOn.refl _) (spares_note cfg 1 .running) (fun _ _ => ?_) s hfree
  intro s₁ hs₁
  rw [bind_apply, bind_apply, catchError, catchError, tryCatch_apply, tryCatch_apply,
    heval s₁ hs₁]

/-- A call that returns from inside an operand: both evaluators skip the sum. -/
theorem runWithin_eq_singleExit_operand :
    let body := [.call () (.function () [] (.block () [.expressionStmt () (.binary () "+"
      (.integer () 1) (.conditional () (.boolean () true) (.block () [.returnStmt () (.integer () 5)])
        .absent))])) []]
    standard.Spares (· = .returned) ∧
      (∀ v : Value, (Store.start false).Holds v → v.type ≠ .returned) ∧
      runWithin {} 9 (.program body) 0 (Store.start false) =
        SingleExit.runWithin {} 9 (.program body) 0 (Store.start false) ∧
      ((SingleExit.runWithin {} 9 (.program body) 0 (Store.start false)).1.toOption).map (·.inspect) =
        some "5" := by
  intro body
  have hn := standard_spares inner_returned
  have hs : ∀ v : Value, (Store.start false).Holds v → v.type ≠ .returned :=
    fun v h => absurd h (holds_start false v)
  exact ⟨hn, hs, runWithin_eq_singleExit {} hn 9 body 0 (Store.start false) hs, rfl⟩

/-- It matters that a native function does not give back a value on its way out inside another one either. One
that gives back an array with such a value for an element never gives back the value itself, but the program
`f()[0] + 1` returns the element, since it is used, while with a single exit the sum is formed and fails. An
array of this sort that a name is bound to does the same. -/
theorem runWithin_ne_singleExit_element :
    let cfg : Config := { natives := [("f", ⟨some 0, fun _ => newArray [.returned (.integer 5)]⟩)] }
    let s : Store := { scopes := #[{ bindings := [("a", .array 0 [.returned (.integer 5)])] }], nextId := 1 }
    let sum (array : Node Unit) : Node Unit :=
      .program [.expressionStmt () (.binary () "+" (.index () array (.integer () 0)) (.integer () 1))]
    let called := sum (.call () (.identifier () "f") [])
    let named := sum (.identifier () "a")
    let shown (result : Except Stop Value × Store) : Option String := result.1.toOption.map (·.inspect)
    ((∀ entry ∈ cfg.natives, ∀ args s v s', entry.2.call args s = (.ok v, s') → v.type ≠ .returned) ∧
      (∀ v : Value, (Store.start false).Holds v → v.type ≠ .returned) ∧
      shown (runWithin cfg 9 called 0 (Store.start false)) = some "5" ∧
      shown (SingleExit.runWithin cfg 9 called 0 (Store.start false)) =
        some "ERROR: type mismatch: RETURN_VALUE + INTEGER") ∧
    (∀ scope ∈ s.scopes.toList, ∀ b ∈ scope.bindings, b.2.type ≠ .returned) ∧
    shown (runWithin {} 9 named 0 s) = some "5" ∧
    shown (SingleExit.runWithin {} 9 named 0 s) = some "ERROR: type mismatch: RETURN_VALUE + INTEGER" := by
  intro cfg s sum called named shown
  refine ⟨⟨?_, fun v h => absurd h (holds_start false v), ?_, ?_⟩, ?_, ?_, ?_⟩
  · intro entry hentry args s v s' hcall
    obtain rfl := List.mem_singleton.1 hentry
    cases hcall
    nofun
  · with_unfolding_all rfl
  · with_unfolding_all rfl
  · simp [s, Value.type]
  · with_unfolding_all rfl
  · with_unfolding_all rfl

end SepiaLang
