import SepiaLang.Eval.Native
import SepiaLang.Eval.Operator
import SepiaLang.Value.Key

/-!
# Evaluation

The value of a tree in a scope. A `return` makes a value that is on its way out, `Value.returned`;
blocks pass it on, and a call or the program takes it as its result. Where such a value would be
used as an operand, the evaluation stops with it instead.

Evaluation is given in one layer, `layer`, which is told how to evaluate the parts of a node, and
tied together in `eval` with a bound on how deeply evaluations are nested.

* `operand`: the value of a part that is used.
* `applyFunction`: calls.
* `layer`, **`eval`**: the value of a tree.
* `run`: a whole program, with its error as its result.
-/

namespace SepiaLang

/-- What an interpreter is set to: how much it writes down, and the native functions it knows. -/
structure Config where
  logLevel : Nat := 0
  natives : Registry := standard

/-- Evaluates the parts of a node in a scope. -/
abbrev Evaluator := Node Unit → Nat → Run Value

/-- Writes an entry to the log if the interpreter is set to write entries of this level. -/
def note (cfg : Config) (level : Nat) (entry : LogEntry) : Run Unit := do
  if level ≤ cfg.logLevel then
    if entry.fits displayLimit then modify (·.write entry) else throw .tooDeep

/-! ## Parts of a node -/

/-- A part whose value is used. A value on its way out stops the evaluation instead. -/
def operand (ev : Evaluator) (n : Node Unit) (scope : Nat) : Run Value := do
  match ← ev n scope with
  | .returned v => throw (.returning v)
  | v => return v

/-- Parts whose values are used, from left to right. -/
def operands (ev : Evaluator) (scope : Nat) : List (Node Unit) → Run (List Value)
  | [] => return []
  | n :: rest => do
    let v ← operand ev n scope
    return v :: (← operands ev scope rest)

/-- The key of a value, which must have one. -/
def keyOf (v : Value) : Run Key :=
  match v.key? with
  | some k => pure k
  | none => throw (.fault (.noKey v.type))

/-- The entries of a map literal, from left to right, added to those before. -/
def mapEntries (ev : Evaluator) (scope : Nat) (entries : List (Entry Value)) :
    List (Node Unit × Node Unit) → Run (List (Entry Value))
  | [] => return entries
  | (k, v) :: rest => do
    let key ← operand ev k scope
    if !key.hashable then fail (.unusableKey key.type)
    let value ← operand ev v scope
    mapEntries ev scope (putEntry (← keyOf key) key value entries) rest

/-- Statements one after the other, up to a value on its way out. The result is that of the last
one, or `result` if there is none. -/
def blockBody (ev : Evaluator) (scope : Nat) (result : Value) : List (Node Unit) → Run Value
  | [] => return result
  | n :: rest => do
    match ← ev n scope with
    | .returned v => return .returned v
    | v => blockBody ev scope v rest

/-- An evaluation that stops with a value on its way out has that value as its result. -/
def catchReturn (r : Run Value) : Run Value :=
  tryCatch r fun
    | .returning v => return .returned v
    | stop => throw stop

/-- The value without the mark that it is on its way out. -/
def settle : Value → Value
  | .returned v => v
  | v => v

/-- The statements of a program, up to a value on its way out, which is the result. -/
def programBody (ev : Evaluator) (scope : Nat) (result : Value) : List (Node Unit) → Run Value
  | [] => return result
  | n :: rest => do
    match ← catchReturn (ev n scope) with
    | .returned v => return v
    | v => programBody ev scope v rest

/-! ## Names, operators, calls and subscripts -/

/-- Binds a name anew where it is bound. -/
def assign (cfg : Config) (scope : Nat) (name : String) (value : Value) : Run Unit := do
  let s ← get
  match s.scopes.update? scope name value with
  | some scopes =>
    set { s with scopes }
    note cfg 2 (.updated name value)
  | none => fail (.unbound name)

/-- The value of a name: what it is bound to, or the native function of that name. -/
def lookUp (cfg : Config) (scope : Nat) (name : String) : Run Value := do
  match (← get).scopes.get? scope name with
  | some v => return v
  | none => if (cfg.natives.lookup name).isSome then return .native name else fail (.unbound name)

/-- An operator applied to the value of the operand `target`. A step is assigned if the operand is a
name. -/
def applyUnary (cfg : Config) (scope : Nat) (text : String) (target : Node Unit) (v : Value) :
    Run Value :=
  match UnaryOp.ofText? text, v with
  | some .not, v => return .boolean (!v.truthy)
  | some .negate, .integer n => return .integer (Word64.wrap (-n))
  | some (.step amount), .integer n => do
    let result := .integer (Word64.wrap (n + amount))
    if let .identifier _ name := target then assign cfg scope name result
    return result
  | _, v => fail (.unknownUnary text v.type)

/-- Binds parameters to arguments, from left to right. -/
def bindParams (scope : Nat) : List String → List Value → Run Unit
  | p :: ps, v :: vs => do
    bindName scope p v
    bindParams scope ps vs
  | _, _ => return ()

/-- Calls a native function. An error among its results stops the evaluation. -/
def callNative (cfg : Config) (f : Value) (native : Native) (args : List Value) : Run Value := do
  note cfg 3 (.calledNative f)
  match ← native.call args with
  | .error _ message => fail (.reported message)
  | v => return v

/-- Calls a function. The parameters are bound in a new scope inside the one that the function was
made in. -/
def applyFunction (cfg : Config) (ev : Evaluator) (f : Value) (args : List Value) : Run Value := do
  match f with
  | .function _ params body scope =>
    if args.length ≠ params.length then fail (.wrongArgCount params.length args.length)
    let inner ← newScope (some scope)
    bindParams inner params args
    note cfg 3 (.called f args)
    return settle (← catchReturn (ev body inner))
  | .native name =>
    match cfg.natives.lookup name with
    | some native =>
      if let some arity := native.arity then
        if args.length ≠ arity then fail (.wrongArgCount arity args.length)
      callNative cfg f native args
    | none => fail (.notCallable .native)
  | v => fail (.notCallable v.type)

/-- The element in a place of an array, which must have so many. -/
def elementAt (elements : List Value) (i : Nat) : Run Value :=
  match elements[i]? with
  | some v => pure v
  | none => throw (.fault .outOfRange)

/-- The element of an array or the value in a map. Outside an array, and under a key that a map does
not have, there is `null`. -/
def subscript (left i : Value) : Run Value :=
  match left, i with
  | .array _ elements, .integer n =>
    if n < 0 ∨ elements.length ≤ n then return .null else elementAt elements n.toNat
  | .map _ entries, i => do
    if !i.hashable then fail (.unusableKey i.type)
    return (valueAt? (← keyOf i) entries).getD .null
  | left, _ => fail (.notIndexable left.type)

/-! ## Nodes -/

/-- A binary operation. The right operand is evaluated first. -/
def binary (cfg : Config) (ev : Evaluator) (scope : Nat) (text : String) (left right : Node Unit) :
    Run Value := do
  let r ← operand ev right scope
  let l ← operand ev left scope
  let result ← applyBinary text l r
  if ((BinaryOp.ofText? text).map (·.assigns)).getD false then
    match left with
    | .identifier _ name => assign cfg scope name result
    | target => fail (.badTarget (← textOrStop target.shown?))
  return result

/-- A choice. -/
def conditional (cfg : Config) (ev : Evaluator) (scope : Nat)
    (condition consequence alternative : Node Unit) : Run Value := do
  let c ← operand ev condition scope
  note cfg 3 (.tested c)
  if c.truthy then ev consequence scope
  else
    match alternative with
    | .absent => return .null
    | alternative => ev alternative scope

/-- The value of a node, given how to evaluate its parts. -/
def layer (cfg : Config) (ev : Evaluator) : Evaluator
  | .absent, _ => fail (.unknownNode (Node.absent : Node Unit).form)
  | .program body, scope => programBody ev scope .null body
  | .block _ body, scope => blockBody ev scope .null body
  | .expressionStmt _ e, scope => ev e scope
  | .valueStmt _ name e, scope => do
    let v ← operand ev e scope
    bindName scope name.text v
    note cfg 2 (.bound name.text v)
    return .null
  | .updateStmt _ name e, scope => do
    let v ← operand ev e scope
    assign cfg scope name.text v
    return .null
  | .returnStmt _ e, scope => return .returned (← operand ev e scope)
  | .integer _ n, _ => return .integer n
  | .boolean _ b, _ => return .boolean b
  | .string _ text, _ => newString text
  | .identifier _ name, scope => lookUp cfg scope name
  | .unary _ text e, scope => do
    let v ← operand ev e scope
    applyUnary cfg scope text e v
  | .binary _ text l r, scope => binary cfg ev scope text l r
  | .conditional _ c t e, scope => conditional cfg ev scope c t e
  | .function _ params body, scope => return .function (← freshId) (params.map (·.text)) body scope
  | .call _ f args, scope => do
    let callee ← operand ev f scope
    let values ← operands ev scope args
    applyFunction cfg ev callee values
  | .array _ es, scope => do
    newArray (← operands ev scope es)
  | .index _ l i, scope => do
    let left ← operand ev l scope
    let place ← operand ev i scope
    subscript left place
  | .map _ ps, scope => do
    newMap (← mapEntries ev scope [] ps)

/-- The value of a tree in a scope, with at most so many evaluations nested in each other. -/
def eval (cfg : Config) : Nat → Evaluator
  | 0 => fun _ _ => throw .tooDeep
  | depth + 1 => layer cfg (eval cfg depth)

/-! ## Programs -/

/-- How deeply evaluations may be nested. -/
def depthLimit : Nat := 500

/-- The error value of an evaluation that went wrong. -/
def catchError (r : Run Value) : Run Value :=
  tryCatch r fun
    | .failed e => newError e.message
    | .tooDeep => newError "maximum recursion depth exceeded"
    | stop => throw stop

/-- Runs a program in a scope with a bound on nested evaluations. An error is the result of the
program. -/
def runWithin (cfg : Config) (limit : Nat) (program : Node Unit) (scope : Nat) : Run Value := do
  note cfg 1 .running
  let result ← catchError (eval cfg limit program scope)
  note cfg 1 (.finished result)
  return result

/-- Runs a program in a scope. -/
def run (cfg : Config) (program : Node Unit) (scope : Nat) : Run Value :=
  runWithin cfg depthLimit program scope

end SepiaLang
