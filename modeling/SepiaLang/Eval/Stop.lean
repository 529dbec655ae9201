import SepiaLang.Store.Basic

/-!
# How an evaluation can stop

An evaluation has a value, or it stops early: because a value is on its way out of a function,
because something is wrong with the program, because evaluations or a value to be shown are nested
too deeply, or because an operation was used outside its domain, which no program can bring about.
The store survives every stop.

* `EvalError.message`, `Fault.message`: wordings.
* `Run`: computations that change the store and may stop.
-/

namespace SepiaLang

/-- What is wrong with a program that runs. There may be no node to evaluate (`unknownNode`); only
names can be assigned to (`badTarget`); a native function may be given a value of a type that it
cannot take (`badArgument`), or answer with an error of its own (`reported`). -/
inductive EvalError where
  | unknownNode (form : String)
  | unbound (name : String)
  | badTarget (text : String)
  | unknownUnary (operator : String) (operand : ValueType)
  | unknownBinary (left : ValueType) (operator : String) (right : ValueType)
  | typeMismatch (left : ValueType) (operator : String) (right : ValueType)
  | divisionByZero
  | wrongArgCount (wanted given : Nat)
  | notCallable (type : ValueType)
  | notIndexable (type : ValueType)
  | unusableKey (type : ValueType)
  | badArgument (function : String) (type : ValueType)
  | reported (message : String)
  deriving DecidableEq, Repr

/-- The wording of an error. -/
def EvalError.message : EvalError → String
  | unknownNode form => "unknown node type: " ++ form
  | unbound name => "identifier not found: " ++ name
  | badTarget text => "invalid assignment target: " ++ text
  | unknownUnary operator operand => "unknown operator: " ++ operator ++ operand.name
  | unknownBinary left operator right =>
    "unknown operator: " ++ left.name ++ " " ++ operator ++ " " ++ right.name
  | typeMismatch left operator right =>
    "type mismatch: " ++ left.name ++ " " ++ operator ++ " " ++ right.name
  | divisionByZero => "division by zero"
  | wrongArgCount wanted given =>
    "wrong number of arguments: want=" ++ toString wanted ++ ", got=" ++ toString given
  | notCallable type => "not a function: " ++ type.name
  | notIndexable type => "index operator not supported: " ++ type.name
  | unusableKey type => "unusable as map key: " ++ type.name
  | badArgument function type =>
    "argument to " ++ function ++ " not supported, got " ++ type.name
  | reported message => message

/-- An operation used outside its domain: a quotient by zero, the key of a value that has none, a
native function that was not given all its arguments, or an element that an array does not have. -/
inductive Fault where
  | divisionByZero
  | noKey (type : ValueType)
  | missingArgument
  | outOfRange
  deriving DecidableEq, Repr

/-- The wording of a fault. -/
def Fault.message : Fault → String
  | divisionByZero => "integer division or modulo by zero"
  | noKey type => "unusable as map key: " ++ type.name
  | missingArgument | outOfRange => "list index out of range"

/-- Why an evaluation stopped early. A value that is `returning` is on its way to the call it
returns from. -/
inductive Stop where
  | returning (value : Value)
  | failed (error : EvalError)
  | tooDeep
  | fault (fault : Fault)

/-- The wording of a stop that nothing has taken care of. -/
def Stop.message : Stop → String
  | returning _ => "return"
  | failed error => "SepiaError: " ++ error.message
  | tooDeep => "maximum recursion depth exceeded"
  | fault f => f.message

/-- A computation on the store that may stop. -/
abbrev Run (α : Type) := ExceptT Stop (StateM Store) α

/-- Stops with an error of the program. -/
def fail {α : Type} (e : EvalError) : Run α := throw (.failed e)

/-- The text of something that is shown, or a stop if it was nested too deeply to have one. -/
def textOrStop : Option String → Run String
  | some text => pure text
  | none => throw .tooDeep

/-- An identity that was not used before. -/
def freshId : Run Nat := do
  let s ← get
  set { s with nextId := s.nextId + 1 }
  return s.nextId

/-- A new string. -/
def newString (text : String) : Run Value := return .string (← freshId) text

/-- A new array. -/
def newArray (elements : List Value) : Run Value := return .array (← freshId) elements

/-- A new map. -/
def newMap (entries : List (Entry Value)) : Run Value := return .map (← freshId) entries

/-- A new error value. -/
def newError (message : String) : Run Value := return .error (← freshId) message

/-- A new scope. -/
def newScope (parent : Option Nat) : Run Nat := modifyGet (·.addScope parent)

/-- Binds a name in a scope. -/
def bindName (scope : Nat) (name : String) (value : Value) : Run Unit :=
  modify fun s => { s with scopes := s.scopes.set scope name value }

end SepiaLang
