import SepiaLang.Eval.Stop

/-!
# Native functions

Functions that every program can use without defining them. A name that the program binds itself
hides the native function of that name. How many arguments a function takes is checked before it is
called; called directly, it stops at the first argument that is missing.

* `Native`, `Registry`.
* `standard`: the native functions of the language.
-/

namespace SepiaLang

/-- A native function: how many arguments it takes, or any number, and what it does. -/
structure Native where
  arity : Option Nat
  call : List Value → Run Value

/-- The native functions that an interpreter knows, by name. -/
abbrev Registry := List (String × Native)

namespace Native

/-- The argument in place `i`. -/
def arg (args : List Value) (i : Nat) : Run Value :=
  match args[i]? with
  | some v => pure v
  | none => throw (.fault .missingArgument)

/-- The first argument, which must be an array. -/
def arrayArg (name : String) (args : List Value) : Run (List Value) := do
  match ← arg args 0 with
  | .array _ elements => return elements
  | v => fail (.badArgument name v.type)

/-- The number of characters, elements or entries. -/
def len (args : List Value) : Run Value := do
  match ← arg args 0 with
  | .string _ text => return .integer text.length
  | .array _ elements => return .integer elements.length
  | .map _ entries => return .integer entries.length
  | v => fail (.badArgument "len" v.type)

/-- Prints its arguments, each on a line. -/
def puts (args : List Value) : Run Value := do
  args.forM fun v => do
    let line ← textOrStop v.shown?
    modify (·.print line)
  return .null

/-- The first element of an array. -/
def first (args : List Value) : Run Value := do
  return (← arrayArg "first" args).head?.getD .null

/-- The last element of an array. -/
def last (args : List Value) : Run Value := do
  return (← arrayArg "last" args).getLast?.getD .null

/-- A new array without the first element. -/
def rest (args : List Value) : Run Value := do
  match ← arrayArg "rest" args with
  | [] => return .null
  | _ :: tail => newArray tail

/-- A new array with one more element at the end. -/
def push (args : List Value) : Run Value := do
  let elements ← arrayArg "push" args
  let v ← arg args 1
  newArray (elements ++ [v])

/-- The name of the type of a value. -/
def typeOf (args : List Value) : Run Value := do
  newString (← arg args 0).type.name

end Native

/-- The native functions of the language. -/
def standard : Registry :=
  [("len", ⟨some 1, Native.len⟩), ("puts", ⟨none, Native.puts⟩), ("first", ⟨some 1, Native.first⟩),
   ("last", ⟨some 1, Native.last⟩), ("rest", ⟨some 1, Native.rest⟩),
   ("push", ⟨some 2, Native.push⟩), ("type", ⟨some 1, Native.typeOf⟩)]

end SepiaLang
