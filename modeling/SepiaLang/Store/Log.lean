import SepiaLang.Parse.Trace
import SepiaLang.Value.Display

/-!
# Logs

What an interpreter writes down about its work, for the one who wants to follow it.

* `LogEntry.render`: the line of an entry, which is made if the entry `fits`.
* `Log`: the entries so far, and whether more can be written.
-/

namespace SepiaLang

/-- Something worth writing down: a step of reading a program, that one was read, that one is about
to run or has run, that a name was bound or bound anew, that a condition was tested, or that a
function or a native one is about to be called. -/
inductive LogEntry where
  | traced (line : TraceLine)
  | parsed (statements problems : Nat)
  | running
  | finished (result : Value)
  | bound (name : String) (value : Value)
  | updated (name : String) (value : Value)
  | tested (condition : Value)
  | called (function : Value) (args : List Value)
  | calledNative (function : Value)

/-- The line of an entry. -/
def LogEntry.render : LogEntry → String
  | traced line => line.render
  | parsed statements problems =>
    "parsed " ++ toString statements ++ " statements, " ++ toString problems ++ " errors"
  | running => "run program"
  | finished result => "result " ++ result.type.name ++ ": " ++ result.inspect
  | bound name value => "value " ++ name ++ " = " ++ value.inspect
  | updated name value => "update " ++ name ++ " = " ++ value.inspect
  | tested condition =>
    "if condition " ++ condition.inspect ++ " -> " ++ if condition.truthy then "True" else "False"
  | called function args =>
    "call " ++ function.inspect ++
      " with (" ++ String.intercalate ", " (args.map (·.inspect)) ++ ")"
  | calledNative function => "call " ++ function.inspect

/-- The values of an entry are not nested too deeply for its line to be made. -/
def LogEntry.fits (limit : Nat) : LogEntry → Bool
  | traced _ | parsed _ _ | running => true
  | finished v | bound _ v | updated _ v | tested v | calledNative v => v.fits limit
  | called function args => function.fits limit && args.all (·.fits limit)

/-- The entries written so far. Once a log is closed nothing is added. -/
structure Log where
  isOpen : Bool := false
  entries : Array LogEntry := #[]

/-- The text of a log, a line for every entry. -/
def Log.text (log : Log) : String := String.join (log.entries.toList.map (·.render ++ "\n"))

end SepiaLang
