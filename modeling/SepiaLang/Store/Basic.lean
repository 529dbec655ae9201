import SepiaLang.Store.Log
import SepiaLang.Store.Scope

/-!
# Stores

All that evaluation changes: the scopes, the identities given out so far, what was printed, and the
log.

* `Store.start`: one scope without a parent, which is number `globalScope`.
* `Store.print`, `Store.write`: a line of output, an entry of the log.
-/

namespace SepiaLang

/-- The state of an interpreter: its scopes, the next identity that is free, the lines printed so
far and the log. -/
structure Store where
  scopes : Scopes := #[]
  nextId : Nat := 0
  output : Array String := #[]
  log : Log := {}

/-- The number of the scope that programs run in. -/
def globalScope : Nat := 0

namespace Store

/-- A store with the global scope alone. -/
def start (logging : Bool) : Store := { scopes := #[{}], log := { isOpen := logging } }

/-- Prints a line. -/
def print (s : Store) (line : String) : Store := { s with output := s.output.push line }

/-- Adds an entry to the log. Once the log is closed, the entry is printed instead. -/
def write (s : Store) (entry : LogEntry) : Store :=
  if s.log.isOpen then { s with log := { s.log with entries := s.log.entries.push entry } }
  else s.print entry.render

/-- Closes the log. -/
def closeLog (s : Store) : Store := { s with log := { s.log with isOpen := false } }

/-- Adds a scope; the result is its number. -/
def addScope (s : Store) (parent : Option Nat) : Nat × Store :=
  (s.scopes.size, { s with scopes := s.scopes.add parent })

/-- The printed text, a line break after every line. -/
def outputText (s : Store) : String := String.join (s.output.toList.map (· ++ "\n"))

end Store

end SepiaLang
