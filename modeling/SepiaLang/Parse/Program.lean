import SepiaLang.Parse.Phrases
import SepiaLang.Token.Scan

/-!
# Programs from tokens

A program is read statement by statement. A statement with a problem is dropped, and reading goes on
with the next token. Where expressions are nested too deeply, reading stops: the statements that
were finished and the problems that were found stay.

* `Parsed`: a program, its problems and the trace of reading it.
* `parse`, `parseSource`: programs from tokens and from source text.
-/

namespace SepiaLang

/-- What reading a list of tokens gives: the statements that were read to their end, the problems,
and the trace. The program should run only if there are no problems. -/
structure Parsed where
  body : List (Node Token)
  problems : List Problem
  trace : List TraceLine
  deriving Repr

/-- The tree of the whole program. -/
def Parsed.program (p : Parsed) : Node Token := .program p.body

namespace Parse

/-- How deeply expressions may be nested. -/
def nestingLimit : Nat := 300

/-- The statements up to the end of the tokens. -/
def programBody (sub : Sub) : Nat → StateM State (List (Node Token))
  | 0 => pure []
  | n + 1 => do
    if (← get).current.kind = .eof then return []
    else
      match ← (statement sub).run with
      | .ok stmt =>
        modify State.consume
        return stmt :: (← programBody sub n)
      | .error .rejected =>
        modify State.consume
        programBody sub n
      | .error .tooDeep =>
        modify (·.report .tooDeep)
        return []

/-- Reads a program with a bound on how deeply expressions are nested. -/
def program (limit : Nat) (tokens : List Token) : Parsed :=
  let start := State.start tokens
  let (body, final) := programBody (expression limit) start.budget start
  { body, problems := final.problems.toList, trace := final.trace.toList }

end Parse

/-- Reads a program from a list of tokens. -/
def parse (tokens : List Token) : Parsed := Parse.program Parse.nestingLimit tokens

/-- Reads a program from source text. -/
def parseSource (source : String) : Parsed := parse (scan source)

end SepiaLang
