import SepiaLang.Eval.Basic
import SepiaLang.Parse.Program

/-!
# Sessions

An interpreter keeps its store between programs. Reading and running a program are written to the
log, as far as the interpreter is set to.

* `Config.start`: the store of a new interpreter.
* `readSource`: reads a program.
* `Parsed.tree?`: the program to run, if there are no problems.
-/

namespace SepiaLang

/-- The store of a new interpreter. The log is open if anything is to be written. -/
def Config.start (cfg : Config) : Store := Store.start (0 < cfg.logLevel)

/-- Reads a program and writes about it to the log: that it was read on level one, and how on level
four. -/
def readSource (cfg : Config) (source : String) : Run Parsed := do
  let parsed := parseSource source
  parsed.trace.forM fun line => note cfg 4 (.traced line)
  note cfg 1 (.parsed parsed.body.length parsed.problems.length)
  return parsed

/-- The program to run, or its problems. -/
def Parsed.tree? (p : Parsed) : Except (List Problem) (Node Unit) :=
  if p.problems.isEmpty then .ok p.program.strip else .error p.problems

/-- The wording for a program with problems. -/
def parseFailure (problems : List Problem) : String :=
  "parse failed:\n" ++ String.intercalate "\n" (problems.map ("\t" ++ ·.message))

/-- The text printed since the last time it was taken. -/
def Store.takeOutput (s : Store) : String × Store := (s.outputText, { s with output := #[] })

end SepiaLang
