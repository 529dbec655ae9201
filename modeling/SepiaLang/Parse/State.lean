import SepiaLang.Parse.Problem
import SepiaLang.Parse.Trace

/-!
# The state of reading

Tokens are read through a window of two: the current one and the one ahead. When the tokens run out
the window is filled up with the last `eof` that was seen, so that it can always move on.

A reader of a phrase, `Reader α`, leaves the window on the last token of the phrase. It may give up
(`Halt.rejected`), after it has recorded what is wrong, or be stopped because expressions are nested
too deeply (`Halt.tooDeep`). The state survives either way.

* `State.consume`: the window moves on by one token.
* `expect`: the token ahead must be of a given kind.
* `traced`: records when a phrase is begun and left.
* `attempt`: a reader that gives up yields `none`.
-/

namespace SepiaLang.Parse

/-- Where the reading of a program stands. The tokens in `rest` have not come into the window yet,
and `ending` fills it up after the last one; `depth` counts the recorded phrases that are open. -/
structure State where
  current : Token
  ahead : Token
  rest : List Token
  ending : Token
  problems : Array Problem := #[]
  depth : Nat := 0
  trace : Array TraceLine := #[]
  deriving Repr

/-- Why there is no phrase: it was given up, and the problem is recorded, or expressions are nested
too deeply. -/
inductive Halt where
  | rejected
  | tooDeep
  deriving DecidableEq, Repr

/-- A reader of a phrase with the result `α`. -/
abbrev Reader (α : Type) := ExceptT Halt (StateM State) α

namespace State

/-- The window moves on by one token. -/
def consume (s : State) : State :=
  match s.rest with
  | [] => { s with current := s.ahead, ahead := s.ending }
  | t :: rest =>
    { s with current := s.ahead, ahead := t, rest
             ending := if t.kind = .eof then t else s.ending }

/-- The window on the first two tokens of a list. -/
def start (tokens : List Token) : State :=
  let ending : Token := { kind := .eof, literal := "" }
  ({ current := ending, ahead := ending, rest := tokens, ending } : State).consume.consume

/-- A bound on how often the window can move until it holds nothing but `ending`. -/
def budget (s : State) : Nat := s.rest.length + 2

/-- Records a problem. -/
def report (s : State) (p : Problem) : State := { s with problems := s.problems.push p }

/-- A phrase is begun on the current token. -/
def enter (s : State) (phrase : Phrase) : State :=
  { s with depth := s.depth + 1, trace := s.trace.push (.enter s.depth phrase s.current) }

/-- A phrase is left. -/
def leave (s : State) (phrase : Phrase) : State :=
  { s with depth := s.depth - 1, trace := s.trace.push (.leave (s.depth - 1) phrase) }

end State

/-- Moves the window on. -/
def consume : Reader Unit := modify State.consume

/-- The current token. -/
def current : Reader Token := return (← get).current

/-- The token ahead. -/
def ahead : Reader Token := return (← get).ahead

/-- A bound on the rounds of a loop that moves the window in every round. -/
def budget : Reader Nat := return (← get).budget

/-- Records a problem and goes on. -/
def report (p : Problem) : Reader Unit := modify (·.report p)

/-- Records a problem and gives up. -/
def reject {α : Type} (p : Problem) : Reader α := do
  report p
  throw .rejected

/-- Moves on to the token ahead, which must be of the kind `wanted`. -/
def expect (wanted : Kind) : Reader Unit := do
  let found ← ahead
  if found.kind = wanted then consume else reject (.expected wanted found)

/-- Moves on to the token ahead if it is of the given kind. -/
def skip (kind : Kind) : Reader Unit := do
  if (← ahead).kind = kind then consume

/-- Runs a reader and records when its phrase is begun and left, whatever comes of it. -/
def traced {α : Type} (phrase : Phrase) (r : Reader α) : Reader α := fun s =>
  let (result, s') := r (s.enter phrase)
  (result, s'.leave phrase)

/-- A reader that gives up yields `none`. -/
def attempt {α : Type} (r : Reader α) : Reader (Option α) := fun s =>
  match r s with
  | (.ok a, s') => (.ok (some a), s')
  | (.error .rejected, s') => (.ok none, s')
  | (.error .tooDeep, s') => (.error .tooDeep, s')

end SepiaLang.Parse
