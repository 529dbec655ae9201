import SepiaLang.Session
import SepiaLang.Text.Numeral

/-!
# The shell

A dialogue in lines. A line is a command or a piece of a program. While a block is open the lines
are collected; once the program is complete it runs, and its result is printed. The names it bound
stay.

* `ShellCommand.ofLine`: what a line asks for.
* `Shell.enter`: a line of program text.
* **`Shell.step`**: any line.
* `Shell.transcript`: a whole dialogue.
-/

namespace SepiaLang

/-- What the shell asks for the first line of a program with. -/
def Shell.firstPrompt : String := ">> "

/-- What the shell asks for a line with while a block is open. -/
def Shell.openPrompt : String := ".. "

/-- A dialogue: the store, the lines of a program that is not complete yet, and what the shell asks for
the next line with. -/
structure Shell where
  store : Store
  pending : String := ""
  prompt : String := Shell.firstPrompt

/-- What a line asks for: nothing, to leave, to leave because there are no more lines, to explain a
topic or to list the commands, or to take the line as a piece of a program. -/
inductive ShellCommand where
  | nothing
  | leave
  | endOfInput
  | help (topic : String)
  | enter (line : String)
  deriving DecidableEq, Repr

/-- The characters that a command is made of. -/
def isCommandChar (c : Char) : Bool :=
  ('a' ≤ c && c ≤ 'z') || ('A' ≤ c && c ≤ 'Z') || ('0' ≤ c && c ≤ '9') || c == '_'

/-- The command that a line without blanks around it starts with. -/
def ShellCommand.ofStripped (line : String) : ShellCommand :=
  let word := String.ofList (line.toList.takeWhile isCommandChar)
  let rest := Text.strip (String.ofList (line.toList.dropWhile isCommandChar))
  if word = "exit" then .leave
  else if word = "EOF" then .endOfInput
  else if word = "help" then .help rest
  else .enter line

/-- What a line asks for. A question mark stands for `help`; an exclamation mark keeps the line from
being a command. -/
def ShellCommand.ofLine (line : String) : ShellCommand :=
  let stripped := Text.strip line
  match stripped.toList with
  | [] => .nothing
  | '?' :: rest => ofStripped (String.ofList ("help ".toList ++ rest))
  | '!' :: _ => .enter stripped
  | _ => ofStripped stripped

/-- The lines that explain a topic. -/
def helpLines (topic : String) : List String :=
  if topic = "" then
    ["", "Documented commands (type help <topic>):", "========================================",
     "EOF  exit  help", ""]
  else if topic = "exit" ∨ topic = "EOF" then ["Exits interpreter."]
  else if topic = "help" then
    ["List available commands with \"help\" or detailed help with \"help cmd\"."]
  else ["*** No help on " ++ topic]

namespace Shell

/-- The lines that open a dialogue. -/
def intro : List String := ["Sepia interpreter", "Type 'exit' or press Ctrl-D to leave."]

/-- Prints lines. -/
def print (sh : Shell) (lines : List String) : Shell :=
  { sh with store := lines.foldl Store.print sh.store }

/-- The problems are blocks without an end, and nothing else. -/
def isIncomplete (problems : List Problem) : Bool :=
  !problems.isEmpty && problems.all (·.isOpenBlock)

/-- Runs a program and prints its result, which must not be nested too deeply for it. -/
def runProgram (cfg : Config) (program : Node Unit) (sh : Shell) : Except Stop Unit × Shell :=
  match (run cfg program globalScope).run sh.store with
  | (.error stop, store) => (.error stop, { sh with store })
  | (.ok result, store) =>
    match result.shown? with
    | some line => (.ok (), ({ sh with store } : Shell).print [line])
    | none => (.error .tooDeep, { sh with store })

/-- A line of program text, after those that are pending. If a block is still open it is kept;
otherwise the whole is run, or its problems are printed and it is dropped. -/
def enter (cfg : Config) (line : String) (sh : Shell) : Except Stop Unit × Shell :=
  let source := sh.pending ++ line ++ "\n"
  let parsed := parseSource source
  if isIncomplete parsed.problems then
    (.ok (), { sh with pending := source, prompt := openPrompt })
  else
    let sh := { sh with pending := "", prompt := firstPrompt }
    match parsed.tree? with
    | .error problems => (.ok (), sh.print (problems.map ("\t" ++ ·.message)))
    | .ok program => sh.runProgram cfg program

/-- Answers a line. The result tells whether the dialogue ends, or why the line was given up. -/
def step (cfg : Config) (line : String) (sh : Shell) : Except Stop Bool × Shell :=
  match ShellCommand.ofLine line with
  | .nothing => (.ok false, sh)
  | .leave => (.ok true, sh)
  | .endOfInput => (.ok true, sh.print [""])
  | .help topic => (.ok false, sh.print (helpLines topic))
  | .enter line =>
    let (result, sh) := sh.enter cfg line
    (result.map fun _ => false, sh)

/-- The text printed by the last step, and the dialogue without it. -/
def takeOutput (sh : Shell) : String × Shell :=
  let (text, store) := sh.store.takeOutput
  (text, { sh with store })

/-- What a dialogue comes to: why it was given up, if it was, its whole text, and its last state. -/
structure Transcript where
  result : Except Stop Unit
  text : String
  final : Shell

/-- The prompts and answers for lines, after the text `before`. After the last line the dialogue
ends. -/
def dialogue (cfg : Config) (before : String) : List String → Shell → Transcript
  | [], sh =>
    let (result, sh') := sh.step cfg "EOF"
    let (text, final) := sh'.takeOutput
    { result := result.map fun _ => (), text := before ++ sh.prompt ++ text, final }
  | line :: rest, sh =>
    let (result, sh') := sh.step cfg line
    let (text, sh'') := sh'.takeOutput
    let shown := before ++ sh.prompt ++ text
    match result with
    | .error stop => { result := .error stop, text := shown, final := sh'' }
    | .ok true => { result := .ok (), text := shown, final := sh'' }
    | .ok false => dialogue cfg shown rest sh''

/-- A whole dialogue. -/
def transcript (cfg : Config) (lines : List String) (sh : Shell) : Transcript :=
  dialogue cfg (String.join (intro.map (· ++ "\n"))) lines sh

end Shell

end SepiaLang
