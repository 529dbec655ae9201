import SepiaLang.Command.Files
import SepiaLang.Command.Options
import SepiaLang.Interchange.Decode
import SepiaLang.Interchange.Encode
import SepiaLang.Json.Printer
import SepiaLang.Shell

/-!
# The command

What the command does, as a function of the files it can see, its arguments and the text that is
typed in: run a program, write its tree to a file, run the program whose tree is in a file, or open
a shell.

* `Mode`: the four things that the command does.
* `Report`: what it prints, how it ends, and what it writes to files.
* **`Command.run`**: the whole command.
-/

namespace SepiaLang

/-- What the command is asked to do. -/
inductive Mode where
  | emitTree (file : String)
  | runTree (file : String)
  | runProgram (file : String)
  | shell
  deriving DecidableEq, Repr

/-- What the options ask for. A file without a name counts as not given. -/
def Options.mode (o : Options) : Mode :=
  match o.emitTree.filter (· != ""), o.runTree.filter (· != ""), o.program.filter (· != "") with
  | some file, _, _ => .emitTree file
  | none, some file, _ => .runTree file
  | none, none, some file => .runProgram file
  | none, none, none => .shell

/-- A failure that the command does not take care of. A container of a JSON text that is nested too
deeply is `deepContainer`. -/
inductive Escape where
  | file (error : FileError)
  | decode (error : DecodeError)
  | deepContainer (container : JsonContainer)
  | stop (stop : Stop)

/-- The wording of a failure. -/
def Escape.message : Escape → String
  | file error => error.message
  | decode error => error.message
  | deepContainer container => deepContainerMessage container
  | stop s => s.message

/-- What a command comes to: its exit status or a failure that is passed on, what it printed, and
the files that it wrote, with their texts. -/
structure Report where
  status : Except Escape Nat := .ok 0
  stdout : String := ""
  stderr : String := ""
  written : List (String × String) := []

/-- Lines, each with a line break after it. -/
def unlines (lines : List String) : String := String.join (lines.map (· ++ "\n"))

/-- The name of the file that the log is written to. -/
def logFile : String := "debug.txt"

namespace Command

/-- Ends with an error message. -/
def exitWith (lines : List String) : Report := { status := .ok 1, stderr := unlines lines }

/-- Passes a failure to read a file on, unless the file is just not there. -/
def fileReport : FileError → Report
  | .missing path => exitWith [(FileError.missing path).message]
  | e => { status := .error (.file e) }

/-- The report of a program that has run. An error value is an error of the command. -/
def finish : Except Stop Value × Store → Report × Store
  | (.ok (.error id message), store) =>
    ({ exitWith [(Value.error id message).inspect] with stdout := store.outputText }, store)
  | (.ok _, store) => ({ stdout := store.outputText }, store)
  | (.error stop, store) => ({ status := .error (.stop stop), stdout := store.outputText }, store)

/-- Reads a program and hands it on, or reports its problems. -/
def withProgram (cfg : Config) (source : String) (k : Parsed → Node Unit → Store → Report × Store)
    (store : Store) : Report × Store :=
  match (readSource cfg source).run store with
  | (.error stop, store) => ({ status := .error (.stop stop) }, store)
  | (.ok parsed, store) =>
    match parsed.tree? with
    | .error problems => (exitWith (problems.map (·.message)), store)
    | .ok program => k parsed program store

/-- Runs a program from a file. -/
def runProgram (cfg : Config) (d : Directory) (file : String) (store : Store) : Report × Store :=
  match d.read file with
  | .error e => (fileReport e, store)
  | .ok source =>
    withProgram cfg source (fun _ program store => finish ((run cfg program globalScope).run store))
      store

/-- Writes a tree to a file. The file stays empty if the tree is nested too deeply. -/
def writeTree (target : String) (tree : Node Token) : Report :=
  if isTooLong target then { status := .error (.file (.tooLong target)) }
  else
    match tree.encode? with
    | some json => { stdout := unlines [target], written := [(target, json.pretty)] }
    | none => { status := .error (.stop .tooDeep), written := [(target, "")] }

/-- Writes the tree of a program to a file beside it. -/
def emitTree (cfg : Config) (d : Directory) (file : String) (store : Store) : Report × Store :=
  match d.read file with
  | .error e => (fileReport e, store)
  | .ok source =>
    let target := normalPath file ++ ".ast.json"
    withProgram cfg source (fun parsed _ store => (writeTree target parsed.program, store)) store

/-- The failure to make a tree of a number that is infinite is passed on, all others are reported.
-/
def isReported : DecodeError → Bool
  | .infiniteInteger => false
  | _ => true

/-- Why a file holds no tree: the report for it. -/
def badTree (file message : String) : Report :=
  exitWith ["Error: invalid AST file " ++ file ++ ": " ++ message]

/-- The tree in a file, or the report of why there is none. -/
def loadTree (d : Directory) (file : String) : Except Report (Node Unit) :=
  match d.read file with
  | .error (.notText e) => .error (badTree file e.message)
  | .error e => .error (fileReport e)
  | .ok text =>
    match Json.read text.toList with
    | .error (.tooDeep container) => .error { status := .error (.deepContainer container) }
    | .error e => .error (badTree file (e.message text.toList))
    | .ok json =>
      match Node.ofJson json with
      | .ok tree => .ok tree
      | .error e =>
        .error (if isReported e then badTree file e.message else { status := .error (.decode e) })

/-- Runs the program whose tree is in a file. -/
def runTree (cfg : Config) (d : Directory) (file : String) (store : Store) : Report × Store :=
  match loadTree d file with
  | .error report => (report, store)
  | .ok tree => finish ((run cfg tree globalScope).run store)

/-- The lines of a text. -/
def linesOf (text : String) : List String :=
  let lines := text.toList.splitOnP (· == '\n')
  (if lines.getLast? = some [] then lines.dropLast else lines).map String.ofList

/-- Holds a dialogue. -/
def runShell (cfg : Config) (input : String) (store : Store) : Report × Store :=
  let t := Shell.transcript cfg (linesOf input) { store }
  match t.result with
  | .ok _ => ({ stdout := t.text }, t.final.store)
  | .error stop => ({ status := .error (.stop stop), stdout := t.text }, t.final.store)

/-- Does what the options ask for. -/
def perform (cfg : Config) (d : Directory) (input : String) (mode : Mode) (store : Store) :
    Report × Store :=
  match mode with
  | .emitTree file => emitTree cfg d file store
  | .runTree file => runTree cfg d file store
  | .runProgram file => runProgram cfg d file store
  | .shell => runShell cfg input store

/-- Follows the options. The log is created before anything is read. -/
def follow (d : Directory) (input : String) (o : Options) : Report :=
  let cfg : Config := { logLevel := o.verbosity }
  if o.verbosity = 0 then (perform cfg d input o.mode cfg.start).1
  else
    let (report, store) := perform cfg (d.write logFile []) input o.mode cfg.start
    { report with written := (logFile, store.log.text) :: report.written }

/-- **The whole command.** -/
def run (d : Directory) (input : String) (args : List String) : Report :=
  match Options.read args with
  | .error .help => { stdout := helpText }
  | .error (.misuse e) =>
    { status := .ok 2, stderr := usage ++ "sepia: error: " ++ e.message ++ "\n" }
  | .ok o => follow d input o

end Command

end SepiaLang
