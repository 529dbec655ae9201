import SepiaLang.Command.Run

/-!
# The program

The command line: it reads the file that the arguments name and what is typed in, hands both to the
command, and prints and writes what the command reports. A dialogue is held line by line.
-/

namespace SepiaLang

/-- The file that a mode reads. -/
def Mode.file? : Mode → Option String
  | .emitTree file | .runTree file | .runProgram file => some file
  | .shell => none

/-- The directory with a file alone, or without any if it cannot be read. -/
def loadFile (path : String) : IO Directory := do
  try
    let bytes ← IO.FS.readBinFile (normalPath path)
    return [(normalPath path, bytes.toList)]
  catch _ => return []

/-- Prints what a command reports and writes its files. -/
def publish (report : Report) : IO UInt32 := do
  for (name, text) in report.written do
    IO.FS.writeFile name text
  (← IO.getStdout).putStr report.stdout
  (← IO.getStderr).putStr report.stderr
  match report.status with
  | .ok status => return UInt32.ofNat status
  | .error e =>
    (← IO.getStderr).putStr (e.message ++ "\n")
    return 1

/-- Holds a dialogue with the one who types, up to its end. -/
partial def talk (cfg : Config) (sh : Shell) : IO Shell := do
  let out ← IO.getStdout
  out.putStr sh.prompt
  out.flush
  let line ← (← IO.getStdin).getLine
  let (result, sh) := sh.step cfg (if line = "" then "EOF" else line)
  let (text, sh) := sh.takeOutput
  out.putStr text
  out.flush
  match result with
  | .error stop => throw (IO.userError stop.message)
  | .ok stop => if stop then return sh else talk cfg sh

/-- Opens a shell. -/
def openShell (o : Options) : IO UInt32 := do
  let cfg : Config := { logLevel := o.verbosity }
  (← IO.getStdout).putStr (unlines Shell.intro)
  let sh ← talk cfg { store := cfg.start }
  if 0 < o.verbosity then IO.FS.writeFile logFile sh.store.log.text
  return 0

end SepiaLang

open SepiaLang in
/-- The command line. -/
def main (args : List String) : IO UInt32 := do
  match Options.read args with
  | .ok o =>
    match o.mode.file? with
    | some file => publish (Command.run (← loadFile file) "" args)
    | none => openShell o
  | .error _ => publish (Command.run [] "" args)
