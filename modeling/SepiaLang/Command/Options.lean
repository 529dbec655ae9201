import SepiaLang.Text.Numeral
import SepiaLang.Text.Quoted

/-!
# Command-line options

The arguments of the command, read from left to right. Long options may be shortened as long as it
is clear which is meant, short ones may be written together, and a file may follow its option after
a blank or an equals sign. An equals sign after a short option changes nothing: what follows it is
written together with the option. Two hyphens end the options. One argument that is no option is
the program; all further ones are reported.

* `Options`: what the arguments ask for.
* `Shape`: what an argument looks like by itself.
* `UsageError.message`: what can be wrong with the arguments.
* **`Options.read`**: the options that arguments give.
-/

namespace SepiaLang

/-- The options. `emitTree` writes the tree of a program to a file, and `runTree` runs the program
whose tree is in a file. -/
inductive Flag where
  | help
  | verbose
  | emitTree
  | runTree
  deriving DecidableEq, Repr

/-- The name of an option in messages. -/
def Flag.label : Flag → String
  | help => "-h/--help"
  | verbose => "-v"
  | emitTree => "--emit-ast"
  | runTree => "--ast"

/-- The option takes a file. -/
def Flag.takesFile : Flag → Bool
  | emitTree | runTree => true
  | help | verbose => false

/-- The ways to write the options. -/
def Flag.spellings : List (String × Flag) :=
  [("-h", help), ("--help", help), ("-v", verbose), ("--emit-ast", emitTree), ("--ast", runTree)]

/-- What is wrong with the arguments. An option that takes nothing but was given a text is
`ignored`. -/
inductive UsageError where
  | ambiguous (option : String) (candidates : List String)
  | needsFile (flag : Flag)
  | exclusive (flag other : Flag)
  | ignored (flag : Flag) (text : String)
  | unrecognized (args : List String)
  deriving DecidableEq, Repr

/-- The wording of an error. -/
def UsageError.message : UsageError → String
  | ambiguous option candidates =>
    "ambiguous option: " ++ option ++ " could match " ++ String.intercalate ", " candidates
  | needsFile flag => "argument " ++ flag.label ++ ": expected one argument"
  | exclusive flag other =>
    "argument " ++ flag.label ++ ": not allowed with argument " ++ other.label
  | ignored flag text =>
    "argument " ++ flag.label ++ ": ignored explicit argument " ++ Text.quoted text
  | unrecognized args => "unrecognized arguments: " ++ String.intercalate " " args

/-! ## Single arguments -/

/-- What an argument looks like: no option, the end of the options, an option that there is not, or
an option in its long or its short form, with the text that is attached to it after an equals sign
or right after the letter. -/
inductive Shape where
  | plain
  | divider
  | unknown
  | option (flag : Flag) (long : Bool) (attached : Option String)
  deriving DecidableEq, Repr

/-- The text before the first equals sign, and the text after it if there is one. -/
def splitAtEquals (arg : List Char) : List Char × Option (List Char) :=
  match arg.dropWhile (· != '=') with
  | [] => (arg, none)
  | _ :: after => (arg.takeWhile (· != '='), some after)

/-- Digits, at least one. -/
def isDigits (cs : List Char) : Bool := !cs.isEmpty && cs.all fun c => (Text.digit? c).isSome

/-- What follows the hyphen of a negative number: digits, perhaps with a point before the last ones.
A line break may follow. -/
def isUnsignedNumber (cs : List Char) : Bool :=
  let body := if cs.getLast? = some '\n' then cs.dropLast else cs
  let whole := body.takeWhile fun c => (Text.digit? c).isSome
  match body.drop whole.length with
  | [] => isDigits whole
  | '.' :: fraction => isDigits fraction
  | _ => false

/-- The options that a long form with a given beginning can stand for. -/
def longCandidates (start : String) : List (String × Flag) :=
  Flag.spellings.filter fun (spelling, _) => start.toList.isPrefixOf spelling.toList

/-- The shape of an argument that is no option: a number or a text with a blank is plain. -/
def otherShape (arg : List Char) : Shape :=
  if isUnsignedNumber arg.tail || arg.contains ' ' then .plain else .unknown

/-- The shape of an argument that starts with two hyphens and is not written in full. -/
def longShape (arg : List Char) : Except UsageError Shape :=
  let (start, after) := splitAtEquals arg
  match longCandidates (String.ofList start) with
  | [] => .ok (otherShape arg)
  | [(_, flag)] => .ok (.option flag true (after.map String.ofList))
  | many => .error (.ambiguous (String.ofList arg) (many.map (·.1)))

/-- The shape of an argument that starts with one hyphen and is not written in full. -/
def shortShape (arg : List Char) : Shape :=
  match Flag.spellings.lookup (String.ofList (arg.take 2)) with
  | some flag => .option flag false (some (String.ofList (arg.drop 2)))
  | none => otherShape arg

/-- The option is written in its long form. -/
def isLong (spelling : String) : Bool := "--".toList.isPrefixOf spelling.toList

/-- What an argument before the end of the options looks like. -/
def shape (arg : String) : Except UsageError Shape :=
  match arg.toList, splitAtEquals arg.toList with
  | '-' :: second :: rest, (start, after) =>
    match Flag.spellings.lookup arg with
    | some flag => .ok (.option flag (isLong arg) none)
    | none =>
      match Flag.spellings.lookup (String.ofList start), after with
      | some flag, some text =>
        .ok (.option flag (isLong (String.ofList start)) (some (String.ofList text)))
      | _, _ =>
        if second = '-' then longShape ('-' :: second :: rest)
        else .ok (shortShape ('-' :: second :: rest))
  | _, _ => .ok .plain

/-- The arguments with their shapes. Nothing is an option after two hyphens. -/
def shapes : List String → Except UsageError (List (String × Shape))
  | [] => .ok []
  | arg :: rest =>
    if arg = "--" then .ok ((arg, .divider) :: rest.map fun a => (a, .plain))
    else do
      let s ← shape arg
      return (arg, s) :: (← shapes rest)

/-! ## All arguments -/

/-- What the arguments ask for: how much to write to the log, and which files to write or to run.
The arguments in `extra` mean nothing. -/
structure Options where
  verbosity : Nat := 0
  emitTree : Option String := none
  runTree : Option String := none
  program : Option String := none
  extra : List String := []
  deriving DecidableEq, Repr

/-- Why the arguments are not followed: they ask for help, or something is wrong with them. -/
inductive OptionsStop where
  | help
  | misuse (error : UsageError)
  deriving DecidableEq, Repr

/-- The options that a group of short ones stands for: `flag`, and one for every character of the
text that is attached to it. Where a character is no option, the last option before it cannot take
what is left. -/
def shortGroup (flag : Flag) : List Char → Except UsageError (List Flag)
  | [] => .error (.ignored flag "")
  | c :: rest =>
    match Flag.spellings.lookup (String.ofList ['-', c]), rest with
    | none, rest => .error (.ignored flag (String.ofList (c :: rest)))
    | some next, [] => .ok [flag, next]
    | some next, d :: rest => (shortGroup next (d :: rest)).map (flag :: ·)

/-- The file that an attached text names. Two hyphens name none. -/
def attachedFile (text : String) : String := if text = "--" then "" else text

namespace Options

/-- Follows an option that takes nothing. -/
def follow (o : Options) : Flag → Except OptionsStop Options
  | .help => .error .help
  | .verbose => .ok { o with verbosity := o.verbosity + 1 }
  | .emitTree | .runTree => .ok o

/-- Takes the file of an option. The two options with files exclude each other. -/
def takeFile (o : Options) (flag : Flag) (file : String) : Except OptionsStop Options :=
  match flag with
  | .emitTree =>
    if o.runTree.isSome then .error (.misuse (.exclusive .emitTree .runTree))
    else .ok { o with emitTree := some file }
  | .runTree =>
    if o.emitTree.isSome then .error (.misuse (.exclusive .runTree .emitTree))
    else .ok { o with runTree := some file }
  | .help | .verbose => .ok o

/-- Adds an argument that means nothing. -/
def addExtra (o : Options) (args : List String) : Options := { o with extra := o.extra ++ args }

/-- Follows an option together with what is attached to it. -/
def followAttached (o : Options) (flag : Flag) (long : Bool) (text : String) :
    Except OptionsStop Options :=
  if flag.takesFile then o.takeFile flag (attachedFile text)
  else if long then .error (.misuse (.ignored flag text))
  else
    match shortGroup flag text.toList with
    | .error e => .error (.misuse e)
    | .ok flags => flags.foldlM follow o

/-- Follows the arguments from left to right. -/
def followAll (o : Options) : List (String × Shape) → Except OptionsStop Options
  | [] => .ok o
  | (arg, .unknown) :: rest => followAll (o.addExtra [arg]) rest
  | (_, .option flag long (some text)) :: rest =>
    match o.followAttached flag long text with
    | .error stop => .error stop
    | .ok o => followAll o rest
  | (_, .option flag _ none) :: rest =>
    if flag.takesFile then
      match rest with
      | (file, .plain) :: rest =>
        match o.takeFile flag file with
        | .error stop => .error stop
        | .ok o => followAll o rest
      | _ => .error (.misuse (.needsFile flag))
    else
      match o.follow flag with
      | .error stop => .error stop
      | .ok o => followAll o rest
  | (arg, .plain) :: rest =>
    if o.program.isSome then followAll (o.addExtra [arg]) rest
    else
      match rest with
      | (_, .divider) :: rest => followAll { o with program := some arg } rest
      | rest => followAll { o with program := some arg } rest
  | (arg, .divider) :: rest =>
    if o.program.isSome then followAll (o.addExtra [arg]) rest
    else
      match rest with
      | (program, _) :: rest => followAll { o with program := some program } rest
      | [] => .ok o
termination_by args => args.length

/-- **The options that arguments give.** -/
def read (args : List String) : Except OptionsStop Options :=
  match shapes args with
  | .error e => .error (.misuse e)
  | .ok shaped =>
    match followAll {} shaped with
    | .error stop => .error stop
    | .ok o => if o.extra.isEmpty then .ok o else .error (.misuse (.unrecognized o.extra))

end Options

/-- How the command is used. -/
def usage : String :=
  "usage: sepia [-h] [-v] [--emit-ast SEPIA_FILE | --ast AST_JSON_FILE] [program]\n"

/-- The text that help shows. -/
def helpText : String :=
  usage ++
  "\nSepia language interpreter\n\npositional arguments:\n" ++
  "  program               Sepia program file (.sepia) to execute; omit for a\n" ++
  "                        REPL\n\noptions:\n" ++
  "  -h, --help            show this help message and exit\n" ++
  "  -v                    increase debug verbosity (can be repeated)\n" ++
  "  --emit-ast SEPIA_FILE\n" ++
  "                        emit AST JSON for the given .sepia file\n" ++
  "  --ast AST_JSON_FILE   execute AST from a JSON file\n"

end SepiaLang
