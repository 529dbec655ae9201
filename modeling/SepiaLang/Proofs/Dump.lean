import SepiaLang.Command.Run
import SepiaLang.Proofs.Interchange.Codec
import SepiaLang.Proofs.Json.RoundTrip
import SepiaLang.Proofs.Text.Utf8
import SepiaLang.Proofs.WordRange

/-!
# Programs by way of a file

The tree of a program can be written to a file and run from there. That comes to the same as running
the program, because the file is read back as the tree without its notes, and nothing else is run.

* `Node.plain_toJson`: the JSON form of a tree can be read back if its integers can.
* `Options.read_program`, `Options.read_file`: what the command is asked to do by a file alone, and by
  an option with a file.
* `Directory.read_write`: a file holds what was written to it.
* **`run_by_way_of_file`**: both ways have the same output, errors and exit status.
-/

namespace SepiaLang

/-! ## The JSON form of a tree -/

namespace Node

variable {α : Type}

theorem plainItems_params : ∀ ps : List (Ident α), Json.PlainItems (ps.map fun p => .string p.text)
  | [] => by simp [Json.PlainItems]
  | _ :: ps => by simpa [Json.PlainItems, Json.Plain] using plainItems_params ps

mutual

theorem plain_toJsonWith : ∀ {n : Node α}, (∀ k, n.HasLiteral k → k.natAbs < 10 ^ Text.maxDigits) →
    (n.toJsonWith .string).Plain
  | absent, _ => by simp [toJsonWith, Json.Plain]
  | .boolean .., _ | .string .., _ | identifier .., _ => by
    simp [toJsonWith, record, Json.Plain, Json.PlainFields]
  | .integer _ k, h => by
    simpa [toJsonWith, record, Json.Plain, Json.PlainFields] using h k .here
  | program body, h | block _ body, h | .array _ body, h => by
    have hbody : Json.PlainItems (toJsonAllWith .string body) :=
      plainItems_toJsonAllWith fun n hn k hk => h k (.inside hn hk)
    simpa [toJsonWith, record, Json.Plain, Json.PlainFields] using hbody
  | expressionStmt _ e, h | valueStmt _ _ e, h | updateStmt _ _ e, h | returnStmt _ e, h
  | unary _ _ e, h => by
    have he := plain_toJsonWith fun k hk => h k (.inside (List.mem_singleton_self e) hk)
    simpa [toJsonWith, record, Json.Plain, Json.PlainFields] using he
  | binary _ _ l r, h | index _ l r, h => by
    have hl := plain_toJsonWith fun k hk => h k (.inside (m := l) (by simp [children]) hk)
    have hr := plain_toJsonWith fun k hk => h k (.inside (m := r) (by simp [children]) hk)
    simp [toJsonWith, record, Json.Plain, Json.PlainFields, hl, hr]
  | conditional _ c t e, h => by
    have hc := plain_toJsonWith fun k hk => h k (.inside (m := c) (by simp [children]) hk)
    have ht := plain_toJsonWith fun k hk => h k (.inside (m := t) (by simp [children]) hk)
    have he := plain_toJsonWith fun k hk => h k (.inside (m := e) (by simp [children]) hk)
    simp [toJsonWith, record, Json.Plain, Json.PlainFields, hc, ht, he]
  | function _ ps b, h => by
    have hb := plain_toJsonWith fun k hk => h k (.inside (List.mem_singleton_self b) hk)
    simp [toJsonWith, record, Json.Plain, Json.PlainFields, hb, plainItems_params ps]
  | call _ f args, h => by
    have hf := plain_toJsonWith fun k hk => h k (.inside (m := f) (by simp [children]) hk)
    have hargs : Json.PlainItems (toJsonAllWith .string args) :=
      plainItems_toJsonAllWith fun n hn k hk => h k (.inside (by simp [children, hn]) hk)
    simp [toJsonWith, record, Json.Plain, Json.PlainFields, hf, hargs]
  | map _ ps, h => by
    have hps : Json.PlainItems (toJsonPairsWith .string ps) :=
      plainItems_toJsonPairsWith fun n hn k hk => h k (.inside hn hk)
    simpa [toJsonWith, record, Json.Plain, Json.PlainFields] using hps

theorem plainItems_toJsonAllWith : ∀ {ns : List (Node α)},
    (∀ n ∈ ns, ∀ k, n.HasLiteral k → k.natAbs < 10 ^ Text.maxDigits) →
      Json.PlainItems (toJsonAllWith .string ns)
  | [], _ => by simp [toJsonAllWith, Json.PlainItems]
  | n :: ns, h => by
    rw [List.forall_mem_cons] at h
    simp [toJsonAllWith, Json.PlainItems, plain_toJsonWith h.1, plainItems_toJsonAllWith h.2]

theorem plainItems_toJsonPairsWith : ∀ {ps : List (Node α × Node α)},
    (∀ n ∈ ps.flatMap fun (k, v) => [k, v], ∀ k, n.HasLiteral k → k.natAbs < 10 ^ Text.maxDigits) →
      Json.PlainItems (toJsonPairsWith .string ps)
  | [], _ => by simp [toJsonPairsWith, Json.PlainItems]
  | (k, v) :: ps, h => by
    rw [List.flatMap_cons, List.forall_mem_append, List.forall_mem_cons, List.forall_mem_singleton] at h
    simp [toJsonPairsWith, Json.PlainItems, Json.Plain, plain_toJsonWith h.1.1, plain_toJsonWith h.1.2,
      plainItems_toJsonPairsWith h.2]

end

theorem plain_toJson {n : Node α} (h : ∀ k, n.HasLiteral k → k.natAbs < 10 ^ Text.maxDigits) :
    n.toJson.Plain :=
  plain_toJsonWith h

end Node

/-- **The tree of a text can be read back** from its JSON form. -/
theorem plain_toJson_parseSource (source : String) : (parseSource source).program.toJson.Plain := by
  rw [← Node.toJson_mapNotes fun _ => ()]
  refine Node.plain_toJson fun k hk => ?_
  obtain ⟨hnonneg, hle⟩ := literal_parseSource hk
  have hgreatest : Word64.greatest.natAbs < 10 ^ Text.maxDigits := by
    calc Word64.greatest.natAbs < 10 ^ 19 := by decide
      _ ≤ 10 ^ Text.maxDigits := Nat.pow_le_pow_right (by decide) (by decide)
  omega

/-! ## Arguments -/

/-- The command takes the argument for a file. -/
def IsOperand (arg : String) : Prop := arg ≠ "" ∧ shape arg = .ok .plain

/-- A text that does not start with a hyphen is taken for a file. -/
theorem isOperand_of_head {arg : String} {c : Char} (h : arg.toList.head? = some c) (hc : c ≠ '-') :
    IsOperand arg := by
  constructor
  · rintro rfl
    cases h
  · unfold shape
    split
    · next heq _ =>
      rw [heq] at h
      exact absurd (Option.some.inj h).symm hc
    · rfl

theorem IsOperand.ne_divider {arg : String} (h : IsOperand arg) : arg ≠ "--" := by
  rintro rfl
  have hshape : shape "--" = .error (.ambiguous "--" ["--help", "--emit-ast", "--ast"]) := by rfl
  rw [IsOperand, hshape] at h
  exact nomatch h.2

namespace Options

theorem shapes_operand {arg : String} (h : IsOperand arg) : shapes [arg] = .ok [(arg, .plain)] := by
  rw [shapes, if_neg h.ne_divider, h.2]
  rfl

/-- A file alone is a program to run. -/
theorem read_program {file : String} (h : IsOperand file) :
    Options.read [file] = .ok { program := some file } := by
  simp [Options.read, shapes_operand h, followAll]

/-- An option with a file. -/
theorem read_file {spelling : String} {flag : Flag} (hne : spelling ≠ "--")
    (hshape : shape spelling = .ok (.option flag true none)) (htakes : flag.takesFile = true) {o : Options}
    {file : String} (htake : Options.takeFile {} flag file = .ok o) (hextra : o.extra = [])
    (h : IsOperand file) : Options.read [spelling, file] = .ok o := by
  have hshapes : shapes [spelling, file] = .ok [(spelling, .option flag true none), (file, .plain)] := by
    rw [shapes, if_neg hne, hshape, shapes_operand h]
    rfl
  simp [Options.read, hshapes, followAll, htakes, htake, hextra]

end Options

/-! ## Paths -/

/-- A part of a path that means something. -/
def IsPart (part : List Char) : Prop := part ≠ [] ∧ part ≠ ['.'] ∧ '/' ∉ part

theorem not_mem_of_mem_splitOnP {path part : List Char} (h : part ∈ path.splitOnP (· == '/')) :
    '/' ∉ part := by
  induction path generalizing part with
  | nil =>
    rw [List.splitOnP_nil, List.mem_singleton] at h
    simp [h]
  | cons c path ih =>
    rw [List.splitOnP_cons_eq_if_modifyHead] at h
    split at h
    · rcases List.mem_cons.1 h with rfl | h
      · exact List.not_mem_nil
      · exact ih h
    · next hc =>
      obtain ⟨first, rest, hsplit⟩ := List.exists_cons_of_ne_nil (List.splitOnP_ne_nil (· == '/') path)
      rw [hsplit] at h ih
      rcases List.mem_cons.1 h with rfl | h
      · rw [List.mem_cons, not_or]
        exact ⟨fun he => hc (by simp [← he]), ih List.mem_cons_self⟩
      · exact ih (List.mem_cons_of_mem _ h)

theorem isPart_of_mem_pathParts {path part : List Char} (h : part ∈ pathParts path) : IsPart part := by
  rw [pathParts, List.mem_filter] at h
  exact ⟨by simp_all, by simp_all, not_mem_of_mem_splitOnP h.1⟩

theorem pathRoot_cases (path : List Char) :
    pathRoot path = [] ∨ pathRoot path = ['/'] ∨ pathRoot path = ['/', '/'] := by
  unfold pathRoot
  split <;> simp

/-- A path that is made of parts that mean something is normal. -/
theorem normalPath_eq_self {root : List Char} (hroot : root = [] ∨ root = ['/'] ∨ root = ['/', '/'])
    {parts : List (List Char)} (hne : parts ≠ []) (h : ∀ part ∈ parts, IsPart part) :
    normalPath (String.ofList (root ++ ['/'].intercalate parts)) =
      String.ofList (root ++ ['/'].intercalate parts) := by
  obtain ⟨c, tail, hfirst, hc⟩ : ∃ c tail, ['/'].intercalate parts = c :: tail ∧ c ≠ '/' := by
    obtain ⟨part, parts, rfl⟩ := List.exists_cons_of_ne_nil hne
    obtain ⟨hpart, -, hslash⟩ := h part List.mem_cons_self
    obtain ⟨c, tail, rfl⟩ := List.exists_cons_of_ne_nil hpart
    have hc : c ≠ '/' := fun he => hslash (he ▸ List.mem_cons_self)
    cases parts <;> exact ⟨c, _, rfl, hc⟩
  have hsplit : (['/'].intercalate parts).splitOnP (· == '/') = parts :=
    List.splitOn_intercalate '/' (fun part hpart => (h part hpart).2.2) hne
  have hparts : pathParts (root ++ ['/'].intercalate parts) = parts := by
    have hkeep : parts.filter (fun part => part != [] && part != ['.']) = parts := by
      rw [List.filter_eq_self]
      intro part hpart
      simp [(h part hpart).1, (h part hpart).2.1]
    rcases hroot with rfl | rfl | rfl <;>
      simpa [pathParts, List.splitOnP_cons_eq_if_modifyHead, hsplit] using hkeep
  have hrootOf : pathRoot (root ++ ['/'].intercalate parts) = root := by
    rw [hfirst]
    rcases hroot with rfl | rfl | rfl <;> simp [pathRoot, hc]
  have hnot : parts.isEmpty = false := by simpa using hne
  apply String.toList_injective
  simp only [normalPath, String.toList_ofList, hparts, hrootOf, hnot, Bool.and_false, Bool.false_eq_true,
    if_false, String.toList_append, String.toList_intercalate, List.map_map]
  simp [Function.comp_def]

theorem intercalate_concat (sep last suffix : List Char) (init : List (List Char)) :
    sep.intercalate (init ++ [last]) ++ suffix = sep.intercalate (init ++ [last ++ suffix]) := by
  induction init with
  | nil => simp [List.intercalate]
  | cons part init ih => cases init <;> simp_all [List.intercalate]

/-- The name of the file beside a program is a path as it stands. -/
theorem normalPath_target (file : String) :
    normalPath (normalPath file ++ ".ast.json") = normalPath file ++ ".ast.json" := by
  suffices hform : ∃ root parts, (root = [] ∨ root = ['/'] ∨ root = ['/', '/']) ∧ parts ≠ [] ∧
      (∀ part ∈ parts, IsPart part) ∧
      normalPath file ++ ".ast.json" = String.ofList (root ++ ['/'].intercalate parts) by
    obtain ⟨root, parts, hroot, hne, hparts, hform⟩ := hform
    rw [hform, normalPath_eq_self hroot hne hparts]
  have hroot := pathRoot_cases file.toList
  rcases List.eq_nil_or_concat (pathParts file.toList) with hparts | ⟨init, last, hparts⟩
  · by_cases hempty : pathRoot file.toList = []
    · refine ⟨[], ["..ast.json".toList], .inl rfl, List.cons_ne_nil _ _, ?_, ?_⟩
      · simp [IsPart]
      · simp [normalPath, hparts, hempty, List.intercalate]
    · refine ⟨pathRoot file.toList, [".ast.json".toList], hroot, List.cons_ne_nil _ _, ?_, ?_⟩
      · simp [IsPart]
      · simp [normalPath, hparts, hempty, List.intercalate, String.ofList_append]
  · rw [List.concat_eq_append] at hparts
    have hall (part : List Char) (h : part ∈ init ++ [last]) : IsPart part :=
      isPart_of_mem_pathParts (hparts ▸ h)
    refine ⟨pathRoot file.toList, init ++ [last ++ ".ast.json".toList], hroot, by simp, ?_, ?_⟩
    · intro part hpart
      rcases List.mem_append.1 hpart with hpart | hpart
      · exact hall part (List.mem_append_left _ hpart)
      · obtain ⟨hne, hdot, hslash⟩ := hall last (by simp)
        rw [List.mem_singleton.1 hpart]
        refine ⟨by simp, fun h => ?_, by simpa using hslash⟩
        have := congrArg List.length h
        simp at this
    · apply String.toList_injective
      rw [← intercalate_concat]
      simp [normalPath, hparts, String.toList_intercalate, Function.comp_def]

/-! ## Files -/

theorem Text.unixLines_of_not_mem : ∀ {cs : List Char}, '\r' ∉ cs → unixLines cs = cs
  | [], _ => rfl
  | c :: cs, h => by
    rw [List.mem_cons, not_or] at h
    have hc : c ≠ '\r' := Ne.symm h.1
    unfold unixLines
    split
    · next heq => cases heq
    · next heq => cases heq; exact absurd rfl hc
    · next heq => cases heq; rw [if_neg hc, unixLines_of_not_mem h.2]

theorem Assoc.lookup_put {β : Type} (name : String) (b : β) (l : List (String × β)) :
    (put (·.1 == name) (name, b) l).lookup name = some b := by
  induction l with
  | nil => simp [put]
  | cons entry l ih =>
    rw [put]
    split
    · simp
    · next h =>
      have hne : (name == entry.1) = false := beq_eq_false_iff_ne.2 fun e => h (by simp [e])
      rw [List.lookup_cons, hne]
      exact ih

/-- **A file holds the text that was written to it**, if its lines end by line feeds. -/
theorem Directory.read_write (d : Directory) {path text : String} (h : '\r' ∉ text.toList) :
    (d.write (normalPath path) (Text.bytes text)).read path = .ok text := by
  rw [Directory.read, Directory.write, Assoc.lookup_put]
  show Directory.textOf (Text.bytes text) = _
  rw [Directory.textOf, Text.decodeUtf8_bytes]
  show Except.ok (String.ofList (Text.unixLines text.toList)) = _
  rw [Text.unixLines_of_not_mem h, String.ofList_toList]

/-! ## The command -/

namespace Command

theorem withProgram_quiet (source : String) (k : Parsed → Node Unit → Store → Report × Store)
    (store : Store) :
    withProgram {} source k store =
      if (parseSource source).problems.isEmpty
      then k (parseSource source) (parseSource source).program.strip store
      else (exitWith ((parseSource source).problems.map (·.message)), store) := by
  have hread : (readSource {} source).run store = (.ok (parseSource source), store) :=
    readSource_quiet source store
  simp only [withProgram, hread, Parsed.tree?]
  by_cases h : (parseSource source).problems.isEmpty = true <;> simp only [h, if_true]
  rfl

variable {d : Directory} {file source : String}

/-- What a program from a file comes to. -/
theorem run_program (input : String) (hfile : IsOperand file) (hread : d.read file = .ok source) :
    Command.run d input [file] =
      if (parseSource source).problems.isEmpty then
        (finish (SepiaLang.run {} (parseSource source).program.strip globalScope (Config.start {}))).1
      else exitWith ((parseSource source).problems.map (·.message)) := by
  have hmode : Options.mode { program := some file } = .runProgram file := by
    simp [Options.mode, Option.filter, hfile.1]
  have hperform : Command.run d input [file] = (runProgram {} d file (Config.start {})).1 := by
    rw [Command.run, Options.read_program hfile]
    show (perform {} d input (Options.mode { program := some file }) (Config.start {})).1 = _
    rw [hmode]
    rfl
  rw [hperform, runProgram, hread]
  show (withProgram {} source _ (Config.start {})).1 = _
  rw [withProgram_quiet]
  split <;> rfl

/-- What writing the tree of a program to a file comes to. -/
theorem run_emitTree (input : String) (hfile : IsOperand file) (hread : d.read file = .ok source) :
    Command.run d input ["--emit-ast", file] =
      if (parseSource source).problems.isEmpty then
        writeTree (normalPath file ++ ".ast.json") (parseSource source).program
      else exitWith ((parseSource source).problems.map (·.message)) := by
  have hmode : Options.mode { emitTree := some file } = .emitTree file := by
    simp [Options.mode, Option.filter, hfile.1]
  have hperform : Command.run d input ["--emit-ast", file] =
      (emitTree {} d file (Config.start {})).1 := by
    rw [Command.run, Options.read_file (by decide) rfl rfl rfl rfl hfile]
    show (perform {} d input (Options.mode { emitTree := some file }) (Config.start {})).1 = _
    rw [hmode]
    rfl
  rw [hperform, emitTree, hread]
  show (withProgram {} source _ (Config.start {})).1 = _
  rw [withProgram_quiet]
  split <;> rfl

/-- What the tree in a file comes to. -/
theorem run_runTree (input : String) (hfile : IsOperand file) {tree : Node Unit}
    (hload : loadTree d file = .ok tree) :
    Command.run d input ["--ast", file] =
      (finish (SepiaLang.run {} tree globalScope (Config.start {}))).1 := by
  have hmode : Options.mode { runTree := some file } = .runTree file := by
    simp [Options.mode, Option.filter, hfile.1]
  have hperform : Command.run d input ["--ast", file] = (runTree {} d file (Config.start {})).1 := by
    rw [Command.run, Options.read_file (by decide) rfl rfl rfl rfl hfile]
    show (perform {} d input (Options.mode { runTree := some file }) (Config.start {})).1 = _
    rw [hmode]
    rfl
  rw [hperform, runTree, hload]
  rfl

/-- The tree that is loaded from a file is the one that was written there, without notes. -/
theorem loadTree_write {α : Type} (d : Directory) {path : String} {tree : Node α} (hplain : tree.toJson.Plain)
    (hnesting : tree.toJson.nesting ≤ Json.nestingLimit) :
    loadTree (d.write (normalPath path) (Text.bytes tree.toJson.pretty)) path = .ok tree.strip := by
  have htext : (d.write (normalPath path) (Text.bytes (tree.toJson.prettyAt 0))).read path =
      .ok (tree.toJson.prettyAt 0) := Directory.read_write d (Json.not_mem_prettyAt 0 hplain)
  simp only [loadTree, Json.pretty, htext]
  rw [← Json.pretty]
  simp only [Json.read_pretty hplain hnesting, Node.ofJson_toJson]

end Command

/-- **A program by way of a file.** If the text of a file is no program, writing its tree and running
it both report why, and that is all. If it is one, its tree is written to a file beside it, and
running that tree comes to the same as running the program: what is printed, the errors and the exit
status. (The name of the new file must not be too long, nor the tree nested too deeply.) -/
theorem run_by_way_of_file (d : Directory) (input : String) {file source : String}
    (hfile : IsOperand file) (hread : d.read file = .ok source) :
    let parsed := parseSource source
    let target := normalPath file ++ ".ast.json"
    let direct := Command.run d input [file]
    let emitted := Command.run d input ["--emit-ast", file]
    (parsed.problems ≠ [] →
      direct = { status := .ok 1, stderr := unlines (parsed.problems.map (·.message)) } ∧
        emitted = direct) ∧
    (parsed.problems = [] → isTooLong target = false → parsed.program.fits displayLimit = true →
      parsed.program.toJson.nesting ≤ Json.nestingLimit →
      normalPath target = target ∧
      ∃ text, emitted = { stdout := target ++ "\n", written := [(target, text)] } ∧
        ∀ (path input' : String), IsOperand path → normalPath path = target →
          Command.run (d.write target (Text.bytes text)) input' ["--ast", path] = direct) := by
  intro parsed target direct emitted
  have hdirect := Command.run_program input hfile hread
  have hemitted := Command.run_emitTree input hfile hread
  refine ⟨fun hproblems => ?_, fun hproblems hname hfits hnesting => ?_⟩
  · rw [if_neg (by simpa using hproblems)] at hdirect hemitted
    exact ⟨hdirect, hemitted.trans hdirect.symm⟩
  · rw [if_pos (by simpa using hproblems)] at hdirect hemitted
    refine ⟨normalPath_target file, parsed.program.toJson.pretty, ?_, ?_⟩
    · refine hemitted.trans ?_
      have hline : unlines [target] = target ++ "\n" := by simp [unlines, String.join]
      rw [Command.writeTree, if_neg (by rw [hname]; decide), Node.encode?, if_pos hfits, ← hline]
    · intro path input' hpath htarget
      rw [← htarget]
      exact (Command.run_runTree input' hpath
        (Command.loadTree_write d (plain_toJson_parseSource source) hnesting)).trans hdirect.symm

/-- A program that prints, written to a file and run from there. -/
theorem run_by_way_of_file_puts :
    let source := "puts(1);"
    let d : Directory := [("a.sepia", Text.bytes source)]
    let target := "a.sepia.ast.json"
    let direct := Command.run d "" ["a.sepia"]
    direct.stdout = "1\n" ∧ ∃ text,
      Command.run d "" ["--emit-ast", "a.sepia"] =
        { stdout := target ++ "\n", written := [(target, text)] } ∧
      Command.run (d.write target (Text.bytes text)) "" ["--ast", target] = direct := by
  have htree : (parseSource "puts(1);").program.strip = .program
      [.expressionStmt () (.call () (.identifier () "puts") [.integer () 1])] := by
    with_unfolding_all rfl
  intro source d target direct
  have hfile : IsOperand "a.sepia" := isOperand_of_head rfl (show 'a' ≠ '-' by decide)
  have hpath : IsOperand target := isOperand_of_head (by decide) (show 'a' ≠ '-' by decide)
  have hname : normalPath "a.sepia" = "a.sepia" := by decide +kernel
  have hread : d.read "a.sepia" = .ok source := by
    have hwritten : Directory.read (Directory.write [] (normalPath "a.sepia") (Text.bytes source)) "a.sepia" =
        .ok source := Directory.read_write [] (by decide)
    rwa [hname] at hwritten
  have hproblems : (parseSource source).problems = [] := by
    rw [← List.isEmpty_iff]
    decide +kernel
  have hfits : (parseSource source).program.fits displayLimit = true := by decide +kernel
  have hnesting : (parseSource source).program.toJson.nesting ≤ Json.nestingLimit := by
    decide +kernel
  have hdirect : direct.stdout = "1\n" := by
    show (Command.run d "" ["a.sepia"]).stdout = _
    rw [Command.run_program "" hfile hread, if_pos (by simpa using hproblems), htree]
    decide +kernel
  obtain ⟨-, text, hemitted, hrun⟩ := (run_by_way_of_file d "" hfile hread).2 hproblems
    (by decide +kernel) hfits hnesting
  rw [hname] at hemitted hrun
  refine ⟨hdirect, text, hemitted, hrun target "" hpath (by decide +kernel)⟩

end SepiaLang
