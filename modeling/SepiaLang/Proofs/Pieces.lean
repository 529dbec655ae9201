import SepiaLang.Proofs.DepthLimit
import SepiaLang.Proofs.Moments
import SepiaLang.Proofs.Parse.Join
import SepiaLang.Session

/-!
# Programs in pieces

Running one program after another comes to the same as running both as one, as long as the first one
neither goes wrong nor returns; if it does, nothing of the second one runs.

* `programBody_append_of_passes`, `programBody_append_of_not_passes`: statements before others.
* `beside`: stores that differ in what was printed and written down before.
* `runWithin_append_of_passes`, `runWithin_append_of_not_passes`: programs from trees.
* **`run_in_pieces`**: programs from texts.
* `run_in_pieces_log_closed`: what two runs print more, once the log is closed.
-/

namespace SepiaLang

open SepiaLang.Computation

/-! ## Statements before others -/

section Statements

variable {ev : Evaluator} {scope : Nat}

/-- A value that is not on its way out has not been caught. -/
theorem catchReturn_eq_ok {m : Run Value} {s s' : Store} {v : Value} (hv : ∀ w, v ≠ .returned w) :
    catchReturn m s = (.ok v, s') ↔ m s = (.ok v, s') := by
  rw [catchReturn_apply]
  rcases m s with ⟨(w | _ | _ | _) | _, s₁⟩
  · refine ⟨fun h => ?_, nofun⟩
    cases h
    exact absurd rfl (hv w)
  all_goals exact .rfl

theorem programBody_cons {n : Node Unit} {ns : List (Node Unit)} {s s' : Store} {result v : Value}
    (h : ev n scope s = (.ok v, s')) (hv : ∀ w, v ≠ .returned w) :
    programBody ev scope result (n :: ns) s = programBody ev scope v ns s' := by
  rw [programBody, bind_of_ok ((catchReturn_eq_ok hv).2 h)]
  cases v with
  | returned w => exact absurd rfl (hv w)
  | _ => rfl

/-- Statements that pass are followed by the others. -/
theorem programBody_append_of_passes {first : List (Node Unit)} {s s' : Store}
    (h : Passes ev scope first s s') (result : Value) :
    ∃ v, ∀ second, programBody ev scope result (first ++ second) s = programBody ev scope v second s' := by
  induction h generalizing result with
  | nil s => exact ⟨result, fun _ => rfl⟩
  | @cons n ns v _ _ _ hn hv _ ih =>
    obtain ⟨w, hw⟩ := ih v
    refine ⟨w, fun second => ?_⟩
    rw [List.cons_append, programBody_cons hn hv, hw]

/-- Where not all statements pass, the others are not evaluated. -/
theorem programBody_append_of_not_passes : ∀ {first : List (Node Unit)} (second : List (Node Unit))
    {s : Store} (result : Value), (¬∃ s', Passes ev scope first s s') →
    programBody ev scope result (first ++ second) s = programBody ev scope result first s
  | [], _, s, _, h => absurd ⟨s, .nil s⟩ h
  | n :: first, second, s, result, h => by
    refine bind_congr_at rfl fun v s₁ hcatch => ?_
    split
    · rfl
    · next hv =>
      refine programBody_append_of_not_passes second v ?_
      rintro ⟨s', hpass⟩
      exact h ⟨s', .cons ((catchReturn_eq_ok hv).1 hcatch) hv hpass⟩

end Statements

/-! ## Stores side by side -/

/-- The stores differ in what was printed before, and in what was written to the log. -/
structure Store.Beside (before before' : List String) (s s' : Store) : Prop where
  scopes : s'.scopes = s.scopes
  nextId : s'.nextId = s.nextId
  isOpen : s'.log.isOpen = s.log.isOpen
  output : ∃ more, s.output.toList = before ++ more ∧ s'.output.toList = before' ++ more

namespace Store.Beside

variable {before before' : List String} {s s' : Store}

theorem print (h : Beside before before' s s') (line : String) :
    Beside before before' (s.print line) (s'.print line) := by
  obtain ⟨more, hs, hs'⟩ := h.output
  exact ⟨h.scopes, h.nextId, h.isOpen, more ++ [line], by simp [Store.print, hs], by simp [Store.print, hs']⟩

theorem write (h : Beside before before' s s') (entry : LogEntry) :
    Beside before before' (s.write entry) (s'.write entry) := by
  unfold Store.write
  rw [h.isOpen]
  split
  · exact ⟨h.scopes, h.nextId, h.isOpen, h.output⟩
  · exact h.print entry.render

theorem note (h : Beside before before' s s') (cfg : Config) (level : Nat) (entry : LogEntry) :
    (SepiaLang.note cfg level entry s).1 = (SepiaLang.note cfg level entry s').1 ∧
      Beside before before' (SepiaLang.note cfg level entry s).2 (SepiaLang.note cfg level entry s').2 := by
  unfold SepiaLang.note
  split
  · split
    · exact ⟨rfl, h.write entry⟩
    · exact ⟨rfl, h⟩
  · exact ⟨rfl, h⟩

end Store.Beside

/-- Two runs of one interpreter that differ in what was printed before. Neither is cut off. -/
def beside (cfg : Config) (before before' : List String) : Pairing cfg cfg where
  Near := Store.Beside before before'
  Cut _ _ := False
  natives := .refl cfg
  scopes_eq h := h.scopes
  nextId_eq h := h.nextId
  scopes h _ := ⟨rfl, h.nextId, h.isOpen, h.output⟩
  nextId h _ := ⟨h.scopes, rfl, h.isOpen, h.output⟩
  print h line := h.print line
  note h level _ entry := .inl (h.note cfg level entry)
  cut h _ := h

/-- The native functions do not look at what was printed before and take nothing of it back. -/
def Config.Forgets (cfg : Config) : Prop :=
  cfg.natives.Prints ∧ ∀ before before', cfg.natives.Follows (beside cfg before before')

theorem follows_beside {cfg : Config} (hn : cfg.natives = standard ∨ cfg.Forgets)
    (before before' : List String) : cfg.natives.Follows (beside cfg before before') := by
  rcases hn with hn | hn
  · rw [hn]
    exact standard_follows
  · exact hn.2 before before'

/-! ## Runs -/

/-- Where no run is cut off, an error is the result of both. -/
theorem Pairing.Follows.catchError {cfg cfg' : Config} {P : Pairing cfg cfg'} (hcut : ∀ g s, ¬P.Cut g s)
    {m m' : Run Value} (hm : P.Follows m m') : P.Follows (catchError m) (catchError m') := by
  refine ⟨fun s s' h => ?_, fun g s hc => absurd hc (hcut g s)⟩
  obtain ⟨heq, hnear⟩ := (hm.near s s' h).resolve_right fun hc => hcut _ _ hc.2
  exact .inl (near_catchError heq hnear)

/-- What is printed between two runs: that the first one has ended, with its result, and that the second
one is about to start. That is nothing, unless these lines would be written to a log that is closed. -/
def Config.between (cfg : Config) (s : Store) (result : Value) : List String :=
  cfg.printed s (.finished result) ++ cfg.printed s .running

theorem Config.between_eq_nil {cfg : Config} {s : Store} (h : cfg.logLevel = 0 ∨ s.log.isOpen = true)
    (result : Value) : cfg.between s result = [] := by
  rcases h with h | h <;> simp [between, printed, h]

/-- Whether the lines are printed depends on the log alone. -/
theorem Config.between_congr {cfg : Config} {s s' : Store} (h : s'.log.isOpen = s.log.isOpen)
    (result : Value) : cfg.between s' result = cfg.between s result := by
  unfold between printed
  rw [h]

/-- A run leaves the log as closed or open as it was. -/
theorem isOpen_runWithin {cfg : Config} (hn : cfg.natives = standard ∨ cfg.natives.Prints) (limit : Nat)
    (program : Node Unit) (scope : Nat) (s : Store) :
    (runWithin cfg limit program scope s).2.log.isOpen = s.log.isOpen := by
  have heval := (eval_follows (follows_cutting hn) limit program scope).cut s _
    (prints_note cfg 1 .running s)
  exact (heval.trans (prints_runWithin cfg limit program scope s)).2

theorem beside_between (cfg : Config) (result : Value) (s : Store) :
    Store.Beside s.output.toList (s.output.toList ++ cfg.between s result) s
      (note cfg 1 .running (note cfg 1 (.finished result) s).2).2 := by
  have hfinished := note_keeps cfg 1 (.finished result) s
  have hrunning := note_keeps cfg 1 .running (note cfg 1 (.finished result) s).2
  have hopen := (prints_note cfg 1 (.finished result) s).2
  refine ⟨hrunning.1.trans hfinished.1, hrunning.2.trans hfinished.2, ?_, [], by simp, ?_⟩
  · exact (prints_note cfg 1 .running _).2.trans hopen
  · rw [output_note, output_note, Config.between, Config.printed, Config.printed, Config.printed, hopen]
    simp

/-- A run, after its start was written down. -/
def finishRun (cfg : Config) (limit : Nat) (program : Node Unit) (scope : Nat) : Run Value := do
  let result ← catchError (eval cfg limit program scope)
  note cfg 1 (.finished result)
  return result

theorem runWithin_eq_finishRun (cfg : Config) (limit : Nat) (program : Node Unit) (scope : Nat) (s : Store) :
    runWithin cfg limit program scope s = finishRun cfg limit program scope (note cfg 1 .running s).2 :=
  runWithin_apply cfg limit program scope s

/-- An evaluation that has a value has it for the result of its run, unless that is nested too deeply to
be written down. -/
theorem finishRun_of_ok {cfg : Config} {limit scope : Nat} {program : Node Unit} {s s' : Store} {v : Value}
    (h : eval cfg limit program scope s = (.ok v, s')) :
    ((finishRun cfg limit program scope s).1 = .ok v ∨
      (finishRun cfg limit program scope s).1 = .error .tooDeep) ∧
    (finishRun cfg limit program scope s).2 = (note cfg 1 (.finished v) s').2 := by
  have hcatch : catchError (eval cfg limit program scope) s = (.ok v, s') := by
    rw [catchError, tryCatch_apply, h]
  rw [finishRun, bind_of_ok hcatch]
  refine ⟨finish_cases cfg v s', ?_⟩
  rw [bind_apply]
  rcases note cfg 1 (.finished v) s' with ⟨_ | _, _⟩ <;> rfl

/-- Runs whose evaluations come to the same come to the same. -/
theorem finishRun_congr {cfg : Config} {limit scope : Nat} {program program' : Node Unit} {s s' : Store}
    (h : eval cfg limit program scope s = eval cfg limit program' scope s') :
    finishRun cfg limit program scope s = finishRun cfg limit program' scope s' := by
  rw [finishRun, finishRun, bind_apply, bind_apply, catchError, catchError, tryCatch_apply, tryCatch_apply, h]

theorem follows_finishRun {cfg : Config} (hn : cfg.natives = standard ∨ cfg.Forgets)
    (before before' : List String) (limit : Nat) (program : Node Unit) (scope : Nat) :
    (beside cfg before before').Follows (finishRun cfg limit program scope)
      (finishRun cfg limit program scope) := by
  have heval := eval_follows (follows_beside hn before before') limit program scope
  refine .bind (.catchError (fun _ _ => id) heval) fun v => ?_
  exact .bind (follows_note (by decide) (.finished v)) fun _ => .pure v

/-- **A program after one that passes** does the same as if it were a part of it, the lines between the
two runs apart. -/
theorem runWithin_append_of_passes {cfg : Config} (hn : cfg.natives = standard ∨ cfg.Forgets)
    {depth scope : Nat} {first second : List (Node Unit)} {s s₁ : Store}
    (hpass : Passes (eval cfg depth) scope first (note cfg 1 .running s).2 s₁) (hsecond : second ≠ []) :
    let one := runWithin cfg (depth + 1) (.program first) scope s
    let two := runWithin cfg (depth + 1) (.program second) scope one.2
    let both := runWithin cfg (depth + 1) (.program (first ++ second)) scope s
    both.1 = two.1 ∧ ∃ before result, (one.1 = .ok result ∨ one.1 = .error .tooDeep) ∧
      Store.Beside before (before ++ cfg.between s result) both.2 two.2 := by
  intro one two both
  obtain ⟨v, hv⟩ := programBody_append_of_passes hpass .null
  have hfirst : eval cfg (depth + 1) (.program first) scope (note cfg 1 .running s).2 = (.ok v, s₁) := by
    have halone := hv []
    rwa [List.append_nil] at halone
  obtain ⟨hresult, hone⟩ := finishRun_of_ok hfirst
  rw [← runWithin_eq_finishRun] at hresult hone
  -- the evaluation of both programs goes on where that of the first one ends
  have hboth : both = finishRun cfg (depth + 1) (.program second) scope s₁ := by
    obtain ⟨n, ns, rfl⟩ := List.exists_cons_of_ne_nil hsecond
    exact (runWithin_eq_finishRun ..).trans (finishRun_congr (hv (n :: ns)))
  have htwo : two = finishRun cfg (depth + 1) (.program second) scope
      (note cfg 1 .running (note cfg 1 (.finished v) s₁).2).2 := by
    rw [← hone]
    exact runWithin_eq_finishRun ..
  have hopen : s₁.log.isOpen = s.log.isOpen := by
    have hafter := isOpen_runWithin (hn.imp_right And.left) (depth + 1) (.program first) scope s
    rw [← hafter, hone, (prints_note cfg 1 (.finished v) s₁).2]
  have hstart := beside_between cfg v s₁
  rw [Config.between_congr hopen] at hstart
  rw [hboth, htwo]
  rcases (follows_finishRun hn _ _ (depth + 1) (.program second) scope).near _ _ hstart with
    ⟨heq, hbeside⟩ | ⟨-, hfalse⟩
  · exact ⟨heq, _, v, hresult, hbeside⟩
  · exact absurd hfalse id

/-- **A program after one that does not pass** does not run. -/
theorem runWithin_append_of_not_passes {cfg : Config} {depth scope : Nat} {first : List (Node Unit)}
    (second : List (Node Unit)) {s : Store}
    (h : ¬∃ s₁, Passes (eval cfg depth) scope first (note cfg 1 .running s).2 s₁) :
    runWithin cfg (depth + 1) (.program (first ++ second)) scope s =
      runWithin cfg (depth + 1) (.program first) scope s := by
  rw [runWithin_eq_finishRun, runWithin_eq_finishRun]
  exact finishRun_congr (programBody_append_of_not_passes second .null h)

/-! ## Texts -/

/-- The program comes to its end: none of its statements goes wrong or returns. -/
def Finishes (cfg : Config) (body : List (Node Unit)) (scope : Nat) (s : Store) : Prop :=
  ∃ s', Passes (eval cfg (depthLimit - 1)) scope body (note cfg 1 .running s).2 s'

theorem Parsed.program_strip (p : Parsed) : p.program.strip = .program (p.body.map Node.strip) := by
  rw [Parsed.program, Node.strip, Node.mapNotes, Node.mapNotesAll_eq_map]
  rfl

/-- **Programs in pieces.** Let two texts be programs, the first of which ends with a semicolon and the
second of which has a statement. With a line break between them they are a program with the statements
of both. From any store and in any scope, it has the result of the second program, run after the first
one, leaves the same bindings and prints the same, if the first one comes to its end. If that goes wrong
or returns, everything is as if it were alone. (Where the log is closed, the lines about the end of one
run and the start of the other are printed between.) -/
theorem run_in_pieces (cfg : Config) (hn : cfg.natives = standard ∨ cfg.Forgets) {a b : String}
    (ha : (parseSource a).problems = []) (hb : (parseSource b).problems = [])
    (hlast : ∃ t ∈ (scan a).dropLast.getLast?, t.kind = .semicolon) (hbody : (parseSource b).body ≠ []) :
    let whole := parseSource (a ++ "\n" ++ b)
    whole.problems = [] ∧
    whole.body.map Node.strip = (parseSource a).body.map Node.strip ++ (parseSource b).body.map Node.strip ∧
    ∀ (scope : Nat) (s : Store),
      let one := run cfg (parseSource a).program.strip scope s
      let two := run cfg (parseSource b).program.strip scope one.2
      let both := run cfg whole.program.strip scope s
      (Finishes cfg ((parseSource a).body.map Node.strip) scope s →
        both.1 = two.1 ∧ both.2.scopes = two.2.scopes ∧
        (cfg.logLevel = 0 ∨ s.log.isOpen = true → both.2.output = two.2.output) ∧
        ∃ before result more, (one.1 = .ok result ∨ one.1 = .error .tooDeep) ∧
          both.2.output.toList = before ++ more ∧
          two.2.output.toList = before ++ cfg.between s result ++ more) ∧
      (¬Finishes cfg ((parseSource a).body.map Node.strip) scope s → both = one) := by
  intro whole
  obtain ⟨hproblems, hwhole⟩ := parseSource_append_line ha hb hlast
  rw [List.map_append] at hwhole
  refine ⟨hproblems, hwhole, fun scope s => ?_⟩
  have hprogram : whole.program.strip =
      .program ((parseSource a).body.map Node.strip ++ (parseSource b).body.map Node.strip) := by
    rw [Parsed.program_strip, hwhole]
  rw [hprogram, Parsed.program_strip, Parsed.program_strip]
  intro one two both
  refine ⟨fun ⟨s', hpass⟩ => ?_, runWithin_append_of_not_passes _⟩
  have hsecond : (parseSource b).body.map Node.strip ≠ [] := by simpa using hbody
  obtain ⟨heq, before, result, hresult, hbeside⟩ : both.1 = two.1 ∧ ∃ before result,
      (one.1 = .ok result ∨ one.1 = .error .tooDeep) ∧
      Store.Beside before (before ++ cfg.between s result) both.2 two.2 :=
    runWithin_append_of_passes hn hpass hsecond
  obtain ⟨more, hboth, htwo⟩ := hbeside.output
  refine ⟨heq, hbeside.scopes.symm, fun hquiet => ?_, before, result, more, hresult, hboth, htwo⟩
  rw [Config.between_eq_nil hquiet, List.append_nil] at htwo
  exact Array.toList_inj.1 (hboth.trans htwo.symm)

/-- A piece that uses what the first one has bound, and one that is not reached. -/
theorem run_in_pieces_bound :
    let second := parseSource "puts(x);"
    let whole := parseSource ("value x = 1;" ++ "\n" ++ "puts(x);")
    let one := run {} (parseSource "value x = 1;").program.strip 0 (Store.start false)
    let two := run {} second.program.strip 0 one.2
    let both := run {} whole.program.strip 0 (Store.start false)
    second.problems = [] ∧ second.body ≠ [] ∧ whole.problems = [] ∧ both.1 = two.1 ∧
      both.2.scopes = two.2.scopes ∧ both.2.output = two.2.output ∧ two.2.output = #["1"] ∧
      run {} (parseSource ("return 5;" ++ "\n" ++ "puts(x);")).program.strip 0 (Store.start false) =
        run {} (parseSource "return 5;").program.strip 0 (Store.start false) := by
  intro second whole one two both
  have hfirst : (parseSource "value x = 1;").body.map Node.strip =
      [.valueStmt () ⟨"x", ()⟩ (.integer () 1)] := by with_unfolding_all rfl
  have hreturn : (parseSource "return 5;").body.map Node.strip = [.returnStmt () (.integer () 5)] := by
    with_unfolding_all rfl
  have hsecond : second.body.map Node.strip =
      [.expressionStmt () (.call () (.identifier () "puts") [.identifier () "x"])] := by
    with_unfolding_all rfl
  have hclean (source : String) (h : (parseSource source).problems.isEmpty = true) :
      (parseSource source).problems = [] := List.isEmpty_iff.1 h
  have hproblems : second.problems = [] := hclean _ (by decide +kernel)
  have hbody : second.body ≠ [] := by
    intro h
    rw [h] at hsecond
    cases hsecond
  obtain ⟨hwhole, -, hruns⟩ := run_in_pieces {} (.inl rfl)
    (hclean "value x = 1;" (by decide +kernel)) hproblems
    ⟨⟨.semicolon, ";", 1, 12⟩, by decide +kernel, rfl⟩ hbody
  obtain ⟨-, -, hstops⟩ := run_in_pieces {} (.inl rfl) (hclean "return 5;" (by decide +kernel)) hproblems
    ⟨⟨.semicolon, ";", 1, 9⟩, by decide +kernel, rfl⟩ hbody
  have hfinishes : Finishes {} ((parseSource "value x = 1;").body.map Node.strip) 0 (Store.start false) := by
    rw [hfirst]
    exact ⟨_, .cons (v := .null) rfl (fun _ => nofun) (.nil _)⟩
  have hnot : ¬Finishes {} ((parseSource "return 5;").body.map Node.strip) 0 (Store.start false) := by
    rw [hreturn]
    rintro ⟨s', _ | ⟨heval, hv, -⟩⟩
    cases heval
    exact hv _ rfl
  obtain ⟨hresult, hscopes, houtput, -⟩ := (hruns 0 (Store.start false)).1 hfinishes
  refine ⟨hproblems, hbody, hwhole, hresult, hscopes, houtput (.inl rfl), ?_, (hstops 0 _).2 hnot⟩
  show (run {} second.program.strip 0 (run {} (parseSource "value x = 1;").program.strip 0 _).2).2.output = _
  rw [Parsed.program_strip, Parsed.program_strip, hfirst, hsecond]
  decide +kernel

/-- Once the log is closed, what would be written there is printed, and two runs print two lines more than one:
those of the end of the first run and of the start of the second one. -/
theorem run_in_pieces_log_closed :
    let cfg : Config := { logLevel := 1 }
    let s := cfg.start.closeLog
    let one := run cfg (parseSource "1;").program.strip 0 s
    let two := run cfg (parseSource "2;").program.strip 0 one.2
    let both := run cfg (parseSource ("1;" ++ "\n" ++ "2;")).program.strip 0 s
    (parseSource "1;").problems = [] ∧ (parseSource "2;").problems = [] ∧ (parseSource "2;").body ≠ [] ∧
      (∃ t ∈ (scan "1;").dropLast.getLast?, t.kind = .semicolon) ∧
      Finishes cfg ((parseSource "1;").body.map Node.strip) 0 s ∧
      two.2.output = #["run program", "result INTEGER: 1", "run program", "result INTEGER: 2"] ∧
      both.2.output = #["run program", "result INTEGER: 2"] := by
  intro cfg s one two both
  have hfirst : (parseSource "1;").body.map Node.strip = [.expressionStmt () (.integer () 1)] := by
    with_unfolding_all rfl
  have hsecond : (parseSource "2;").body.map Node.strip = [.expressionStmt () (.integer () 2)] := by
    with_unfolding_all rfl
  have hwhole : (parseSource ("1;" ++ "\n" ++ "2;")).body.map Node.strip =
      [.expressionStmt () (.integer () 1), .expressionStmt () (.integer () 2)] := by
    with_unfolding_all rfl
  refine ⟨List.isEmpty_iff.1 (by decide +kernel), List.isEmpty_iff.1 (by decide +kernel), ?_,
    ⟨⟨.semicolon, ";", 1, 2⟩, by decide +kernel, rfl⟩, ?_, ?_, ?_⟩
  · intro h
    rw [h] at hsecond
    cases hsecond
  · rw [hfirst]
    exact ⟨_, .cons (v := .integer 1) rfl (fun _ => nofun) (.nil _)⟩
  · show (run cfg (parseSource "2;").program.strip 0 (run cfg (parseSource "1;").program.strip 0 s).2).2.output = _
    rw [Parsed.program_strip, Parsed.program_strip, hfirst, hsecond]
    decide +kernel
  · show (run cfg (parseSource ("1;" ++ "\n" ++ "2;")).program.strip 0 s).2.output = _
    rw [Parsed.program_strip, hwhole]
    decide +kernel

end SepiaLang
