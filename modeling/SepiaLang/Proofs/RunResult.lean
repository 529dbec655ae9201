import SepiaLang.Proofs.Guarded
import SepiaLang.Proofs.LogLevel
import SepiaLang.Proofs.Scan.Checked
import SepiaLang.Proofs.WordRange

/-!
# The results of runs

Reading a text never stops, and evaluating its program always comes to a value, which may be an error.
The run of the program has that value for its result, with one exception: if results are written down,
one that is nested too deeply for its text to be made stops the run after all.

* `Cursor.checkedTokens_eq`: taking the tokens of a text looks nothing up in vain. `readSource_result`:
  reading comes to what is read.
* `catchError_eval`: evaluating a program comes to a value. `runWithin_result`: what the run makes of it.
* **`runs_have_results`**: programs that are run one after the other.
* **`run_of_nested_result`**: a run that is stopped by its own result.
-/

namespace SepiaLang

open SepiaLang.Computation

/-! ## Reading -/

theorem note_of_fits (cfg : Config) (level : Nat) {entry : LogEntry}
    (h : entry.fits displayLimit = true) :
    Keeps (fun _ => True) (fun _ => False) (fun _ => True) (note cfg level entry) := by
  intro s _
  rw [note_result, h]
  simp

/-- Reading comes to what is read, and writes it down. -/
theorem readSource_result (cfg : Config) (source : String) (s : Store) :
    (readSource cfg source s).1 = .ok (parseSource source) := by
  have hread : Keeps (fun _ => True) (fun _ => False) (· = parseSource source)
      (readSource cfg source) := by
    refine Keeps.bind (Keeps.forM (fun line => note_of_fits cfg 4 rfl) _) fun _ _ => ?_
    exact Keeps.bind (note_of_fits cfg 1 rfl) fun _ _ => Keeps.pure rfl
  rcases hx : readSource cfg source s with ⟨stop | parsed, s'⟩
  · exact (hread.of_error trivial hx).2.elim
  · exact congrArg Except.ok (hread.of_ok trivial hx).2

/-! ## Running -/

/-- The value that the evaluation of a program comes to. -/
theorem catchError_eval {cfg : Config} (hn : cfg.natives.Safe openGuard) (limit : Nat)
    (body : List (Node Unit)) (scope : Nat) (s : Store) :
    ∃ v, (catchError (eval cfg limit (.program body) scope) s).1 = .ok v := by
  have hreturns : ∀ v, (eval cfg limit (.program body) scope s).1 ≠ .error (.returning v) :=
    fun v hv => ((eval_program_stops cfg limit body scope).of_error trivial (Prod.ext hv rfl)).2 v rfl
  have hfault := eval_ne_fault hn limit (.program body) scope s
  rw [catchError, tryCatch_apply]
  rcases hr : eval cfg limit (.program body) scope s with ⟨stop | v, s'⟩ <;> rw [hr] at hreturns hfault
  · cases stop with
    | returning v => exact absurd rfl (hreturns v)
    | failed e => exact ⟨_, rfl⟩
    | tooDeep => exact ⟨_, rfl⟩
    | fault f => exact absurd rfl (hfault f)
  · exact ⟨v, rfl⟩

/-- The value is the result of the run, if it need not be written down or can be. -/
theorem runWithin_result {cfg : Config} {limit : Nat} {program : Node Unit} {scope : Nat} {s : Store}
    {v : Value}
    (h : (catchError (eval cfg limit program scope) (note cfg 1 .running s).2).1 = .ok v) :
    (runWithin cfg limit program scope s).1 =
      if cfg.logLevel = 0 ∨ v.fits displayLimit then .ok v else .error .tooDeep := by
  obtain ⟨s', hs'⟩ : ∃ s', catchError (eval cfg limit program scope) (note cfg 1 .running s).2 =
      (.ok v, s') := ⟨_, Prod.ext h rfl⟩
  have hnote := note_result cfg 1 (.finished v) s'
  rw [runWithin_apply, bind_of_ok hs']
  by_cases hwritten : cfg.logLevel = 0 ∨ v.fits displayLimit = true
  · rw [if_neg (by simp only [LogEntry.fits]; grind)] at hnote
    rw [bind_of_ok (Prod.ext hnote rfl), if_pos hwritten]
    rfl
  · rw [if_pos (by simp only [LogEntry.fits]; grind)] at hnote
    rw [bind_of_error (Prod.ext hnote rfl), if_neg hwritten]

/-- **Programs have results.** Let programs be read from texts and run in a scope, one after the other,
from any store and at any level of the log. At any place of a text an operator is read only where the
table has one, and the scanner that asks the table before it looks a character up takes the token there.
For each text, that scanner takes all its tokens, and reading it comes to what is read; no evaluation
that is made on the way of its program is at fault: it divides by zero nowhere, asks for the key of no
value that has none, calls no native function without its arguments, and takes no element that an array
does not have; and the whole evaluation comes to a value, which the run has for its result, unless it
must be written down and is nested too deeply for that. -/
theorem runs_have_results (level limit scope : Nat) (s : Store) (sources : List String) :
    let cfg : Config := { logLevel := level }
    (∀ (c : Cursor) (ch : Char) (tail : List Char), c.rest = ch :: tail →
      c.readOperator.isSome = (compound? ch).isSome ∧ c.checkedTokenAt ch = .ok (c.tokenAt ch)) ∧
    ∀ before source after, sources = before ++ source :: after →
      let s₁ := storeAfter cfg limit scope s before
      let t₁ := sourceTask cfg limit scope s₁ source
      (Cursor.start source.toList).checkedTokens = .ok (scan source) ∧
      (readSource cfg source s₁).1 = .ok (parseSource source) ∧
      (∀ t, t₁.Reaches cfg t → ∀ f, (t.result cfg).1 ≠ .error (.fault f)) ∧
      ∃ v, (catchError (eval cfg limit t₁.tree scope) t₁.store).1 = .ok v ∧
        (runSource cfg limit scope s₁ source).1 =
          if level = 0 ∨ v.fits displayLimit then .ok v else .error .tooDeep := by
  intro cfg
  refine ⟨fun c ch tail h => ⟨Cursor.isSome_readOperator h, Cursor.checkedTokenAt_eq h⟩, ?_⟩
  intro before source after _ s₁ t₁
  have hn : cfg.natives.Safe openGuard := standard_safe
  refine ⟨Cursor.checkedTokens_eq _, readSource_result cfg source s₁, fun t _ => ?_, ?_⟩
  · exact eval_ne_fault hn t.depth t.tree t.scope t.store
  · obtain ⟨body, hbody⟩ : ∃ body, (parseSource source).program.strip = .program body := ⟨_, rfl⟩
    obtain ⟨v, hv⟩ := catchError_eval hn limit body scope t₁.store
    have hvalue : (catchError (eval cfg limit t₁.tree scope) t₁.store).1 = .ok v := by
      change (catchError (eval cfg limit (parseSource source).program.strip scope) t₁.store).1 = .ok v
      rw [hbody]
      exact hv
    exact ⟨v, hvalue, runWithin_result hvalue⟩

/-! ## A result that is nested too deeply -/

/-- So many arrays inside each other, with zero in the innermost one. -/
def Value.Nested : Nat → Value → Prop
  | 0, v => v = .integer 0
  | k + 1, v => ∃ id w, v = .array id [w] ∧ w.Nested k

theorem Value.Nested.cases {v : Value} :
    ∀ {k : Nat}, v.Nested k → v = .integer 0 ∨ ∃ id w, v = .array id [w]
  | 0, h => .inl h
  | _ + 1, ⟨id, w, h, _⟩ => .inr ⟨id, w, h⟩

theorem Value.Nested.not_fits : ∀ {k : Nat} {v : Value}, v.Nested k → v.fits k = false
  | 0, _, _ => by rw [fits]
  | k + 1, _, ⟨id, w, rfl, hw⟩ => by
    rw [fits, List.all_cons, hw.not_fits, Bool.false_and]

/-- The name `a` is all that is bound, to arrays inside each other. -/
def Store.BindsNested (k : Nat) (s : Store) : Prop :=
  ∃ v : Value, s.scopes = #[{ bindings := [("a", v)] }] ∧ v.Nested k

section Nested

variable {cfg : Config} {limit scope : Nat} {s s' : Store} {source : String} {program : Node Unit}
  {v : Value}

variable (cfg limit scope s) in
/-- A program is evaluated from the scopes at hand. -/
theorem result_sourceTask (hprogram : (parseSource source).program.strip = program) :
    ∃ nextId output log, (sourceTask cfg limit scope s source).result cfg =
      eval cfg limit program scope ⟨s.scopes, nextId, output, log⟩ := by
  have hscopes : (sourceTask cfg limit scope s source).store.scopes = s.scopes :=
    (note_keeps cfg 1 .running _).1.trans (calm_readSource cfg source s rfl).1
  subst hprogram
  rw [← hscopes]
  exact ⟨_, _, _, rfl⟩

theorem catchError_of_ok {m : Run Value} (h : m s = (.ok v, s')) : catchError m s = (.ok v, s') := by
  rw [catchError, tryCatch_apply, h]

/-- The scopes after a run are those after the evaluation. -/
theorem scopes_runSource (h : (sourceTask cfg limit scope s source).result cfg = (.ok v, s')) :
    (runSource cfg limit scope s source).2.scopes = s'.scopes := by
  have hnote := (note_keeps cfg 1 (.finished v) s').1
  have hcaught : catchError (eval cfg limit (parseSource source).program.strip scope)
      (note cfg 1 .running (readSource cfg source s).2).2 = (.ok v, s') := catchError_of_ok h
  rw [runSource, runWithin_apply, bind_of_ok hcaught, bind_apply]
  rcases hx : note cfg 1 (.finished v) s' with ⟨stop | u, s''⟩ <;> rw [hx] at hnote
  · exact hnote
  · exact hnote

theorem bindsNested_first :
    (runSource { logLevel := 1 } depthLimit globalScope (Store.start true) "value a = 0;").2.BindsNested
      0 := by
  let program : Node Unit := .program [.valueStmt () ⟨"a", ()⟩ (.integer () 0)]
  have hprogram : (parseSource "value a = 0;").program.strip = program := by with_unfolding_all rfl
  obtain ⟨nextId, output, log, hresult⟩ :=
    result_sourceTask { logLevel := 1 } depthLimit globalScope (Store.start true) hprogram
  have heval : eval { logLevel := 1 } depthLimit program globalScope ⟨#[{}], nextId, output, log⟩ =
      (.ok .null, ⟨#[{ bindings := [("a", .integer 0)] }], nextId, output, log⟩) := by
    with_unfolding_all rfl
  exact ⟨.integer 0, scopes_runSource (hresult.trans heval), rfl⟩

/-- One array more around what is bound. -/
theorem Store.BindsNested.wrap {k : Nat} (h : s.BindsNested k) :
    (runSource { logLevel := 1 } depthLimit globalScope s "update a = [a];").2.BindsNested (k + 1) := by
  let program : Node Unit := .program [.updateStmt () ⟨"a", ()⟩ (.array () [.identifier () "a"])]
  have hprogram : (parseSource "update a = [a];").program.strip = program := by
    with_unfolding_all rfl
  obtain ⟨v, hv, hnested⟩ := h
  obtain ⟨nextId, output, log, hresult⟩ :=
    result_sourceTask { logLevel := 1 } depthLimit globalScope s hprogram
  rw [hv] at hresult
  have heval : eval { logLevel := 1 } depthLimit program globalScope
      ⟨#[{ bindings := [("a", v)] }], nextId, output, log⟩ =
        (.ok .null, ⟨#[{ bindings := [("a", .array nextId [v])] }], nextId + 1, output, log⟩) := by
    obtain rfl | ⟨id, w, rfl⟩ := hnested.cases
    all_goals with_unfolding_all rfl
  exact ⟨.array nextId [v], scopes_runSource (hresult.trans heval), nextId, v, rfl, hnested⟩

theorem Store.BindsNested.storeAfter : ∀ {k : Nat} {s : Store} (n : Nat), s.BindsNested k →
    (SepiaLang.storeAfter { logLevel := 1 } depthLimit globalScope s
      (List.replicate n "update a = [a];")).BindsNested (k + n)
  | _, _, 0, h => h
  | k, _, n + 1, h => by
    have hrest := h.wrap.storeAfter n
    rwa [Nat.add_assoc, Nat.add_comm 1 n] at hrest

/-- The programs that put an array around an array again and again. -/
theorem bindsNested_storeAfter (n : Nat) :
    (storeAfter { logLevel := 1 } depthLimit globalScope (Store.start true)
      ("value a = 0;" :: List.replicate n "update a = [a];")).BindsNested n := by
  have h := bindsNested_first.storeAfter n
  rwa [Nat.zero_add] at h

/-- What is bound is the value of the name, whether or not it can be written down. -/
theorem Store.BindsNested.result {k : Nat} (h : s.BindsNested k) :
    ∃ v s', v.Nested k ∧ (sourceTask { logLevel := 1 } depthLimit globalScope s "a;").result
      { logLevel := 1 } = (.ok v, s') := by
  let program : Node Unit := .program [.expressionStmt () (.identifier () "a")]
  have hprogram : (parseSource "a;").program.strip = program := by with_unfolding_all rfl
  obtain ⟨v, hv, hnested⟩ := h
  obtain ⟨nextId, output, log, hresult⟩ :=
    result_sourceTask { logLevel := 1 } depthLimit globalScope s hprogram
  rw [hv] at hresult
  have heval : eval { logLevel := 1 } depthLimit program globalScope
      ⟨#[{ bindings := [("a", v)] }], nextId, output, log⟩ =
        (.ok v, ⟨#[{ bindings := [("a", v)] }], nextId, output, log⟩) := by
    obtain rfl | ⟨id, w, rfl⟩ := hnested.cases
    all_goals with_unfolding_all rfl
  exact ⟨v, _, hnested, hresult.trans heval⟩

end Nested

/-- **A run that is stopped by its own result.** An interpreter that writes down its results is given
programs without problems, which put an array around an array again and again. Evaluating the last
one comes to a value, but the run has none. -/
theorem run_of_nested_result :
    let cfg : Config := { logLevel := 1 }
    let sources := "value a = 0;" :: List.replicate displayLimit "update a = [a];"
    let s := storeAfter cfg depthLimit globalScope cfg.start sources
    (∀ source ∈ "a;" :: sources, (parseSource source).problems = []) ∧
      (∃ v, ((sourceTask cfg depthLimit globalScope s "a;").result cfg).1 = .ok v) ∧
      (runSource cfg depthLimit globalScope s "a;").1 = .error .tooDeep := by
  intro cfg sources s
  obtain ⟨v, s', hnested, hresult⟩ := (bindsNested_storeAfter displayLimit).result
  refine ⟨fun source hsource => ?_, ⟨v, congrArg Prod.fst hresult⟩, ?_⟩
  · rcases List.mem_cons.1 hsource with rfl | hsource
    · with_unfolding_all rfl
    rcases List.mem_cons.1 hsource with rfl | hsource
    · with_unfolding_all rfl
    · rw [List.eq_of_mem_replicate hsource]
      with_unfolding_all rfl
  · have hcaught := congrArg Prod.fst (catchError_of_ok hresult)
    refine (runWithin_result hcaught).trans (if_neg ?_)
    rw [hnested.not_fits]
    exact nofun

end SepiaLang
