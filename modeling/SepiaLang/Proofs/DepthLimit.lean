import SepiaLang.Proofs.SideBySide

/-!
# The bound on nesting

How deeply evaluations may be nested is not a matter of the language. With a larger bound a program
does the same, unless the smaller one stopped it, and then it had printed nothing that it does not
print with the larger one as well.

* `Pairing.eval_follows_of_le`: evaluation within a larger bound goes on where the smaller one stops it.
* `eval_of_le`: an evaluation that is not stopped comes to the same within a larger bound.
* `Config.printed`: what an entry about a run adds to the output.
* **`runWithin_of_le`**: so does a run, and the error says that it was stopped.
-/

namespace SepiaLang

open SepiaLang.Computation

/-- The native functions take nothing back that was printed, and leave the log as closed or open as
it was. -/
def Registry.Prints (natives : Registry) : Prop :=
  ∀ entry ∈ natives, ∀ (args : List Value) (s : Store), s.Prints (entry.2.call args s).2

/-- One store, and a run that may be cut off: what it has printed then, the other run has printed
too. -/
def cutting (cfg : Config) : Pairing cfg cfg where
  Near := Eq
  Cut := Store.Prints
  natives := .refl cfg
  scopes_eq := by rintro s _ rfl; rfl
  nextId_eq := by rintro s _ rfl; rfl
  scopes := by rintro s _ rfl scopes; rfl
  nextId := by rintro s _ rfl nextId; rfl
  print := by rintro s _ rfl line; rfl
  note := by
    rintro s _ rfl level - entry
    exact .inl ⟨rfl, rfl⟩
  cut := Store.Prints.trans

theorem follows_cutting {cfg : Config} (hn : cfg.natives = standard ∨ cfg.natives.Prints) :
    cfg.natives.Follows (cutting cfg) := by
  rcases hn with hn | hn
  · rw [hn]
    exact standard_follows
  · intro entry hentry args
    refine ⟨?_, fun g s hc => hc.trans (hn entry hentry args s)⟩
    rintro s _ rfl
    exact .inl ⟨rfl, rfl⟩

/-- **A larger bound.** Where the smaller bound stops an evaluation, the other one goes on. -/
theorem Pairing.eval_follows_of_le {cfg : Config} {P : Pairing cfg cfg} (hn : cfg.natives.Follows P)
    (hcut : ∀ s s', P.Near s s' → P.Cut s s') {few many : Nat} (h : few ≤ many) :
    Evaluator.Follows P (eval cfg few) (eval cfg many) := by
  induction few generalizing many with
  | zero =>
    intro n i
    -- nothing was done yet when the first run is stopped
    have hmany := (eval_follows hn many n i).cut
    refine ⟨?_, hmany⟩
    intro s s' hs
    exact .inr ⟨rfl, hmany s s' (hcut s s' hs)⟩
  | succ few ih =>
    obtain ⟨many, rfl⟩ : ∃ k, many = k + 1 := ⟨many - 1, by omega⟩
    exact layer_follows hn (ih (by omega))

theorem eval_follows_of_le {cfg : Config} (hn : cfg.natives.Follows (cutting cfg)) {few many : Nat}
    (h : few ≤ many) : Evaluator.Follows (cutting cfg) (eval cfg few) (eval cfg many) := by
  refine Pairing.eval_follows_of_le hn ?_ h
  rintro s _ rfl
  exact .refl s

/-- One store, and a run that may be cut off, whatever the other one does then. -/
def abandoning (cfg : Config) : Pairing cfg cfg :=
  { cutting cfg with
    Cut := fun _ _ => True
    note := by
      intro s s' h level hlevel entry
      exact ((cutting cfg).note h hlevel entry).imp_right fun hdeep => ⟨hdeep.1, trivial⟩
    cut := fun _ _ => trivial }

/-- An evaluation that is not stopped by its bound comes to the same within a larger one, whatever the
native functions do. -/
theorem eval_of_le (cfg : Config) {few many : Nat} (h : few ≤ many) (n : Node Unit) (i : Nat) (s : Store)
    (hfew : (eval cfg few n i s).1 ≠ .error .tooDeep) : eval cfg few n i s = eval cfg many n i s := by
  have hn : cfg.natives.Follows (abandoning cfg) := by
    intro entry _ args
    refine ⟨?_, fun _ _ _ => trivial⟩
    rintro s _ rfl
    exact .inl ⟨rfl, rfl⟩
  rcases (Pairing.eval_follows_of_le hn (fun _ _ _ => trivial) h n i).near s s rfl with heq | hdeep
  · exact Prod.ext heq.1 heq.2
  · exact absurd hdeep.1 hfew

/-! ## Programs -/

/-- What an entry of the first level adds to the output. It is printed if the log is closed. -/
def Config.printed (cfg : Config) (s : Store) (entry : LogEntry) : List String :=
  if 1 ≤ cfg.logLevel ∧ s.log.isOpen = false ∧ entry.fits displayLimit then [entry.render] else []

theorem output_note (cfg : Config) (entry : LogEntry) (s : Store) :
    (note cfg 1 entry s).2.output.toList = s.output.toList ++ cfg.printed s entry := by
  unfold note Config.printed
  by_cases hlevel : 1 ≤ cfg.logLevel
  · by_cases hfits : entry.fits displayLimit = true
    · rw [if_pos hlevel, if_pos hfits]
      show (s.write entry).output.toList = _
      unfold Store.write
      cases hopen : s.log.isOpen <;> simp [Store.print, hlevel, hfits]
    · rw [if_pos hlevel, if_neg hfits]
      show s.output.toList = _
      simp [hfits]
  · rw [if_neg hlevel]
    show s.output.toList = _
    simp [hlevel]

/-- A run, after its start was written down. -/
theorem runWithin_apply (cfg : Config) (limit : Nat) (program : Node Unit) (i : Nat) (s : Store) :
    runWithin cfg limit program i s =
      (catchError (eval cfg limit program i) >>= fun v => do note cfg 1 (.finished v); return v)
        (note cfg 1 .running s).2 := by
  refine bind_of_ok (a := ()) ?_ _
  unfold note
  split <;> rfl

/-- The error of a program that was stopped. -/
def depthError (id : Nat) : Value := .error id "maximum recursion depth exceeded"

/-- A run that is stopped has the error for its result, and what was printed until then for its
output. -/
theorem runWithin_of_tooDeep {cfg : Config} {limit : Nat} {program : Node Unit} {i : Nat} {s s' : Store}
    (h : eval cfg limit program i (note cfg 1 .running s).2 = (.error .tooDeep, s')) :
    (runWithin cfg limit program i s).1 = .ok (depthError s'.nextId) ∧
      (runWithin cfg limit program i s).2.output.toList =
        s'.output.toList ++ cfg.printed s' (.finished (depthError s'.nextId)) := by
  let caught : Store := { s' with nextId := s'.nextId + 1 }
  have hcatch : catchError (eval cfg limit program i) (note cfg 1 .running s).2 =
      (.ok (depthError s'.nextId), caught) := by
    rw [catchError, tryCatch_apply, h]
    rfl
  have hfinish : note cfg 1 (.finished (depthError s'.nextId)) caught =
      (.ok (), (note cfg 1 (.finished (depthError s'.nextId)) caught).2) := by
    have hfits : (LogEntry.finished (depthError s'.nextId)).fits displayLimit = true := rfl
    unfold note
    rw [hfits]
    split <;> rfl
  rw [runWithin_apply, bind_of_ok hcatch, bind_of_ok hfinish]
  exact ⟨rfl, output_note cfg _ caught⟩

/-- What is printed by an evaluation is printed by the run. -/
theorem prints_runWithin (cfg : Config) (limit : Nat) (program : Node Unit) (i : Nat) (s : Store) :
    (eval cfg limit program i (note cfg 1 .running s).2).2.Prints
      (runWithin cfg limit program i s).2 := by
  have hcatch : (eval cfg limit program i (note cfg 1 .running s).2).2.Prints
      (catchError (eval cfg limit program i) (note cfg 1 .running s).2).2 := by
    rw [catchError, tryCatch_apply]
    rcases eval cfg limit program i (note cfg 1 .running s).2 with ⟨(_ | _ | _ | _) | _, s'⟩ <;>
      exact ⟨List.prefix_rfl, rfl⟩
  refine hcatch.trans ?_
  rw [runWithin_apply, bind_apply]
  rcases catchError (eval cfg limit program i) (note cfg 1 .running s).2 with ⟨stop | v, s'⟩
  · exact .refl s'
  · show s'.Prints (((note cfg 1 (.finished v)) >>= fun _ => (pure v : Run Value)) s').2
    have hnote := prints_note cfg 1 (.finished v) s'
    rw [bind_apply]
    rcases hx : note cfg 1 (.finished v) s' with ⟨stop | _, s''⟩ <;> rw [hx] at hnote <;> exact hnote

/-- **The bound on nesting shows in one error only.** A program that runs within two bounds has the
same result, prints the same and leaves the same store, or else its result within the smaller bound
is the error that says so, and what it has printed by then is the beginning of what it prints within
the larger one. (A closed log has the result printed after that.) -/
theorem runWithin_of_le (cfg : Config) (hn : cfg.natives = standard ∨ cfg.natives.Prints)
    {few many : Nat} (h : few ≤ many) (program : Node Unit) (i : Nat) (s : Store) :
    let short := runWithin cfg few program i s
    let full := runWithin cfg many program i s
    short = full ∨ ∃ id printed,
      short.1 = .ok (.error id "maximum recursion depth exceeded") ∧
      printed <+: full.2.output.toList ∧
      short.2.output.toList =
        printed ++ cfg.printed s (.finished (.error id "maximum recursion depth exceeded")) := by
  intro short full
  let started := (note cfg 1 .running s).2
  have hstart : s.Prints started := prints_note cfg 1 .running s
  have hgrow := (eval_follows (follows_cutting hn) few program i).cut s started hstart
  rcases (eval_follows_of_le (follows_cutting hn) h program i).near started started rfl with
    ⟨hvalue, hstore⟩ | ⟨hdeep, hcut⟩
  · refine .inl ?_
    have heval : eval cfg few program i started = eval cfg many program i started :=
      Prod.ext hvalue hstore
    show runWithin cfg few program i s = runWithin cfg many program i s
    rw [runWithin_apply, runWithin_apply, bind_apply, bind_apply, catchError, catchError,
      tryCatch_apply, tryCatch_apply, heval]
  · obtain ⟨hresult, houtput⟩ := runWithin_of_tooDeep (Prod.ext hdeep rfl)
    refine .inr ⟨_, (eval cfg few program i started).2.output.toList, hresult,
      (hcut.trans (prints_runWithin cfg many program i s)).1, ?_⟩
    rw [Config.printed, ← hgrow.2]
    exact houtput

/-- A program that prints twice and is stopped between. -/
theorem runWithin_of_le_between :
    let print (e : Node Unit) : Node Unit := .call () (.identifier () "puts") [e]
    let program : Node Unit := .program [print (.integer () 1), print (.unary () "-" (.integer () 2))]
    let short := runWithin {} 3 program 0 (Store.start false)
    let full := runWithin {} 4 program 0 (Store.start false)
    3 ≤ 4 ∧ full.2.output.toList = ["1", "-2"] ∧ ∃ id printed,
      short.1 = .ok (.error id "maximum recursion depth exceeded") ∧
      printed <+: ["1", "-2"] ∧ short.2.output.toList = printed ++ [] := by
  intro print program short full
  have hfull : full.2.output.toList = ["1", "-2"] := by decide +kernel
  have hshort : short.2.output.toList = ["1"] := by decide +kernel
  refine ⟨by decide, hfull, ?_⟩
  rcases runWithin_of_le {} (.inl rfl) (show 3 ≤ 4 by decide) program 0 (Store.start false) with h | h
  · have : short.2.output.toList = full.2.output.toList := congrArg (fun x => x.2.output.toList) h
    rw [hshort, hfull] at this
    cases this
  · rw [← hfull]
    exact h

end SepiaLang
