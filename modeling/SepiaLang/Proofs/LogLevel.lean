import SepiaLang.Proofs.Moments
import SepiaLang.Proofs.DepthLimit
import SepiaLang.Proofs.Parse.Record
import SepiaLang.Session

/-!
# How much is written down

An interpreter may write down more or less about its work. As long as that goes to its log, nothing else
depends on it: the same programs are read, with the same problems, and they do the same. Only a value
that is nested too deeply to be written down can stop a run that would have gone on.

* `Store.SameButLog`: stores that differ in their logs.
* `note_of_logs`, `readSource_of_logs`: what writing down does to a store.
* `levels`: two runs, the first of which writes down more.
* `runWithin_of_levels`: they do the same, unless the first one is stopped.
* **`log_level_unseen`**: reading and running a program at any two levels.
-/

namespace SepiaLang

open SepiaLang.Computation SepiaLang.Parse

/-- The stores differ in their logs at most. -/
structure Store.SameButLog (s s' : Store) : Prop where
  scopes : s'.scopes = s.scopes
  nextId : s'.nextId = s.nextId
  output : s'.output = s.output

namespace Store.SameButLog

variable {s s' s'' : Store}

theorem refl (s : Store) : s.SameButLog s := ⟨rfl, rfl, rfl⟩

theorem symm (h : s.SameButLog s') : s'.SameButLog s := ⟨h.scopes.symm, h.nextId.symm, h.output.symm⟩

theorem trans (h : s.SameButLog s') (h' : s'.SameButLog s'') : s.SameButLog s'' :=
  ⟨h'.scopes.trans h.scopes, h'.nextId.trans h.nextId, h'.output.trans h.output⟩

end Store.SameButLog

/-- What the interpreter writes down goes to the log: either that is open, or nothing is written. -/
def Config.Logs (cfg : Config) (s : Store) : Prop := cfg.logLevel = 0 ∨ s.log.isOpen = true

theorem Config.Logs.congr {cfg : Config} {s s' : Store} (h : cfg.Logs s)
    (hopen : s'.log.isOpen = s.log.isOpen) : cfg.Logs s' := h.imp_right hopen.trans

theorem Config.Logs.printed {cfg : Config} {s : Store} (h : cfg.Logs s) (entry : LogEntry) :
    cfg.printed s entry = [] := by
  rcases h with h | h <;> simp [Config.printed, h]

/-! ## Writing down -/

/-- An entry is written down, unless it is too deep. -/
theorem note_result (cfg : Config) (level : Nat) (entry : LogEntry) (s : Store) :
    (note cfg level entry s).1 =
      if level ≤ cfg.logLevel ∧ entry.fits displayLimit = false then .error .tooDeep else .ok () := by
  unfold note
  by_cases hlevel : level ≤ cfg.logLevel
  · cases hfits : entry.fits displayLimit <;> simp [hlevel] <;> rfl
  · simp only [hlevel, false_and, if_false]
    rfl

/-- Writing down changes nothing but the log. -/
theorem note_of_logs {cfg : Config} {s : Store} (h : cfg.Logs s) {level : Nat} (hlevel : 0 < level)
    (entry : LogEntry) :
    s.SameButLog (note cfg level entry s).2 ∧ cfg.Logs (note cfg level entry s).2 := by
  refine ⟨?_, h.congr (prints_note cfg level entry s).2⟩
  unfold note
  split
  · next hle =>
    have hopen : s.log.isOpen = true := h.resolve_left (by omega)
    split
    · show s.SameButLog (s.write entry)
      rw [Store.write, if_pos hopen]
      exact ⟨rfl, rfl, rfl⟩
    · exact .refl s
  · exact .refl s

/-- Reading a program gives what is read from its text, and changes nothing but the log. -/
theorem readSource_of_logs {cfg : Config} {s : Store} (h : cfg.Logs s) (source : String) :
    (readSource cfg source s).1 = .ok (parseSource source) ∧
      s.SameButLog (readSource cfg source s).2 ∧ cfg.Logs (readSource cfg source s).2 := by
  have hnote {s₁ : Store} (h₁ : s.SameButLog s₁ ∧ cfg.Logs s₁) {level : Nat} (hlevel : 0 < level)
      {entry : LogEntry} (hfits : entry.fits displayLimit = true) :
      ∃ s₂, note cfg level entry s₁ = (.ok (), s₂) ∧ s.SameButLog s₂ ∧ cfg.Logs s₂ := by
    obtain ⟨hsame, hlogs⟩ := note_of_logs h₁.2 hlevel entry
    have hok : (note cfg level entry s₁).1 = .ok () := by simp [note_result, hfits]
    exact ⟨_, Prod.ext hok rfl, h₁.1.trans hsame, hlogs⟩
  have hlines (lines : List TraceLine) : ∀ {s₁ : Store}, s.SameButLog s₁ ∧ cfg.Logs s₁ →
      ∃ s₂, (lines.forM fun line => note cfg 4 (.traced line) : Run Unit) s₁ = (.ok (), s₂) ∧
        s.SameButLog s₂ ∧ cfg.Logs s₂ := by
    induction lines with
    | nil => exact fun {s₁} h₁ => ⟨s₁, rfl, h₁⟩
    | cons line lines ih =>
      intro s₁ h₁
      obtain ⟨s₂, hline, h₂⟩ := hnote h₁ (show 0 < 4 by decide)
        (show LogEntry.fits _ (.traced line) = true from rfl)
      obtain ⟨s₃, hrest, h₃⟩ := ih h₂
      exact ⟨s₃, (bind_of_ok hline _).trans hrest, h₃⟩
  obtain ⟨s₁, htrace, h₁⟩ := hlines (parseSource source).trace ⟨.refl s, h⟩
  let parsed : LogEntry := .parsed (parseSource source).body.length (parseSource source).problems.length
  obtain ⟨s₂, hread, h₂⟩ := hnote h₁ (show 0 < 1 by decide) (show parsed.fits _ = true from rfl)
  have hsource : readSource cfg source s = (.ok (parseSource source), s₂) := by
    rw [readSource, bind_of_ok htrace, bind_of_ok hread]
    rfl
  rw [hsource]
  exact ⟨rfl, h₂⟩

/-! ## Two runs -/

/-- Two runs that write down what they do in their logs, the first one more of it. It may be cut off: an
entry that only this run writes may be too deep. -/
def levels {cfg cfg' : Config} (hsame : cfg.SameNatives cfg') (hle : cfg'.logLevel ≤ cfg.logLevel) :
    Pairing cfg cfg' where
  Near s s' := s.SameButLog s' ∧ cfg.Logs s ∧ cfg'.Logs s'
  Cut g s' := cfg'.logLevel < cfg.logLevel ∧ g.output.toList <+: s'.output.toList ∧ cfg.Logs g
  natives := hsame
  scopes_eq h := h.1.scopes
  nextId_eq h := h.1.nextId
  scopes h _ := ⟨⟨rfl, h.1.nextId, h.1.output⟩, h.2⟩
  nextId h _ := ⟨⟨h.1.scopes, rfl, h.1.output⟩, h.2⟩
  print h line := ⟨⟨h.1.scopes, h.1.nextId, congrArg (·.push line) h.1.output⟩, h.2⟩
  note {s s'} h level hlevel entry := by
    obtain ⟨hstores, hlogs, hlogs'⟩ := h
    obtain ⟨hfirst, hfirstLogs⟩ := note_of_logs hlogs hlevel entry
    obtain ⟨hsecond, hsecondLogs⟩ := note_of_logs hlogs' hlevel entry
    have hafter := hfirst.symm.trans (hstores.trans hsecond)
    rw [note_result, note_result]
    by_cases hfits : entry.fits displayLimit = true
    · refine .inl ⟨?_, hafter, hfirstLogs, hsecondLogs⟩
      simp [hfits]
    · by_cases hcut : cfg'.logLevel < level ∧ level ≤ cfg.logLevel
      · refine .inr ⟨if_pos ⟨hcut.2, by simpa using hfits⟩, by omega, ?_, hfirstLogs⟩
        exact ⟨[], by rw [List.append_nil, hafter.output]⟩
      · refine .inl ⟨?_, hafter, hfirstLogs, hsecondLogs⟩
        have hboth : level ≤ cfg.logLevel ↔ level ≤ cfg'.logLevel := by omega
        simp only [hboth]
  cut h hs := ⟨h.1, h.2.1.trans hs.1, h.2.2⟩

/-- The native functions do the same, however much is written down. -/
def Registry.Unlogged (natives : Registry) : Prop :=
  ∀ {cfg cfg' : Config} (hsame : cfg.SameNatives cfg') (hle : cfg'.logLevel ≤ cfg.logLevel),
    natives.Follows (levels hsame hle)

/-- The run was stopped because something was nested too deeply: that is its result, or its result is
nested too deeply to be written down. -/
def Overran (result : Except Stop Value) : Prop :=
  result = .error .tooDeep ∨ ∃ id, result = .ok (.error id "maximum recursion depth exceeded")

/-- **A run that writes down more does the same**, unless it is stopped. Then it has printed the beginning
of what the other one prints. -/
theorem runWithin_of_levels {cfg cfg' : Config} (hn : cfg.natives = standard ∨ cfg.natives.Unlogged)
    (hsame : cfg.SameNatives cfg') (hle : cfg'.logLevel ≤ cfg.logLevel) (limit : Nat)
    (program : Node Unit) (scope : Nat) {s s' : Store} (hstores : s.SameButLog s') (hlogs : cfg.Logs s)
    (hlogs' : cfg'.Logs s') :
    let more := runWithin cfg limit program scope s
    let less := runWithin cfg' limit program scope s'
    more.1 = less.1 ∧ more.2.SameButLog less.2 ∨
      cfg'.logLevel < cfg.logLevel ∧ Overran more.1 ∧
        more.2.output.toList <+: less.2.output.toList := by
  intro more less
  let P := levels hsame hle
  have hnatives : cfg.natives.Follows P := by
    rcases hn with hn | hn
    · rw [hn]
      exact standard_follows
    · exact hn hsame hle
  have hstart : P.Near (note cfg 1 .running s).2 (note cfg' 1 .running s').2 := by
    rcases P.note ⟨hstores, hlogs, hlogs'⟩ (show 0 < 1 by decide) .running with ⟨-, h⟩ | ⟨h, -⟩
    · exact h
    · rw [note_running] at h
      cases h
  have hfinish (v : Value) : P.Follows (do note cfg 1 (.finished v); return v : Run Value)
      (do note cfg' 1 (.finished v); return v : Run Value) :=
    .bind (follows_note (by decide) _) fun _ => .pure v
  rcases (eval_follows hnatives limit program scope).near _ _ hstart with ⟨heq, hnear⟩ | ⟨hdeep, hcut⟩
  · -- the evaluations come to the same, and only the entry about the result may be too deep
    obtain ⟨hcatch, hcaught⟩ := near_catchError heq hnear
    have hagree : P.Agree more less := by
      show P.Agree (runWithin cfg limit program scope s) (runWithin cfg' limit program scope s')
      rw [runWithin_apply, runWithin_apply, bind_apply, bind_apply]
      rcases hx : catchError (eval cfg limit program scope) (note cfg 1 .running s).2 with ⟨e | v, s₁⟩ <;>
        rcases hx' : catchError (eval cfg' limit program scope) (note cfg' 1 .running s').2 with
          ⟨e' | v', s₁'⟩ <;>
        rw [hx, hx'] at hcatch hcaught <;> cases hcatch
      · exact .inl ⟨rfl, hcaught⟩
      · exact (hfinish v).near _ _ hcaught
    rcases hagree with ⟨hresult, hnear⟩ | ⟨hresult, hcut⟩
    · exact .inl ⟨hresult, hnear.1⟩
    · exact .inr ⟨hcut.1, .inl hresult, hcut.2.1⟩
  · obtain ⟨hresult, houtput⟩ := runWithin_of_tooDeep (Prod.ext hdeep rfl)
    rw [hcut.2.2.printed, List.append_nil] at houtput
    refine .inr ⟨hcut.1, .inr ⟨_, hresult⟩, ?_⟩
    show (runWithin cfg limit program scope s).2.output.toList <+: _
    rw [houtput]
    exact hcut.2.1.trans (prints_runWithin cfg' limit program scope s').1

/-- **How much is written down is not seen.** Let two interpreters with the same native functions, each of
which writes to an open log or not at all, start from stores that differ in their logs at most. They read
the same program from a text, or find the same problems in it, and change nothing but their logs; and
what is recorded of the way of reading is never looked at. If there are no problems, the program has the
same result in both, in any scope, prints the same and leaves the same bindings; except that a run may be
stopped by something that is nested too deeply, where the one that writes down less goes on. -/
theorem log_level_unseen {cfg cfg' : Config} (hn : cfg.natives = standard ∨ cfg.natives.Unlogged)
    (hsame : cfg.SameNatives cfg') (source : String) {s s' : Store} (hstores : s.SameButLog s')
    (hlogs : cfg.Logs s) (hlogs' : cfg'.Logs s') :
    let read := readSource cfg source s
    let read' := readSource cfg' source s'
    (read.1 = .ok (parseSource source) ∧ read'.1 = .ok (parseSource source) ∧
      read.2.SameButLog read'.2) ∧
    (∀ depth trace,
      let parsed := programAfter depth trace nestingLimit (scan source)
      parsed.body = (parseSource source).body ∧ parsed.problems = (parseSource source).problems) ∧
    ∀ tree, (parseSource source).tree? = .ok tree → ∀ limit scope,
      let ran := runWithin cfg limit tree scope read.2
      let ran' := runWithin cfg' limit tree scope read'.2
      ran.1 = ran'.1 ∧ ran.2.SameButLog ran'.2 ∨
      cfg'.logLevel < cfg.logLevel ∧ Overran ran.1 ∧ ran.2.output.toList <+: ran'.2.output.toList ∨
      cfg.logLevel < cfg'.logLevel ∧ Overran ran'.1 ∧ ran'.2.output.toList <+: ran.2.output.toList := by
  intro read read'
  obtain ⟨hread, hkept, hopen⟩ := readSource_of_logs hlogs source
  obtain ⟨hread', hkept', hopen'⟩ := readSource_of_logs hlogs' source
  have hafter : read.2.SameButLog read'.2 := hkept.symm.trans (hstores.trans hkept')
  refine ⟨⟨hread, hread', hafter⟩, fun depth trace => program_of_record depth trace _ _, ?_⟩
  intro tree _ limit scope ran ran'
  rcases Nat.le_total cfg'.logLevel cfg.logLevel with hle | hle
  · have hruns := runWithin_of_levels hn hsame hle limit tree scope hafter hopen hopen'
    exact hruns.imp_right .inl
  · have hn' : cfg'.natives = standard ∨ cfg'.natives.Unlogged := by rwa [hsame]
    have hruns := runWithin_of_levels hn' hsame.symm hle limit tree scope hafter.symm hopen' hopen
    rcases hruns with ⟨hresult, hstore⟩ | h
    · exact .inl ⟨hresult.symm, hstore.symm⟩
    · exact .inr (.inr h)

/-- A program that prints, run once with everything written down and once with nothing. -/
theorem log_level_unseen_puts :
    let loud : Config := { logLevel := 4 }
    let quiet : Config := {}
    let source := "puts(1);"
    let tree := (parseSource source).program.strip
    let ran := runWithin loud 9 tree 0 (readSource loud source loud.start).2
    let ran' := runWithin quiet 9 tree 0 (readSource quiet source quiet.start).2
    loud.start.SameButLog quiet.start ∧ loud.Logs loud.start ∧ quiet.Logs quiet.start ∧
      (parseSource source).tree? = .ok tree ∧ ran.1 = ran'.1 ∧ ran.2.SameButLog ran'.2 ∧
      ran.1 = .ok .null ∧ ran.2.output = #["1"] := by
  have hbody : (parseSource "puts(1);").program.strip = .program
      [.expressionStmt () (.call () (.identifier () "puts") [.integer () 1])] := by
    with_unfolding_all rfl
  intro loud quiet source tree ran ran'
  have hstores : loud.start.SameButLog quiet.start := ⟨rfl, rfl, rfl⟩
  have hlogs : loud.Logs loud.start := .inr rfl
  have hlogs' : quiet.Logs quiet.start := .inl rfl
  obtain ⟨-, -, hruns⟩ := log_level_unseen (.inl rfl) (show loud.SameNatives quiet from rfl) source
    hstores hlogs hlogs'
  have htree : (parseSource source).tree? = .ok tree := by
    have hclean : (parseSource source).problems.isEmpty = true := by decide +kernel
    rw [Parsed.tree?, if_pos hclean]
  -- the log is open and holds what was written about reading, which does not matter
  obtain ⟨entries, hread⟩ : ∃ entries, (readSource loud source loud.start).2 =
      { scopes := #[{}], log := { isOpen := true, entries } } := by
    obtain ⟨-, hsame, hopen⟩ := readSource_of_logs hlogs source
    generalize (readSource loud source loud.start).2 = read at hsame hopen
    rcases read with ⟨scopes, nextId, output, isOpen, entries⟩
    cases hsame.scopes
    cases hsame.nextId
    cases hsame.output
    cases hopen.resolve_left (by decide)
    exact ⟨entries, rfl⟩
  have hloud : ran.1 = .ok .null ∧ ran.2.output = #["1"] := by
    show (runWithin loud 9 tree 0 _).1 = _ ∧ (runWithin loud 9 tree 0 _).2.output = _
    rw [hread, show tree = _ from hbody]
    exact ⟨by with_unfolding_all rfl, by with_unfolding_all rfl⟩
  rcases hruns tree htree 9 0 with ⟨heq, hstore⟩ | ⟨-, h | ⟨id, h⟩, -⟩ | ⟨hlt, -⟩
  · exact ⟨hstores, hlogs, hlogs', htree, heq, hstore, hloud⟩
  · cases hloud.1.symm.trans h
  · cases hloud.1.symm.trans h
  · exact absurd hlt (by decide)

end SepiaLang
