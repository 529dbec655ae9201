import Mathlib.Data.List.Induction
import SepiaLang.Command.Run
import SepiaLang.Proofs.Pieces

/-!
# Dialogues in chunks

The shell is given lines, and goes by the wording of problems whether to wait for more of them. It comes to
the same as giving whole texts to one interpreter, one after the other: no line is lost or run twice, and a
text with problems leaves the store as it was.

* `Store.Same`, `run_same`: a run does not depend on what was printed before.
* `Shell.Waits`, `Shell.Opening`, `Shell.Chunk`: texts that are not complete, lines each of which leaves
  one, and lines that are answered together.
* `Shell.reply`, `Shell.replies`: what whole texts come to.
* `Shell.Stands`: where a dialogue stands, with what one more line does to it (`Stands.keep`,
  `Stands.answer`).
* **`Shell.enterAll_in_chunks`**: all lines.
-/

namespace SepiaLang

/-! ## Texts -/

/-- A text that starts with another letter is not about a block without an end. -/
theorem not_startsWith_append {text : String} {c : Char} (h : text.toList.head? = some c) (hc : c ≠ 'u')
    (more : String) : ¬(text ++ more).startsWith "unterminated block" = true := by
  rw [String.startsWith_string_iff, String.toList_append]
  rintro ⟨rest, heq⟩
  have hhead := congrArg List.head? heq
  have hletter : "unterminated block".toList.head? = some 'u' := by decide
  rw [List.head?_append, List.head?_append, h, hletter, Option.some_or, Option.some_or] at hhead
  exact hc (Option.some.inj hhead).symm

/-- The wording of a problem tells whether it is about a block without an end. -/
theorem Problem.startsWith_message_iff (p : Problem) :
    p.message.startsWith "unterminated block" = true ↔ p.isOpenBlock = true := by
  unfold message
  cases p with
  | openBlock opening =>
    have htext : "unterminated block opened at line " = "unterminated block" ++ " opened at line " := by decide
    refine iff_of_true ?_ rfl
    rw [htext, String.startsWith_string_iff]
    simp only [String.toList_append, List.append_assoc]
    exact List.prefix_append _ _
  | expected wanted found =>
    simp only [String.append_assoc]
    exact iff_of_false (not_startsWith_append (c := 'e') (by decide) (by decide) _) nofun
  | noExpression kind =>
    simp only [String.append_assoc]
    exact iff_of_false (not_startsWith_append (c := 'n') (by decide) (by decide) _) nofun
  | badInteger literal =>
    simp only [String.append_assoc]
    exact iff_of_false (not_startsWith_append (c := 'c') (by decide) (by decide) _) nofun
  | tooDeep =>
    rw [String.startsWith_string_iff]
    decide

theorem unlines_concat (lines : List String) (line : String) :
    unlines (lines ++ [line]) = unlines lines ++ line ++ "\n" := by
  simp [unlines, String.join_append, String.append_assoc]

theorem unlines_eq_empty_iff (lines : List String) : unlines lines = "" ↔ lines = [] := by
  cases lines with
  | nil => simp [unlines]
  | cons line lines =>
    have hne : unlines (line :: lines) ≠ "" := by
      rw [unlines, List.map_cons, String.join_cons]
      simp [String.append_eq_empty_iff]
    exact ⟨fun h => absurd h hne, nofun⟩

/-! ## What was printed before -/

/-- The stores differ in what was printed and written down only. -/
structure Store.Same (s s' : Store) : Prop where
  scopes : s'.scopes = s.scopes
  nextId : s'.nextId = s.nextId
  isOpen : s'.log.isOpen = s.log.isOpen

theorem Store.Same.refl (s : Store) : s.Same s := ⟨rfl, rfl, rfl⟩

theorem Store.Same.trans {s s₁ s₂ : Store} (h : s.Same s₁) (h' : s₁.Same s₂) : s.Same s₂ :=
  ⟨h'.scopes.trans h.scopes, h'.nextId.trans h.nextId, h'.isOpen.trans h.isOpen⟩

/-- Lines that are printed are added to the output, and nothing else changes. -/
theorem foldl_print : ∀ (lines : List String) (s : Store),
    s.Same (lines.foldl Store.print s) ∧
      (lines.foldl Store.print s).output.toList = s.output.toList ++ lines
  | [], s => ⟨.refl s, (List.append_nil _).symm⟩
  | line :: lines, s => by
    obtain ⟨hsame, houtput⟩ := foldl_print lines (s.print line)
    refine ⟨⟨hsame.scopes, hsame.nextId, hsame.isOpen⟩, ?_⟩
    rw [List.foldl_cons, houtput]
    simp [Store.print]

/-- **A run does not depend on what was printed before.** It prints what it prints by itself. -/
theorem run_same {cfg : Config} (hn : cfg.natives = standard ∨ cfg.Forgets) {s s' : Store} (h : s.Same s')
    (program : Node Unit) (scope : Nat) :
    let alone := run cfg program scope { s with output := #[] }
    let after := run cfg program scope s'
    after.1 = alone.1 ∧ alone.2.Same after.2 ∧
      after.2.output.toList = s'.output.toList ++ alone.2.output.toList := by
  intro alone after
  have hstart : Store.Beside [] s'.output.toList { s with output := #[] } s' :=
    ⟨h.scopes, h.nextId, h.isOpen, [], rfl, (List.append_nil _).symm⟩
  have hfollows := follows_finishRun hn [] s'.output.toList depthLimit program scope
  -- both runs write down that they start, and neither is cut off later
  rcases hfollows.near _ _ (hstart.note cfg 1 .running).2 with ⟨heq, hbeside⟩ | ⟨-, hfalse⟩
  · rw [← runWithin_eq_finishRun, ← runWithin_eq_finishRun] at heq hbeside
    obtain ⟨more, halone, hafter⟩ := hbeside.output
    rw [List.nil_append] at halone
    exact ⟨heq.symm, ⟨hbeside.scopes, hbeside.nextId, hbeside.isOpen⟩, halone ▸ hafter⟩
  · exact absurd hfalse id

/-! ## Chunks -/

namespace Shell

/-- The text has problems, and going by their wording they are all about blocks without an end. -/
def Waits (source : String) : Prop :=
  (parseSource source).problems ≠ [] ∧
    ∀ p ∈ (parseSource source).problems, p.message.startsWith "unterminated block" = true

/-- After each of the lines a block is open. -/
def Opening (lines : List String) : Prop :=
  ∀ first, first ≠ [] → first <+: lines → Waits (unlines first)

/-- The lines are answered together: after each of them but the last one a block is open. -/
def Chunk (lines : List String) : Prop :=
  ∃ init last, lines = init ++ [last] ∧ Opening init ∧ ¬Waits (unlines lines)

theorem isIncomplete_iff (source : String) :
    isIncomplete (parseSource source).problems = true ↔ Waits source := by
  simp only [isIncomplete, Waits, Bool.and_eq_true, Bool.not_eq_true', List.isEmpty_eq_false_iff,
    List.all_eq_true, Problem.startsWith_message_iff]

theorem Opening.nil : Opening [] := fun _ hne hfirst => absurd (List.prefix_nil.1 hfirst) hne

theorem Opening.concat {lines : List String} (h : Opening lines) {line : String}
    (hwaits : Waits (unlines (lines ++ [line]))) : Opening (lines ++ [line]) := by
  intro first hne hfirst
  rcases List.prefix_concat_iff.1 hfirst with rfl | hfirst
  · exact hwaits
  · exact h first hne hfirst

theorem Opening.waits {lines : List String} (h : Opening lines) (hne : lines ≠ []) :
    Waits (unlines lines) := h lines hne List.prefix_rfl

/-! ## Whole texts -/

/-- The line that shows a result. -/
def shownLine : Except Stop Value → List String
  | .ok v => v.shown?.toList
  | .error _ => []

/-- What an interpreter with this store prints for a text, and its store after it. A text with problems is
answered with them. Any other one is run, and its result is shown. -/
def reply (cfg : Config) (source : String) (s : Store) : List String × Store :=
  let parsed := parseSource source
  if parsed.problems = [] then
    let outcome := run cfg parsed.program.strip globalScope { s with output := #[] }
    (outcome.2.output.toList ++ shownLine outcome.1, outcome.2)
  else (parsed.problems.map ("\t" ++ ·.message), s)

/-- What an interpreter prints for texts that it is given one after the other, and its store after them. -/
def replies (cfg : Config) : List String → Store → List String × Store
  | [], s => ([], s)
  | source :: rest, s =>
    let (lines, s₁) := reply cfg source s
    let (more, s₂) := replies cfg rest s₁
    (lines ++ more, s₂)

theorem replies_concat (cfg : Config) (source : String) : ∀ (sources : List String) (s : Store),
    replies cfg (sources ++ [source]) s =
      ((replies cfg sources s).1 ++ (reply cfg source (replies cfg sources s).2).1,
        (reply cfg source (replies cfg sources s).2).2)
  | [], s => by simp [replies]
  | first :: rest, s => by
    simp only [List.cons_append, replies, replies_concat cfg source rest, List.append_assoc]

theorem reply_of_problems {source : String} (h : (parseSource source).problems ≠ []) (cfg : Config)
    (s : Store) : reply cfg source s = ((parseSource source).problems.map ("\t" ++ ·.message), s) :=
  if_neg h

theorem reply_of_complete {source : String} (h : (parseSource source).problems = []) (cfg : Config)
    (s : Store) : reply cfg source s =
      let outcome := run cfg (parseSource source).program.strip globalScope { s with output := #[] }
      (outcome.2.output.toList ++ shownLine outcome.1, outcome.2) := if_pos h

/-- Texts with problems leave no trace in the store. -/
theorem replies_filter_complete (cfg : Config) : ∀ (sources : List String) (s : Store),
    (replies cfg (sources.filter fun t => (parseSource t).problems.isEmpty) s).2 = (replies cfg sources s).2
  | [], _ => rfl
  | source :: rest, s => by
    by_cases h : (parseSource source).problems = []
    · rw [List.filter_cons, if_pos (List.isEmpty_iff.2 h)]
      exact replies_filter_complete cfg rest _
    · rw [List.filter_cons, if_neg (mt List.isEmpty_iff.1 h), replies_filter_complete cfg rest]
      simp only [replies, reply_of_problems h]

/-! ## Lines -/

/-- Lines of program text, one after the other. -/
def enterAll (cfg : Config) (lines : List String) (sh : Shell) : Shell :=
  lines.foldl (fun sh line => (sh.enter cfg line).2) sh

theorem enterAll_concat (cfg : Config) (lines : List String) (line : String) (sh : Shell) :
    enterAll cfg (lines ++ [line]) sh = ((enterAll cfg lines sh).enter cfg line).2 := List.foldl_concat ..

/-- A line that leaves a block open is kept. -/
theorem enter_of_waits (cfg : Config) {line : String} {sh : Shell}
    (h : Waits (sh.pending ++ line ++ "\n")) :
    sh.enter cfg line =
      (.ok (), { sh with pending := sh.pending ++ line ++ "\n", prompt := openPrompt }) := by
  unfold enter
  rw [if_pos ((isIncomplete_iff _).2 h)]

/-- A text with problems is answered with them. -/
theorem enter_of_problems (cfg : Config) {line source : String} {sh : Shell}
    (hsource : sh.pending ++ line ++ "\n" = source) (h : ¬Waits source)
    (hproblems : (parseSource source).problems ≠ []) :
    let messages := (parseSource source).problems.map ("\t" ++ ·.message)
    sh.enter cfg line = (.ok (), { store := messages.foldl Store.print sh.store }) := by
  have htree : (parseSource source).tree? = .error (parseSource source).problems :=
    if_neg (mt List.isEmpty_iff.1 hproblems)
  unfold enter
  rw [hsource, if_neg (mt (isIncomplete_iff source).1 h), htree]
  rfl

/-- A text without problems is run. -/
theorem enter_of_complete (cfg : Config) {line source : String} {sh : Shell}
    (hsource : sh.pending ++ line ++ "\n" = source) (hproblems : (parseSource source).problems = []) :
    sh.enter cfg line = runProgram cfg (parseSource source).program.strip { store := sh.store } := by
  have htree : (parseSource source).tree? = .ok (parseSource source).program.strip :=
    if_pos (List.isEmpty_iff.2 hproblems)
  unfold enter
  rw [hsource, if_neg (mt (isIncomplete_iff source).1 fun h => h.1 hproblems), htree]

theorem runProgram_snd (cfg : Config) (program : Node Unit) (sh : Shell) :
    let outcome := run cfg program globalScope sh.store
    (runProgram cfg program sh).2 =
      { sh with store := (shownLine outcome.1).foldl Store.print outcome.2 } := by
  intro outcome
  unfold runProgram
  rw [show (run cfg program globalScope).run sh.store = outcome from rfl]
  rcases outcome with ⟨e | v, s⟩
  · rfl
  · dsimp only [shownLine]
    cases v.shown? <;> rfl

/-- **Any other line is answered**, together with those that are pending. -/
theorem enter_of_not_waits {cfg : Config} (hn : cfg.natives = standard ∨ cfg.Forgets) {line source : String}
    {sh : Shell} (hsource : sh.pending ++ line ++ "\n" = source) (h : ¬Waits source) {s : Store}
    (hs : s.Same sh.store) :
    let next := (sh.enter cfg line).2
    next.pending = "" ∧ next.prompt = firstPrompt ∧ (reply cfg source s).2.Same next.store ∧
      next.store.output.toList = sh.store.output.toList ++ (reply cfg source s).1 := by
  by_cases hproblems : (parseSource source).problems = []
  · rw [enter_of_complete cfg hsource hproblems, runProgram_snd, reply_of_complete hproblems]
    have hrun := run_same hn hs (parseSource source).program.strip globalScope
    generalize run cfg (parseSource source).program.strip globalScope { s with output := #[] } = alone at hrun ⊢
    generalize run cfg (parseSource source).program.strip globalScope sh.store = after at hrun ⊢
    obtain ⟨hresult, hsame, houtput⟩ := hrun
    obtain ⟨hshown, hlines⟩ := foldl_print (shownLine after.1) after.2
    refine ⟨rfl, rfl, hsame.trans hshown, ?_⟩
    rw [hlines, houtput, hresult, List.append_assoc]
  · rw [enter_of_problems cfg hsource h hproblems, reply_of_problems hproblems]
    obtain ⟨hsame, houtput⟩ := foldl_print ((parseSource source).problems.map ("\t" ++ ·.message)) sh.store
    exact ⟨rfl, rfl, hs.trans hsame, houtput⟩

/-- After the lines of the chunks and those that are kept, the dialogue stands where an interpreter does that
was given the chunks. -/
structure Stands (cfg : Config) (s : Store) (chunks : List (List String)) (kept : List String)
    (sh : Shell) : Prop where
  chunk : ∀ c ∈ chunks, Chunk c
  opening : Opening kept
  pending : sh.pending = unlines kept
  prompt : sh.prompt = if kept = [] then firstPrompt else openPrompt
  store : (replies cfg (chunks.map unlines) s).2.Same sh.store
  output : sh.store.output.toList = s.output.toList ++ (replies cfg (chunks.map unlines) s).1

namespace Stands

variable {cfg : Config} {s : Store} {chunks : List (List String)} {kept : List String} {sh : Shell}

theorem start (cfg : Config) (s : Store) : Stands cfg s [] [] { store := s } :=
  ⟨nofun, .nil, rfl, rfl, .refl s, (List.append_nil _).symm⟩

/-- The line is kept. -/
theorem keep (h : Stands cfg s chunks kept sh) {line : String} (hwaits : Waits (unlines (kept ++ [line]))) :
    Stands cfg s chunks (kept ++ [line]) (sh.enter cfg line).2 := by
  rw [unlines_concat, ← h.pending] at hwaits
  rw [enter_of_waits cfg hwaits]
  have hpending : sh.pending ++ line ++ "\n" = unlines (kept ++ [line]) := by
    rw [h.pending, unlines_concat]
  refine ⟨h.chunk, h.opening.concat (hpending ▸ hwaits), hpending, ?_, h.store, h.output⟩
  simp

/-- The lines that were kept and this one are answered. -/
theorem answer (hn : cfg.natives = standard ∨ cfg.Forgets) (h : Stands cfg s chunks kept sh) {line : String}
    (hwaits : ¬Waits (unlines (kept ++ [line]))) :
    Stands cfg s (chunks ++ [kept ++ [line]]) [] (sh.enter cfg line).2 := by
  have hsource : sh.pending ++ line ++ "\n" = unlines (kept ++ [line]) := by
    rw [h.pending, unlines_concat]
  obtain ⟨hpending, hprompt, hsame, houtput⟩ := enter_of_not_waits hn hsource hwaits h.store
  have hsources : (chunks ++ [kept ++ [line]]).map unlines =
      chunks.map unlines ++ [unlines (kept ++ [line])] := by
    rw [List.map_append, List.map_singleton]
  refine ⟨fun c hc => ?_, .nil, hpending, hprompt, ?_, ?_⟩
  · rcases List.mem_append.1 hc with hc | hc
    · exact h.chunk c hc
    · rw [List.mem_singleton.1 hc]
      exact ⟨kept, line, rfl, h.opening, hwaits⟩
  · rw [hsources, replies_concat]
    exact hsame
  · rw [hsources, replies_concat, houtput, h.output, List.append_assoc]

end Stands

/-- **Lines are answered in chunks.** -/
theorem exists_stands {cfg : Config} (hn : cfg.natives = standard ∨ cfg.Forgets) (s : Store)
    (lines : List String) : ∃ chunks kept, lines = chunks.flatten ++ kept ∧
      Stands cfg s chunks kept (enterAll cfg lines { store := s }) := by
  induction lines using List.reverseRecOn with
  | nil => exact ⟨[], [], rfl, .start cfg s⟩
  | append_singleton lines line ih =>
    obtain ⟨chunks, kept, hlines, h⟩ := ih
    rw [enterAll_concat]
    by_cases hwaits : Waits (unlines (kept ++ [line]))
    · exact ⟨chunks, kept ++ [line], by rw [hlines, List.append_assoc], h.keep hwaits⟩
    · exact ⟨chunks ++ [kept ++ [line]], [], by simp [hlines], h.answer hn hwaits⟩

/-- **The shell runs whole chunks.** Lines that are given to a new shell fall into chunks, each of which ends
with a line that leaves no block open, and the lines since then, which are all that is pending. The
second prompt is shown if and only if there are such lines, and then the problems of what is pending
start with the words about a block without an end. The scopes are those of an interpreter that was given
the chunks without problems as whole texts, and the output is what it answers, with the problems of the
others. A further line is kept and changes nothing else, or it ends the pending chunk, which is answered. -/
theorem enterAll_in_chunks (cfg : Config) (hn : cfg.natives = standard ∨ cfg.Forgets) (s : Store)
    (lines : List String) :
    let sh := enterAll cfg lines { store := s }
    ∃ (chunks : List (List String)) (kept : List String), lines = chunks.flatten ++ kept ∧
      (∀ c ∈ chunks, Chunk c) ∧ Opening kept ∧
      sh.pending = unlines kept ∧ (sh.prompt = openPrompt ↔ sh.pending ≠ "") ∧
      (sh.prompt = firstPrompt ↔ sh.pending = "") ∧ (sh.pending ≠ "" → Waits sh.pending) ∧
      (let sources := chunks.map unlines
       let complete := sources.filter fun t => (parseSource t).problems.isEmpty
       sh.store.scopes = (replies cfg complete s).2.scopes ∧
       sh.store.output.toList = s.output.toList ++ (replies cfg sources s).1) ∧
      ∀ line, let source := unlines (kept ++ [line])
        let next := (sh.enter cfg line).2
        (Waits source → next = { sh with pending := source, prompt := openPrompt }) ∧
        (¬Waits source → next.pending = "" ∧ next.prompt = firstPrompt ∧
          next.store.scopes = (reply cfg source sh.store).2.scopes ∧
          next.store.output.toList = sh.store.output.toList ++ (reply cfg source sh.store).1) := by
  intro sh
  obtain ⟨chunks, kept, hlines, h⟩ := exists_stands hn s lines
  have hempty : sh.pending = "" ↔ kept = [] := by rw [h.pending, unlines_eq_empty_iff]
  have hprompts : firstPrompt ≠ openPrompt := by decide
  have hprompt : sh.prompt = if kept = [] then firstPrompt else openPrompt := h.prompt
  refine ⟨chunks, kept, hlines, h.chunk, h.opening, h.pending, ?_, ?_, fun hne => ?_, ⟨?_, h.output⟩,
    fun line => ?_⟩
  · rw [hprompt, ne_eq, hempty, ite_eq_right_iff]
    exact ⟨fun h hkept => hprompts (h hkept), fun h hkept => absurd hkept h⟩
  · rw [hprompt, hempty, ite_eq_left_iff]
    exact ⟨fun h => by_contra fun hkept => hprompts (h hkept).symm, fun hkept h => absurd hkept h⟩
  · exact h.pending ▸ h.opening.waits (mt hempty.2 hne)
  · rw [replies_filter_complete]
    exact h.store.scopes
  · have hsource : sh.pending ++ line ++ "\n" = unlines (kept ++ [line]) := by
      rw [h.pending, unlines_concat]
    refine ⟨fun hwaits => ?_, fun hwaits => ?_⟩
    · rw [← hsource] at hwaits ⊢
      rw [enter_of_waits cfg hwaits]
    · obtain ⟨hpending, hfirst, hsame, houtput⟩ := enter_of_not_waits hn hsource hwaits (.refl sh.store)
      exact ⟨hpending, hfirst, hsame.scopes, houtput⟩

/-- A block over three lines, a text with two problems, and a line that is kept. -/
theorem enterAll_in_chunks_of_five_lines :
    let lines := ["if (true) ->", "puts(1);", "end;", "value = 2;", "fn() ->"]
    let sh := enterAll {} lines { store := Store.start false }
    sh.pending = "fn() ->\n" ∧ sh.prompt = openPrompt ∧ Waits sh.pending ∧
    sh.store.output.toList = ["1", "null",
      "\texpected next token to be IDENT, got ASSIGN instead (line 1, column 7)",
      "\tno prefix parse function for ASSIGN found"] ∧
    ∃ (chunks : List (List String)) (kept : List String), lines = chunks.flatten ++ kept ∧
      (∀ c ∈ chunks, Chunk c) ∧ sh.pending = unlines kept ∧
      sh.store.output.toList = (replies {} (chunks.map unlines) (Store.start false)).1 := by
  intro lines sh
  have hpending : sh.pending = "fn() ->\n" := by decide +kernel
  have hne : sh.pending ≠ "" := by rw [hpending]; decide
  obtain ⟨chunks, kept, hlines, hchunks, -, hkept, hprompt, -, hwaits, ⟨-, houtput⟩, -⟩ :=
    enterAll_in_chunks {} (.inl rfl) (Store.start false) lines
  exact ⟨hpending, hprompt.2 hne, hwaits hne, by decide +kernel, chunks, kept, hlines, hchunks, hkept,
    houtput⟩

end Shell

end SepiaLang
