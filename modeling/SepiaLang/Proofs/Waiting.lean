import SepiaLang.Proofs.Dialogue
import SepiaLang.Proofs.Parse.Closing
import SepiaLang.Proofs.Parse.Join
import SepiaLang.Proofs.Parse.Unclosed
import SepiaLang.Proofs.Scan.Chunks
import SepiaLang.Proofs.Scan.Ending

/-!
# When the shell waits

The shell waits for more lines if every problem of those it has is a block without an end. It cannot tell
that a block is open inside of something else that is open as well, such as the arguments of a call: what
is missing there is a problem of its own. So it waits exactly as long as some `end`s are all that is
missing.

* `withEnds`: a text with some `end`s after it, and the tokens of it (`scan_withEnds`).
* `Shell.LacksEnds`: with some `end`s the text is a program. **`Shell.waits_iff_lacksEnds`**: the shell waits.
* `Shell.enterAll_of_opening`, `Shell.opening_of_pending`: all lines are kept if and only if the shell waits
  after each of them.
* **`Shell.enterAll_waits_iff`**: a dialogue.
-/

namespace SepiaLang

open Parse

/-! ## Texts with ends -/

/-- An `end`, wherever it stands. -/
def endWord : Token := { kind := .closeBlock, literal := "end" }

/-- The text, with its last string closed, and lines after it each of which is an `end`. -/
def withEnds (source : String) (n : Nat) : String :=
  source ++ String.ofList (lackingQuote source.toList) ++ "\n" ++ unlines (List.replicate n "end")

theorem lexes_ends : ∀ n : Nat,
    Lexes (unlines (List.replicate n "end")).toList (List.replicate n (.closeBlock, "end"))
  | 0 => .nil .nil
  | n + 1 => by
    have hword : Lexes ("end".toList ++ []) [(.closeBlock, "end")] := lexes_word (by decide) nofun (.nil .nil)
    have hlines : (unlines (List.replicate (n + 1) "end")).toList =
        "end".toList ++ '\n' :: (unlines (List.replicate n "end")).toList := by
      simp [unlines, List.replicate_succ, String.join_cons]
    rw [hlines]
    exact hword.append_line (by decide) (lexes_ends n)

/-- The tokens of a text with `end`s are its own, up to the end, and the `end`s. -/
theorem scan_withEnds {source : String} {before : List Token} {last : Token}
    (hscan : scan source = before ++ [last]) (n : Nat) : (scan (withEnds source n)).map Token.bare =
      (before ++ List.replicate n endWord ++ [padding]).map Token.bare := by
  obtain ⟨ls, hls⟩ := exists_lexes source.toList
  have hbefore : before.map Token.bare = ls := by
    have hall := lexes_scan.1 hls
    rw [hscan, List.map_append, List.map_singleton] at hall
    exact (List.append_inj' hall rfl).1
  have hlexes : Lexes (withEnds source n).toList (ls ++ List.replicate n (.closeBlock, "end")) := by
    have htext : (withEnds source n).toList = source.toList ++ lackingQuote source.toList ++
        '\n' :: (unlines (List.replicate n "end")).toList := by
      simp [withEnds]
    rw [htext]
    exact hls.append_closed (lexes_ends n)
  rw [lexes_scan.1 hlexes, ← hbefore]
  simp [Token.bare, endWord, padding]

namespace Shell

/-! ## Texts -/

/-- Some `end`s are all that the text lacks: with them it is a program. -/
def LacksEnds (source : String) : Prop := ∃ n, 0 < n ∧ (parseSource (withEnds source n)).problems = []

/-- **The shell waits** for more lines if and only if some `end`s are all that is missing. -/
theorem waits_iff_lacksEnds (source : String) : Waits source ↔ LacksEnds source := by
  obtain ⟨before, last, hscan, hlast, hbefore⟩ := exists_scan_eq source
  have hpads : ∀ t ∈ [last], t.kind = .eof := fun t ht => List.mem_singleton.1 ht ▸ hlast
  have hpadding : ∀ t ∈ [padding], t.kind = .eof := by decide
  have hwords (n : Nat) : ∀ e ∈ List.replicate n endWord, e.kind = .closeBlock := fun e he => by
    rw [List.eq_of_mem_replicate he]
    rfl
  have hends (n : Nat) : (parseSource (withEnds source n)).problems = [] ↔
      (∀ p ∈ (parseSource source).problems, p.isOpenBlock = true) ∧ (parseSource source).problems.length = n := by
    have hbare := scan_withEnds hscan n
    rw [parseSource, parseSource, hscan]
    refine .trans ⟨problems_eq_nil_of_bare_eq hbare.symm, problems_eq_nil_of_bare_eq hbare⟩ ?_
    refine (closed_by_ends nestingLimit hbefore (hwords n) hpads hpadding).symm.trans ?_
    rw [List.length_replicate]
    rfl
  simp only [Waits, LacksEnds, Problem.startsWith_message_iff, hends]
  constructor
  · rintro ⟨hne, hblocks⟩
    exact ⟨_, List.length_pos_iff.2 hne, hblocks, rfl⟩
  · rintro ⟨n, hn, hblocks, hlength⟩
    exact ⟨List.length_pos_iff.1 (hlength ▸ hn), hblocks⟩

/-- While it waits a block is open. -/
theorem LacksEnds.exists_unclosed {source : String} (h : LacksEnds source) : ∃ before t after,
    scan source = before ++ t :: after ∧ t.kind = .openBlock ∧ ¬ Closed after := by
  obtain ⟨hne, hblocks⟩ := (waits_iff_lacksEnds source).2 h
  obtain ⟨p, ps, hproblems⟩ := List.exists_cons_of_ne_nil hne
  have hp := (Problem.startsWith_message_iff p).1 (hblocks p (by simp [hproblems]))
  cases p with
  | openBlock t =>
    have hfront : (parseSource source).problems = [] ++ .openBlock t :: ps := hproblems
    obtain ⟨before, after, hscan, hkind, hstrays⟩ := unclosed_program nestingLimit (scan source) hfront
    have hopen : Strays 0 after := strays_of_scan hscan (by rw [hkind]; decide) hstrays
    exact ⟨before, t, after, hscan, hkind, hopen.not_closed⟩
  | _ => cases hp

/-! ## Lines -/

section Lines

variable (cfg : Config) (s : Store)

/-- Lines are kept as long as each of them leaves a block open. -/
theorem enterAll_of_opening {lines : List String} (h : Opening lines) :
    enterAll cfg lines { store := s } =
      { store := s, pending := unlines lines, prompt := if lines = [] then firstPrompt else openPrompt } := by
  induction lines using List.reverseRecOn with
  | nil => rfl
  | append_singleton lines line ih =>
    have hwaits := h.waits (by simp)
    rw [unlines_concat] at hwaits
    rw [enterAll_concat, ih fun first hne hfirst => h first hne (hfirst.trans (List.prefix_append _ _)),
      @enter_of_waits cfg line ⟨s, unlines lines, _⟩ hwaits, unlines_concat]
    simp

/-- A text that is not waited for is dropped, once it is run or its problems are printed. -/
theorem pending_of_not_waits {line : String} {sh : Shell} (h : ¬ Waits (sh.pending ++ line ++ "\n")) :
    (sh.enter cfg line).2.pending = "" ∧ (sh.enter cfg line).2.prompt = firstPrompt := by
  by_cases hproblems : (parseSource (sh.pending ++ line ++ "\n")).problems = []
  · rw [enter_of_complete cfg rfl hproblems, runProgram_snd]
    exact ⟨rfl, rfl⟩
  · rw [enter_of_problems cfg rfl h hproblems]
    exact ⟨rfl, rfl⟩

/-- What is pending are the last lines, after each of which a block was open. -/
theorem exists_opening (lines : List String) : ∃ dropped kept, lines = dropped ++ kept ∧ Opening kept ∧
    (enterAll cfg lines { store := s }).pending = unlines kept := by
  induction lines using List.reverseRecOn with
  | nil => exact ⟨[], [], rfl, .nil, rfl⟩
  | append_singleton lines line ih =>
    obtain ⟨dropped, kept, hlines, hopening, hpending⟩ := ih
    have hsource : (enterAll cfg lines { store := s }).pending ++ line ++ "\n" = unlines (kept ++ [line]) := by
      rw [hpending, unlines_concat]
    rw [enterAll_concat]
    by_cases hwaits : Waits (unlines (kept ++ [line]))
    · refine ⟨dropped, kept ++ [line], by rw [hlines, List.append_assoc], hopening.concat hwaits, ?_⟩
      rw [enter_of_waits cfg (hsource ▸ hwaits)]
      exact hsource
    · exact ⟨lines ++ [line], [], (List.append_nil _).symm, .nil, (pending_of_not_waits cfg (hsource ▸ hwaits)).1⟩

theorem unlines_append (lines more : List String) : unlines (lines ++ more) = unlines lines ++ unlines more := by
  simp [unlines, String.join_append]

/-- Where all lines are pending, each of them has left a block open. -/
theorem opening_of_pending {lines : List String}
    (h : (enterAll cfg lines { store := s }).pending = unlines lines) : Opening lines := by
  obtain ⟨dropped, kept, rfl, hopening, hpending⟩ := exists_opening cfg s lines
  have hnone : unlines dropped = "" := by
    have hlength := congrArg String.length (hpending.symm.trans h)
    rw [unlines_append, String.length_append] at hlength
    exact String.length_eq_zero_iff.1 (by omega)
  rwa [(unlines_eq_empty_iff dropped).1 hnone]

end Lines

/-- **How long the shell waits.** Lines that are given to a new shell are all kept, with the second prompt and
nothing run or printed, if and only if after each of them some `end`s were all that was missing. While that is so
a block is open. The first line after which it is not so leaves nothing pending; if anything is wrong with the
lines, be it a block that is open inside of something else, all that is wrong is printed and nothing is run. -/
theorem enterAll_waits_iff (cfg : Config) (s : Store) {lines : List String} (hne : lines ≠ []) :
    let sh := enterAll cfg lines { store := s }
    (sh = { store := s, pending := unlines lines, prompt := openPrompt } ↔
      ∀ first, first ≠ [] → first <+: lines → LacksEnds (unlines first)) ∧
    (∀ source, LacksEnds source → ∃ before t after,
      scan source = before ++ t :: after ∧ t.kind = .openBlock ∧ ¬ Closed after) ∧
    ((∀ first, first ≠ [] → first <+: lines.dropLast → LacksEnds (unlines first)) → ¬ LacksEnds (unlines lines) →
      let problems := (parseSource (unlines lines)).problems
      sh.pending = "" ∧ sh.prompt = firstPrompt ∧
        (problems ≠ [] → sh.store = (problems.map ("\t" ++ ·.message)).foldl Store.print s)) := by
  intro sh
  have hopening (lines : List String) : Opening lines ↔
      ∀ first, first ≠ [] → first <+: lines → LacksEnds (unlines first) := by
    simp only [Opening, waits_iff_lacksEnds]
  refine ⟨?_, fun _ => LacksEnds.exists_unclosed, fun hkept hlacks => ?_⟩
  · rw [← hopening]
    refine ⟨fun h => opening_of_pending cfg s (congrArg Shell.pending h), fun h => ?_⟩
    have hsh := enterAll_of_opening cfg s h
    rwa [if_neg hne] at hsh
  · obtain ⟨init, line, rfl⟩ : ∃ init line, lines = init ++ [line] :=
      ⟨_, _, (List.dropLast_concat_getLast hne).symm⟩
    rw [List.dropLast_concat, ← hopening] at hkept
    rw [← waits_iff_lacksEnds] at hlacks
    obtain ⟨shell, hinit⟩ : ∃ shell, enterAll cfg init { store := s } = shell := ⟨_, rfl⟩
    have hsh : sh = (shell.enter cfg line).2 := hinit ▸ enterAll_concat cfg init line _
    rw [enterAll_of_opening cfg s hkept] at hinit
    have hsource : shell.pending ++ line ++ "\n" = unlines (init ++ [line]) := by
      rw [← hinit, unlines_concat]
    obtain ⟨hpending, hprompt⟩ := pending_of_not_waits cfg (hsource ▸ hlacks)
    refine ⟨hsh ▸ hpending, hsh ▸ hprompt, fun hproblems => ?_⟩
    rw [hsh, enter_of_problems cfg hsource hlacks hproblems, ← hinit]

/-- Two blocks, one in the other. The last line opens a third one in the arguments of a call. -/
theorem enterAll_waits_iff_nested :
    let lines := ["value f = fn(x) ->", "if (x) ->"]
    let sh := enterAll {} lines { store := Store.start false }
    lines ≠ [] ∧ sh = { store := Store.start false, pending := unlines lines, prompt := openPrompt } ∧
      ¬ LacksEnds (unlines (lines ++ ["puts(fn() ->"])) := by
  intro lines sh
  have hlacks : ∀ first, first ≠ [] → first <+: lines → LacksEnds (unlines first) := by
    intro first hne hfirst
    obtain ⟨more, rfl, rfl | rfl⟩ : ∃ more, first = "value f = fn(x) ->" :: more ∧
        (more = [] ∨ more = ["if (x) ->"]) := by
      simpa [lines, List.prefix_cons_iff, hne] using hfirst
    · exact ⟨1, by decide, by decide +kernel⟩
    · exact ⟨2, by decide, by decide +kernel⟩
  refine ⟨by decide, (enterAll_waits_iff {} (Store.start false) (by decide : lines ≠ [])).1.2 hlacks, ?_⟩
  rw [← waits_iff_lacksEnds, ← isIncomplete_iff]
  decide +kernel

/-- The text has an arrow whose `end` comes later in the whole text. -/
def OpenIn (whole source : String) : Prop :=
  ∃ front t shown inner closing rest, (scan source).dropLast = front ++ t :: shown ∧ t.kind = .openBlock ∧
    scan whole = front ++ t :: inner ++ closing :: rest ∧ Bracketed inner ∧ closing.kind = .closeBlock ∧
    shown <+: inner

/-- In `puts(fn() ->`, `1` and `end)` a block is open after the first line, but the shell does not wait. -/
theorem open_arguments_unwaited :
    ¬ ∀ (cfg : Config) (s : Store) (all lines : List String), (parseSource (unlines all)).problems = [] →
      lines ≠ [] → lines <+: all → lines ≠ all →
      (∀ first, first ≠ [] → first <+: lines →
        endsInString (unlines first).toList = false ∧ OpenIn (unlines all) (unlines first)) →
      enterAll cfg lines { store := s } = { store := s, pending := unlines lines, prompt := openPrompt } := by
  intro h
  have hopen : ∀ first, first ≠ [] → first <+: ["puts(fn() ->"] →
      endsInString (unlines first).toList = false ∧
        OpenIn (unlines ["puts(fn() ->", "1", "end)"]) (unlines first) := by
    intro first hne hfirst
    obtain rfl : first = ["puts(fn() ->"] := by simpa [List.prefix_cons_iff, hne] using hfirst
    have hend : endsInString (unlines ["puts(fn() ->"]).toList = false := by decide +kernel
    refine ⟨hend, [⟨.ident, "puts", 1, 1⟩, ⟨.lparen, "(", 1, 5⟩, ⟨.fnWord, "fn", 1, 6⟩, ⟨.lparen, "(", 1, 8⟩,
      ⟨.rparen, ")", 1, 9⟩], ⟨.openBlock, "->", 1, 11⟩, [], [⟨.int, "1", 2, 1⟩], ⟨.closeBlock, "end", 3, 1⟩,
      [⟨.rparen, ")", 3, 4⟩, ⟨.eof, "", 4, 1⟩], ?_, rfl, ?_, ?_, rfl, List.nil_prefix⟩
    · decide +kernel
    · decide +kernel
    · exact .other (by decide) (by decide) .nil
  have hwaits := h {} (Store.start false) _ _ (by decide +kernel) (by decide) (by decide) (by decide) hopen
  have hprompt : (enterAll {} ["puts(fn() ->"] { store := Store.start false }).prompt = firstPrompt := by
    decide +kernel
  rw [hwaits] at hprompt
  exact absurd hprompt (by decide)

end Shell

end SepiaLang
