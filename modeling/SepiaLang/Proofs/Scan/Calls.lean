import SepiaLang.Proofs.Scan.Registers

/-!
# Calls in any order

A scanner need not be used to get one token after the other. Each of its parts may be called on its own, in
any order, in the middle of a piece of text and past the end.

* `Call`, `Answer`: what a scanner may be asked for, and what it gives back.
* `Registers.answer`, `Cursor.answer`: the answer found by single steps, and that of a cursor.
* `Registers.Agrees`: what the registers have to do with the text.
* `Cursor.On.answer_registers`, `Cursor.exists_advanceBy_answer`: every call ends, where the cursor is, and
  only takes steps forward.
* **`registers_in_step`**: after every sequence of calls the registers agree with the text.
-/

namespace SepiaLang

/-- What a scanner may be asked for. The operator ahead is asked for with the place that its token is
to have. -/
inductive Call where
  | step
  | peek
  | skipLayout
  | skipComment
  | readString
  | readWord
  | readDigits
  | readOperator (line column : Int)
  | nextToken
  deriving DecidableEq, Repr

/-- What a scanner gives back. It refuses to read an operator if none is ahead. -/
inductive Answer where
  | nothing
  | char (c : Char)
  | text (text : String)
  | token (t : Token)
  | refused
  deriving DecidableEq, Repr

/-- The answer to a call, and the registers after it, if the call ends. A call that is refused changes
nothing. -/
def Registers.answer (text : List Char) (r : Registers) : Call → Part (Answer × Registers)
  | .step => Part.some (.nothing, r.step text)
  | .peek => Part.some (.char (r.peek text), r)
  | .skipLayout => (r.loopOver text isLayout).map fun r' => (.nothing, r')
  | .skipComment => (r.loopOver text inComment).map fun r' => (.nothing, r')
  | .readString => (r.readString text).map fun (literal, r') => (.text literal, r')
  | .readWord => (r.readWhile text isLetter).map fun (literal, r') => (.text literal, r')
  | .readDigits => (r.readWhile text isDigit).map fun (literal, r') => (.text literal, r')
  | .readOperator line column =>
    match r.readOperator text line column with
    | some (t, r') => Part.some (.token t, r')
    | none => Part.some (.refused, r)
  | .nextToken => (r.nextToken text).map fun (t, r') => (.token t, r')

/-- The answers to calls, one after the other. -/
def Registers.answers (text : List Char) (r : Registers) : List Call → Part (List Answer × Registers)
  | [] => Part.some ([], r)
  | call :: calls => do
    let (first, r) ← r.answer text call
    let (others, r) ← r.answers text calls
    return (first :: others, r)

/-- The answer of a cursor to a call, and the cursor after it. -/
def Cursor.answer (c : Cursor) : Call → Answer × Cursor
  | .step => (.nothing, c.advance)
  | .peek => (.char c.peek, c)
  | .skipLayout => (.nothing, c.skipLayout)
  | .skipComment => (.nothing, c.skipComment)
  | .readString => (.text c.readString.1, c.readString.2)
  | .readWord => (.text c.readWord.1, c.readWord.2)
  | .readDigits => (.text c.readDigits.1, c.readDigits.2)
  | .readOperator line column =>
    match c.readOperator with
    | some (t, c') => (.token { t with line, column }, c')
    | none => (.refused, c)
  | .nextToken => (.token c.nextToken.1, c.nextToken.2)

/-- The answers of a cursor to calls, one after the other. -/
def Cursor.answers (c : Cursor) : List Call → List Answer × Cursor
  | [] => ([], c)
  | call :: calls =>
    let (first, c) := c.answer call
    let (others, c) := c.answers calls
    (first :: others, c)

/-- The registers agree with the text: the character was read at the offset, the next one is read right
after it, and line and column are those of the offset. -/
structure Registers.Agrees (text : List Char) (r : Registers) : Prop where
  readingPosition_eq : r.readingPosition = r.position + 1
  current_eq : r.current = text.getD r.position nul
  place : Place text r.position r.line r.column

/-! ## One call -/

namespace Cursor

variable {text : List Char} {c : Cursor}

theorem On.agrees (h : c.On text) : c.registers.Agrees text := ⟨rfl, h.current_eq, h.place⟩

/-- **Every call ends**, with the answer of the cursor and where the cursor is. -/
theorem On.answer_registers (h : c.On text) (call : Call) :
    c.registers.answer text call = Part.some ((c.answer call).1, (c.answer call).2.registers) := by
  cases call with
  | step => exact congrArg (fun r => Part.some (_, r)) h.step_registers
  | peek => rw [Registers.answer, h.peek_registers]; rfl
  | skipLayout => rw [Registers.answer, h.skipLayout_registers, Part.map_some]; rfl
  | skipComment => rw [Registers.answer, h.skipComment_registers, Part.map_some]; rfl
  | readString => rw [Registers.answer, h.readString_registers, Part.map_some]; rfl
  | readWord | readDigits => rw [Registers.answer, h.readWhile_registers (by decide), Part.map_some]; rfl
  | readOperator line column =>
    rw [Registers.answer, h.readOperator_registers, answer]
    cases c.readOperator <;> rfl
  | nextToken => rw [Registers.answer, h.nextToken_registers, Part.map_some]; rfl

/-- A call takes steps forward, and nothing else. -/
theorem exists_advanceBy_answer (c : Cursor) (call : Call) : ∃ n, (c.answer call).2 = c.advanceBy n := by
  cases call with
  | step => exact ⟨1, rfl⟩
  | peek => exact ⟨0, rfl⟩
  | skipLayout | skipComment | readString | readWord | readDigits => exact ⟨_, rfl⟩
  | readOperator line column =>
    rw [answer]
    split
    next t c' hop => exact (of_readOperator hop).2.2
    next => exact ⟨0, rfl⟩
  | nextToken =>
    change ∃ n, c.nextToken.2 = _
    cases hrest : c.skipGap.rest with
    | nil => exact ⟨_, by rw [nextToken_of_nil hrest]; rfl⟩
    | cons ch tail =>
      obtain ⟨n, hsteps⟩ := (takes_nextToken hrest).steps
      exact ⟨_, by rw [hsteps, skipGap, advanceBy_advanceBy]⟩

theorem On.answer (h : c.On text) (call : Call) : (c.answer call).2.On text := by
  obtain ⟨n, hsteps⟩ := exists_advanceBy_answer c call
  rw [hsteps]
  exact h.advanceBy n

theorem position_le_answer (c : Cursor) (call : Call) : c.position ≤ (c.answer call).2.position := by
  obtain ⟨n, hsteps⟩ := exists_advanceBy_answer c call
  rw [hsteps, position_advanceBy]
  exact Nat.le_add_right _ _

/-! ## Sequences of calls -/

/-- **Every sequence of calls ends.** -/
theorem On.answers_registers (h : c.On text) (calls : List Call) :
    c.registers.answers text calls = Part.some ((c.answers calls).1, (c.answers calls).2.registers) ∧
      (c.answers calls).2.On text := by
  induction calls generalizing c with
  | nil => exact ⟨rfl, h⟩
  | cons call calls ih =>
    obtain ⟨hcalls, hon⟩ := ih (h.answer call)
    refine ⟨?_, hon⟩
    rw [Registers.answers, h.answer_registers, Part.bind_eq_bind, Part.bind_some]
    dsimp only
    rw [hcalls, Part.bind_eq_bind, Part.bind_some]
    rfl

theorem answers_cons (c : Cursor) (call : Call) (calls : List Call) :
    c.answers (call :: calls) =
      ((c.answer call).1 :: ((c.answer call).2.answers calls).1, ((c.answer call).2.answers calls).2) := rfl

/-- After the last token the cursor stays. -/
theorem nextToken_of_eof (heof : c.nextToken.1.kind = .eof) : c.nextToken.2.nextToken = c.nextToken := by
  have hrest := rest_skipGap_of_eof heof
  have hstays : c.skipGap.skipGap = c.skipGap := skipGap_of_solid (by rw [hrest]; exact nofun)
  have hagain : c.skipGap.nextToken = (c.skipGap.token .eof "", c.skipGap) := by
    rw [nextToken_of_nil (by rw [hstays, hrest]), hstays]
  rw [nextToken_of_nil hrest, hagain]

/-- **After the last token** the same token is given again, however often. -/
theorem answers_replicate_nextToken (heof : c.nextToken.1.kind = .eof) (n : Nat) :
    c.nextToken.2.answers (List.replicate n .nextToken) =
      (List.replicate n (.token c.nextToken.1), c.nextToken.2) := by
  have hanswer : c.nextToken.2.answer .nextToken = (.token c.nextToken.1, c.nextToken.2) := by
    rw [answer, nextToken_of_eof heof]
  induction n with
  | zero => rfl
  | succ n ih => rw [List.replicate_succ, answers_cons, hanswer, ih, List.replicate_succ]

end Cursor

/-- **Registers and text stay in step, whatever a scanner is asked for.** A scanner at the start of a text is
asked for anything, in any order. Every call ends; it gives the answer of the cursor and leaves the
registers where the cursor is. They agree with the text then. No further call leads back, and once the token
`eof` was given, it is given again as often as it is asked for, with nothing changed. -/
theorem registers_in_step (source : String) (calls : List Call) :
    ∃ (answers : List Answer) (c : Cursor) (r : Registers),
      (Cursor.start source.toList).answers calls = (answers, c) ∧ c.registers = r ∧
      (Registers.start source.toList).answers source.toList calls = Part.some (answers, r) ∧
      r.Agrees source.toList ∧
      (∀ call, ∃ next r', r.answer source.toList call = Part.some (next, r') ∧ r.position ≤ r'.position) ∧
      ∀ t r', r.nextToken source.toList = Part.some (t, r') → t.kind = .eof →
        ∀ n, r'.answers source.toList (List.replicate n .nextToken) =
          Part.some (List.replicate n (.token t), r') := by
  obtain ⟨hcalls, hon⟩ := (Cursor.On.start source.toList).answers_registers calls
  refine ⟨_, _, _, rfl, rfl, by rw [Cursor.registers_start]; exact hcalls, hon.agrees, fun call => ?_, ?_⟩
  · exact ⟨_, _, hon.answer_registers call, Cursor.position_le_answer _ call⟩
  · intro t r' hnext heof n
    rw [hon.nextToken_registers, Part.some_inj] at hnext
    cases hnext
    refine ((hon.answer .nextToken).answers_registers _).1.trans ?_
    exact congrArg (fun p => Part.some (p.1, p.2.registers)) (Cursor.answers_replicate_nextToken heof n)

/-- Past the end the column is still counted from the last line feed. -/
example : ((Cursor.start "\"a\n".toList).answers [.nextToken, .step, .readString]).2.registers =
    { position := 6, readingPosition := 7, current := nul, line := 2, column := 4 } := by decide

end SepiaLang
