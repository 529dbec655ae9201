import Mathlib.Data.PFun
import SepiaLang.Proofs.Scan.Lexes

/-!
# Scanning with registers

A cursor has the rest of the text at hand, and takes all the steps of a piece of text at once. A scanner
that has five registers only takes one step after the other: it keeps the offset where it stands, the
offset that it reads next, the character it has read, the line and the column, and it asks nothing but its
registers whether a loop goes on. Nothing in its definition ties the registers to one another, and nothing
says that its loops end.

* `Registers.loop`: the steps of a loop, which has no result if it goes on for ever.
* `Registers.nextToken`: the next token, found with loops.
* `Cursor.registers`: the registers of a scanner that is where the cursor is.
* **`Cursor.On.loop_registers`**: loops end, after as many steps as the cursor takes.
* `Cursor.skipGap_eq`: the gap ahead, cut into the loops over blanks and over comments.
* **`Cursor.On.nextToken_registers`**: the next token is that of the cursor.
-/

namespace SepiaLang

/-- What a scanner keeps. `current` is the character that was read last, and `readingPosition` the
offset of the one that is read next. -/
structure Registers where
  position : Nat
  readingPosition : Nat
  current : Char
  line : Nat
  column : Nat
  deriving DecidableEq, Repr

namespace Registers

/-- One step: the next character is read. A step from a line feed leads to the first column of the next
line. -/
def step (text : List Char) (r : Registers) : Registers where
  position := r.readingPosition
  readingPosition := r.readingPosition + 1
  current := text.getD r.readingPosition nul
  line := if r.current = '\n' then r.line + 1 else r.line
  column := if r.current = '\n' then 1 else r.column + 1

/-- Before anything was read. -/
def blank : Registers := { position := 0, readingPosition := 0, current := nul, line := 1, column := 0 }

/-- On the first character of a text. -/
def start (text : List Char) : Registers := blank.step text

/-- The character that is read next. -/
def peek (text : List Char) (r : Registers) : Char := text.getD r.readingPosition nul

/-- Steps, as long as the registers satisfy a condition. -/
def loop (text : List Char) (goesOn : Registers → Bool) (r : Registers) : Part Registers :=
  PFun.fix (fun r => Part.some (if goesOn r then .inr (r.step text) else .inl r)) r

/-- Steps over characters of a class. -/
def loopOver (text : List Char) (p : Char → Bool) (r : Registers) : Part Registers :=
  r.loop text fun r => p r.current

/-- The blanks ahead, and the comment after them, if there is one: then more may follow. -/
def gapRound (text : List Char) (r : Registers) : Part (Registers ⊕ Registers) := do
  let r ← r.loopOver text isLayout
  if r.current = '#' then
    let r ← r.loopOver text inComment
    return .inr r
  else
    return .inl r

/-- Over the blanks and comments ahead. -/
def skipGap (text : List Char) (r : Registers) : Part Registers := PFun.fix (gapRound text) r

/-- The characters of a class ahead: the text from the offset before the loop to the one after it. -/
def readWhile (text : List Char) (p : Char → Bool) (r : Registers) : Part (String × Registers) := do
  let r' ← r.loopOver text p
  return (String.ofList (text.extract r.position r'.position), r')

/-- Before the closing quote of a string, or the end. The offset tells the end from a character `nul` of
the text. -/
def inString (text : List Char) (r : Registers) : Bool := r.current != '"' && r.position < text.length

/-- The text after the current character up to the next double quote or the end. At least one step is
taken. -/
def readString (text : List Char) (r : Registers) : Part (String × Registers) := do
  let r' ← (r.step text).loop text (inString text)
  return (String.ofList (text.extract (r.position + 1) r'.position), r')

/-- A token that starts where the registers are. -/
def token (r : Registers) (kind : Kind) (literal : String) : Token :=
  { kind, literal, line := r.line, column := r.column }

/-- The operator ahead, said to be at a given place. There is none where the current character starts no
operator. -/
def readOperator (text : List Char) (line column : Int) (r : Registers) : Option (Token × Registers) :=
  (compound? r.current).map fun (longer, alone) =>
    match longer.lookup (r.peek text) with
    | some kind =>
      ({ kind, literal := String.ofList [r.current, r.peek text], line, column }, r.step text)
    | none => ({ kind := alone, literal := String.singleton r.current, line, column }, r)

/-- The token on the current character. -/
def tokenHere (text : List Char) (r : Registers) : Part (Token × Registers) :=
  match single? r.current, r.readOperator text r.line r.column with
  | some kind, _ => Part.some (r.token kind (String.singleton r.current), r.step text)
  | none, some (t, r') => Part.some (t, r'.step text)
  | none, none =>
    if r.current = '"' then do
      let (literal, r') ← r.readString text
      return (r.token .string literal, r'.step text)
    else if isLetter r.current then do
      let (literal, r') ← r.readWhile text isLetter
      return (r.token (.ofWord literal) literal, r')
    else if isDigit r.current then do
      let (literal, r') ← r.readWhile text isDigit
      return (r.token .int literal, r')
    else
      Part.some (r.token .illegal (String.singleton r.current), r.step text)

/-- The next token. Here too the offset tells the end from a character `nul`. -/
def nextToken (text : List Char) (r : Registers) : Part (Token × Registers) := do
  let r ← r.skipGap text
  if r.current = nul ∧ text.length ≤ r.position then
    return (r.token .eof "", r)
  else
    r.tokenHere text

variable {text : List Char} {goesOn : Registers → Bool} {r : Registers}

theorem loop_of_stops (h : goesOn r = false) : r.loop text goesOn = Part.some r := by
  refine Part.eq_some_iff.2 (PFun.fix_stop ?_)
  rw [h]
  exact Part.mem_some _

theorem loop_of_goesOn (h : goesOn r = true) : r.loop text goesOn = (r.step text).loop text goesOn := by
  refine PFun.fix_fwd_eq ?_
  rw [h]
  exact Part.mem_some _

end Registers

/-! ## Steps and loops -/

namespace Cursor

/-- What the registers of a scanner hold that is where the cursor is. -/
def registers (c : Cursor) : Registers where
  position := c.position
  readingPosition := c.position + 1
  current := c.current
  line := c.line
  column := c.column

variable {text : List Char} {c : Cursor}

theorem On.current_eq (h : c.On text) : c.current = text.getD c.position nul := by
  rw [current, List.headD_eq_head?_getD, ← h.getElem?_position, List.getD_eq_getElem?_getD]

/-- **One step.** -/
theorem On.step_registers (h : c.On text) : c.registers.step text = c.advance.registers := by
  have hnext : text.getD (c.position + 1) nul = c.advance.current := by
    rw [h.advance.current_eq, position_advance]
  unfold Registers.step registers
  simp only [hnext]
  unfold Cursor.advance
  split <;> rfl

theorem On.peek_registers (h : c.On text) : c.registers.peek text = c.peek := by
  have hnext := h.advance.current_eq
  rw [position_advance, current, rest_advance] at hnext
  exact hnext.symm

theorem registers_start (text : List Char) : Registers.start text = (Cursor.start text).registers := by
  cases text <;> rfl

theorem On.rest_eq_nil_iff (h : c.On text) : c.rest = [] ↔ text.length ≤ c.position := by
  rw [h.rest_eq, List.drop_eq_nil_iff]

/-- **A loop** over characters of a class, whatever registers it asks for the class. It takes a step for
each of them and ends. -/
theorem On.loop_registers {p : Char → Bool} {goesOn : Registers → Bool}
    (hgoesOn : ∀ c : Cursor, c.On text → goesOn c.registers = c.rest.head?.any p) (h : c.On text) :
    c.registers.loop text goesOn = Part.some (c.advanceBy (c.rest.takeWhile p).length).registers := by
  generalize hrest : c.rest = rest
  induction rest generalizing c with
  | nil =>
    have hstops : goesOn c.registers = false := by rw [hgoesOn c h, hrest]; rfl
    rw [Registers.loop_of_stops hstops]
    rfl
  | cons ch tail ih =>
    have hcond : goesOn c.registers = p ch := by rw [hgoesOn c h, hrest]; rfl
    cases hch : p ch with
    | true =>
      rw [Registers.loop_of_goesOn (hcond.trans hch), h.step_registers,
        ih h.advance (by rw [rest_advance, hrest]; rfl), List.takeWhile_cons_of_pos hch]
      rfl
    | false =>
      rw [Registers.loop_of_stops (hcond.trans hch), List.takeWhile_cons_of_neg (by rw [hch]; decide)]
      rfl

/-- A class without `nul` can be asked of the current character: past the end the loop stops. -/
theorem On.loopOver_registers {p : Char → Bool} (hp : p nul = false) (h : c.On text) :
    c.registers.loopOver text p = Part.some (c.advanceBy (c.rest.takeWhile p).length).registers := by
  refine h.loop_registers fun c _ => ?_
  change p (c.rest.headD nul) = _
  cases c.rest with
  | nil => exact hp
  | cons ch tail => rfl

theorem On.skipLayout_registers (h : c.On text) :
    c.registers.loopOver text isLayout = Part.some c.skipLayout.registers := h.loopOver_registers (by decide)

theorem On.skipComment_registers (h : c.On text) :
    c.registers.loopOver text inComment = Part.some c.skipComment.registers := h.loopOver_registers (by decide)

/-- The text that a cursor goes over. -/
theorem On.extract_eq_take (h : c.On text) (n : Nat) :
    text.extract c.position (c.position + n) = c.rest.take n := by
  change (text.drop c.position).take _ = _
  rw [h.rest_eq, Nat.add_sub_cancel_left]

theorem take_length_takeWhile (p : Char → Bool) (text : List Char) :
    text.take (text.takeWhile p).length = text.takeWhile p :=
  (List.prefix_iff_eq_take.1 (List.takeWhile_prefix p)).symm

theorem On.readWhile_registers {p : Char → Bool} (hp : p nul = false) (h : c.On text) :
    c.registers.readWhile text p = Part.some ((c.readWhile p).1, (c.readWhile p).2.registers) := by
  have hrun : text.extract c.position (c.advanceBy (c.rest.takeWhile p).length).position =
      c.rest.takeWhile p := by
    rw [position_advanceBy, h.extract_eq_take, take_length_takeWhile]
  rw [Registers.readWhile, h.loopOver_registers hp, Part.bind_eq_bind, Part.bind_some]
  exact congrArg (fun run => Part.some (String.ofList run, _)) hrun

theorem On.inString_registers (h : c.On text) :
    Registers.inString text c.registers = c.rest.head?.any (· != '"') := by
  have hend := h.rest_eq_nil_iff
  change (c.rest.headD nul != '"' && decide (c.position < text.length)) = _
  cases hrest : c.rest with
  | nil => simp [hend.1 hrest]
  | cons ch tail =>
    have hlt : c.position < text.length := by
      rw [← Nat.not_le, ← hend, hrest]
      exact List.cons_ne_nil _ _
    simp [hlt]

theorem On.readString_registers (h : c.On text) :
    c.registers.readString text = Part.some (c.readString.1, c.readString.2.registers) := by
  have hloop := h.advance.loop_registers fun _ hon => hon.inString_registers
  have hrun : text.extract (c.position + 1)
      (c.advance.advanceBy (c.advance.rest.takeWhile (· != '"')).length).position =
        c.rest.tail.takeWhile (· != '"') := by
    rw [position_advanceBy, ← position_advance, h.advance.extract_eq_take, take_length_takeWhile, rest_advance]
  rw [Registers.readString, h.step_registers, hloop, Part.bind_eq_bind, Part.bind_some]
  refine (congrArg (fun run => Part.some (String.ofList run, _)) hrun).trans ?_
  rw [rest_advance]
  rfl

/-! ## Gaps -/

theorem gapLength_layout (text : List Char) :
    gapLength false text = (text.takeWhile isLayout).length + gapLength false (text.dropWhile isLayout) := by
  induction text with
  | nil => rfl
  | cons ch text ih =>
    cases hch : isLayout ch with
    | true =>
      rw [List.takeWhile_cons_of_pos hch, List.dropWhile_cons_of_pos hch, gapLength, if_neg (by decide),
        if_pos hch, ih, List.length_cons]
      omega
    | false => simp [hch]

theorem gapLength_comment (tail : List Char) :
    gapLength false ('#' :: tail) =
      (('#' :: tail).takeWhile inComment).length + gapLength false (('#' :: tail).dropWhile inComment) := by
  have hhash : inComment '#' = true := by decide
  have hbody : gapLength true tail =
      (tail.takeWhile inComment).length + gapLength true (tail.dropWhile inComment) :=
    calc gapLength true tail
        = gapLength true (tail.takeWhile inComment ++ tail.dropWhile inComment) := by
          rw [List.takeWhile_append_dropWhile]
      _ = _ := gapLength_append fun _ hc => List.mem_takeWhile_imp hc
  rw [List.takeWhile_cons_of_pos hhash, List.dropWhile_cons_of_pos hhash, gapLength, if_neg (by decide),
    if_neg (by decide), if_pos rfl, hbody, gapLength_true head?_dropWhile, List.length_cons]
  omega

theorem skipGap_of_solid (h : ∀ ch ∈ c.rest.head?, Solid ch) : c.skipGap = c := by
  have hnothing : gapLength false c.rest = 0 := Gap.nil.length_eq h
  rw [skipGap, hnothing]
  rfl

theorem rest_of_current {ch : Char} (h : c.current = ch) (hne : ch ≠ nul) : ∃ tail, c.rest = ch :: tail := by
  rw [current] at h
  cases hrest : c.rest with
  | nil => rw [hrest] at h; exact absurd h.symm hne
  | cons d tail => rw [hrest] at h; exact ⟨tail, congrArg (· :: tail) h⟩

theorem rest_skipLayout (c : Cursor) : c.skipLayout.rest = c.rest.dropWhile isLayout :=
  rest_readWhile isLayout c

theorem rest_skipComment (c : Cursor) : c.skipComment.rest = c.rest.dropWhile inComment :=
  rest_readWhile inComment c

/-- **A gap is a loop**: blanks, and as long as a comment comes after them, the comment and the next gap. -/
theorem skipGap_eq (c : Cursor) :
    c.skipGap = if c.skipLayout.current = '#' then c.skipLayout.skipComment.skipGap else c.skipLayout := by
  have hblanks : c.skipGap = c.skipLayout.skipGap := by
    rw [skipGap, skipGap, rest_skipLayout, gapLength_layout, ← advanceBy_advanceBy]
    rfl
  have hafter : ∀ ch ∈ c.skipLayout.rest.head?, isLayout ch = false := by
    rw [rest_skipLayout]
    exact head?_dropWhile
  rw [hblanks]
  split
  next hhash =>
    obtain ⟨tail, hrest⟩ := rest_of_current hhash (by decide)
    rw [skipGap, skipGap, rest_skipComment, hrest, gapLength_comment, ← advanceBy_advanceBy, ← hrest]
    rfl
  next hhash =>
    refine skipGap_of_solid fun ch hch => ⟨hafter ch hch, ?_⟩
    rintro rfl
    rw [current, List.headD_eq_head?_getD, Option.mem_def.1 hch] at hhash
    exact hhash rfl

theorem On.gapRound_registers (h : c.On text) :
    c.registers.gapRound text = Part.some
      (if c.skipLayout.current = '#' then .inr c.skipLayout.skipComment.registers
      else .inl c.skipLayout.registers) := by
  have hlayout : c.skipLayout.On text := h.advanceBy _
  rw [Registers.gapRound, h.skipLayout_registers, Part.bind_eq_bind, Part.bind_some]
  change (if c.skipLayout.current = '#' then _ else _) = _
  split
  next => rw [hlayout.skipComment_registers, Part.bind_eq_bind, Part.bind_some]; rfl
  next => rfl

theorem length_rest_skipComment_lt (h : c.skipLayout.current = '#') :
    c.skipLayout.skipComment.rest.length < c.rest.length := by
  obtain ⟨tail, hrest⟩ := rest_of_current h (by decide)
  have hcomment : c.skipLayout.skipComment.rest.length ≤ tail.length := by
    rw [rest_skipComment, hrest, List.dropWhile_cons_of_pos (by decide)]
    exact List.length_dropWhile_le _ _
  have hlayout : c.skipLayout.rest.length ≤ c.rest.length := by
    rw [rest_skipLayout]
    exact List.length_dropWhile_le _ _
  rw [hrest, List.length_cons] at hlayout
  omega

/-- Each comment takes something off the text, so that the loop over them ends. -/
theorem On.skipGap_registers (h : c.On text) : c.registers.skipGap text = Part.some c.skipGap.registers := by
  induction hlength : c.rest.length using Nat.strongRecOn generalizing c with
  | ind n ih =>
    have hround := h.gapRound_registers
    rw [Registers.skipGap, skipGap_eq]
    split
    next hhash =>
      rw [if_pos hhash] at hround
      rw [PFun.fix_fwd_eq (Part.eq_some_iff.1 hround)]
      exact ih _ (hlength ▸ length_rest_skipComment_lt hhash) ((h.advanceBy _).advanceBy _) rfl
    next hhash =>
      rw [if_neg hhash] at hround
      exact Part.eq_some_iff.2 (PFun.fix_stop (Part.eq_some_iff.1 hround))

/-! ## Tokens -/

/-- The token of an operator starts at the cursor, which takes no step or one. -/
theorem of_readOperator {t : Token} {c' : Cursor} (h : c.readOperator = some (t, c')) :
    t.line = c.line ∧ t.column = c.column ∧ ∃ n, c' = c.advanceBy n := by
  obtain ⟨⟨longer, alone⟩, -, h⟩ := Option.map_eq_some_iff.1 h
  dsimp only at h
  split at h <;> cases h
  · exact ⟨rfl, rfl, 1, rfl⟩
  · exact ⟨rfl, rfl, 0, rfl⟩

theorem On.readOperator_registers (h : c.On text) (line column : Int) :
    c.registers.readOperator text line column =
      c.readOperator.map fun p => ({ p.1 with line, column }, p.2.registers) := by
  rw [Registers.readOperator, readOperator, Option.map_map, h.peek_registers, h.step_registers]
  change (compound? c.current).map _ = _
  congr 1
  funext table
  obtain ⟨longer, alone⟩ := table
  dsimp only [Function.comp]
  cases longer.lookup c.peek <;> rfl

/-- The token of an operator, if it is to start at the cursor. -/
theorem On.readOperator_here (h : c.On text) :
    c.registers.readOperator text c.line c.column = c.readOperator.map fun p => (p.1, p.2.registers) := by
  rw [h.readOperator_registers]
  cases hop : c.readOperator with
  | none => rfl
  | some p =>
    obtain ⟨t, c'⟩ := p
    obtain ⟨hline, hcolumn, -⟩ := of_readOperator hop
    have hplace : { t with line := (c.line : Int), column := (c.column : Int) } = t := by
      rw [← hline, ← hcolumn]
    exact congrArg (fun t => some (t, c'.registers)) hplace

theorem On.tokenHere_registers (h : c.On text) :
    c.registers.tokenHere text = Part.some ((c.tokenAt c.current).1, (c.tokenAt c.current).2.registers) := by
  have hcurrent : c.registers.current = c.current := rfl
  unfold Registers.tokenHere tokenAt
  rw [show c.registers.readOperator text c.registers.line c.registers.column = _ from h.readOperator_here,
    hcurrent]
  cases hsingle : single? c.current with
  | some kind => exact congrArg (fun r => Part.some (_, r)) h.step_registers
  | none =>
    cases hop : c.readOperator with
    | some p =>
      obtain ⟨t, c'⟩ := p
      obtain ⟨-, -, n, rfl⟩ := of_readOperator hop
      exact congrArg (fun r => Part.some (t, r)) (h.advanceBy n).step_registers
    | none =>
      dsimp only [Option.map_none]
      unfold otherTokenAt
      split
      next =>
        rw [h.readString_registers, Part.bind_eq_bind, Part.bind_some]
        exact congrArg (fun r => Part.some (_, r)) (h.advanceBy _).step_registers
      next =>
        split
        next => rw [h.readWhile_registers (by decide), Part.bind_eq_bind, Part.bind_some]; rfl
        next =>
          split
          next => rw [h.readWhile_registers (by decide), Part.bind_eq_bind, Part.bind_some]; rfl
          next => exact congrArg (fun r => Part.some (_, r)) h.step_registers

theorem On.nextToken_registers (h : c.On text) :
    c.registers.nextToken text = Part.some (c.nextToken.1, c.nextToken.2.registers) := by
  have hgap := h.skipGap
  rw [Registers.nextToken, h.skipGap_registers, Part.bind_eq_bind, Part.bind_some]
  change (if c.skipGap.current = nul ∧ text.length ≤ c.skipGap.position then _ else _) = _
  cases hrest : c.skipGap.rest with
  | nil =>
    have hnul : c.skipGap.current = nul := by rw [current, hrest]; rfl
    rw [if_pos ⟨hnul, hgap.rest_eq_nil_iff.1 hrest⟩, nextToken_of_nil hrest]
    rfl
  | cons ch tail =>
    have hcurrent : c.skipGap.current = ch := by rw [current, hrest]; rfl
    have hahead : ¬ text.length ≤ c.skipGap.position := by
      rw [← hgap.rest_eq_nil_iff, hrest]
      exact List.cons_ne_nil _ _
    rw [if_neg fun hend => hahead hend.2, hgap.tokenHere_registers, nextToken_of_cons hrest, hcurrent]

end Cursor

end SepiaLang
