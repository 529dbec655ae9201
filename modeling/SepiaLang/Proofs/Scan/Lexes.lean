import SepiaLang.Proofs.Parse.Accept
import SepiaLang.Proofs.Scan.Partition

/-!
# Texts and their lexemes

Which lexemes a text has does not depend on where it stands: lines and columns come from the cursor,
everything else comes from the text ahead.

* `Lexes`: a text is cut into gaps and lexemes.
* **`Cursor.lexes_iff`**: there is one way to do so, and scanning finds it.
* `Lexes.append_line`: two texts with a line break between them have the lexemes of both, unless a
  string is still open at the end of the first one.
-/

namespace SepiaLang

/-- The text is cut into gaps and the given lexemes, each as long as it can be. -/
inductive Lexes : List Char → List Lexeme → Prop
  | nil {gap : List Char} (hgap : Gap [] gap) : Lexes gap []
  | cons {gap written after : List Char} {kind : Kind} {literal : String} {ls : List Lexeme}
      (hgap : Gap (written ++ after) gap) (hwrites : Writes kind literal written after)
      (h : Lexes after ls) : Lexes (gap ++ (written ++ after)) ((kind, literal) :: ls)

/-! ## Characters -/

/-- A character that no gap starts with. -/
def Solid (c : Char) : Prop := isLayout c = false ∧ c ≠ '#'

theorem single?_other {c : Char} {kind : Kind} (h : single? c = some kind) :
    compound? c = none ∧ c ≠ '"' ∧ isLetter c = false ∧ isDigit c = false ∧ Solid c := by
  unfold single? at h
  split at h <;> cases h <;> exact ⟨rfl, by decide, rfl, rfl, rfl, by decide⟩

theorem compound?_other {c : Char} {table : List (Char × Kind) × Kind} (h : compound? c = some table) :
    single? c = none ∧ c ≠ '"' ∧ isLetter c = false ∧ isDigit c = false ∧ Solid c := by
  unfold compound? at h
  split at h <;> cases h <;> exact ⟨rfl, by decide, rfl, rfl, rfl, by decide⟩

theorem isDigit_other {c : Char} (h : isDigit c = true) : isLetter c = false := by
  simp [isLetter, isDigit, Char.le_def, UInt32.le_iff_toNat_le, ← Char.toNat_inj] at h ⊢
  omega

theorem solid_of_isLetter {c : Char} (h : isLetter c = true) : Solid c := by
  simp [Solid, isLayout, isLetter, Char.le_def, UInt32.le_iff_toNat_le, ← Char.toNat_inj] at h ⊢
  omega

theorem solid_of_isDigit {c : Char} (h : isDigit c = true) : Solid c := by
  simp [Solid, isLayout, isDigit, Char.le_def, UInt32.le_iff_toNat_le, ← Char.toNat_inj] at h ⊢
  omega

theorem single?_eq_none {c : Char} (h : isLetter c = true ∨ isDigit c = true) : single? c = none := by
  cases hc : single? c with
  | none => rfl
  | some kind =>
    obtain ⟨-, -, hletter, hdigit, -⟩ := single?_other hc
    simp_all

theorem compound?_eq_none {c : Char} (h : isLetter c = true ∨ isDigit c = true) : compound? c = none := by
  cases hc : compound? c with
  | none => rfl
  | some table =>
    obtain ⟨-, -, hletter, hdigit, -⟩ := compound?_other hc
    simp_all

/-! ## Gaps -/

theorem gapLength_of_solid {c : Char} (h : Solid c) (text : List Char) :
    gapLength false (c :: text) = 0 := by
  simp [gapLength, h.1, h.2]

/-- Where a comment ends, it does not matter that there was one. -/
theorem gapLength_true {text : List Char} (h : ∀ c ∈ text.head?, inComment c = false) :
    gapLength true text = gapLength false text := by
  cases text with
  | nil => rfl
  | cons c text =>
    have hc : c = '\n' ∨ c = nul := by
      simpa [inComment, or_iff_not_imp_left] using h c rfl
    rcases hc with rfl | rfl <;> rfl

theorem gapLength_append {body text : List Char} (hbody : ∀ c ∈ body, inComment c = true) :
    gapLength true (body ++ text) = body.length + gapLength true text := by
  induction body with
  | nil => simp
  | cons c body ih =>
    rw [List.forall_mem_cons] at hbody
    have hbreak : c ≠ '\n' := by
      rintro rfl
      exact absurd hbody.1 (by decide)
    rw [List.cons_append, gapLength, if_pos rfl, if_neg hbreak, if_pos hbody.1, ih hbody.2, List.length_cons]
    omega

/-- **The gap ahead is as long as it can be.** -/
theorem Gap.length_eq {gap after : List Char} (h : Gap after gap) (hafter : ∀ c ∈ after.head?, Solid c) :
    gapLength false (gap ++ after) = gap.length := by
  induction h with
  | nil =>
    cases after with
    | nil => rfl
    | cons c after => exact gapLength_of_solid (hafter c rfl) after
  | blank hc h ih =>
    rw [List.cons_append, gapLength, if_neg (by decide), if_pos hc, ih, List.length_cons]
  | @comment body rest hbody hend h ih =>
    rw [List.cons_append, List.cons_append, gapLength, if_neg (by decide), if_neg (by decide), if_pos rfl,
      List.append_assoc, gapLength_append hbody, gapLength_true hend, ih, List.length_cons,
      List.length_append]

theorem Gap.congr {gap after after' : List Char} (h : Gap after gap) (hhead : after.head? = after'.head?) :
    Gap after' gap := by
  induction h with
  | nil => exact .nil
  | blank hc h ih => exact .blank hc ih
  | @comment body rest hbody hend h ih =>
    refine .comment hbody ?_ ih
    cases rest with
    | nil => exact hhead ▸ hend
    | cons c rest => exact hend

/-- A line break ends a comment, so that a gap may go on after it. -/
theorem Gap.append_line {gap gap' after : List Char} (h : Gap [] gap) (h' : Gap after gap') :
    Gap after (gap ++ '\n' :: gap') := by
  induction h with
  | nil => exact .blank rfl h'
  | blank hc h ih => exact .blank hc ih
  | @comment body rest hbody hend h ih =>
    rw [List.append_assoc]
    refine .comment hbody ?_ ih
    cases rest with
    | nil => simp [inComment]
    | cons c rest => simpa using hend

/-! ## Lexemes -/

namespace Writes

variable {kind : Kind} {literal : String} {written after : List Char}

theorem exists_solid (h : Writes kind literal written after) : ∃ c tail, written = c :: tail ∧ Solid c := by
  cases h with
  | single hc => exact ⟨_, _, rfl, (single?_other hc).2.2.2.2⟩
  | pair hc _ => exact ⟨_, _, rfl, (compound?_other hc).2.2.2.2⟩
  | alone hc _ => exact ⟨_, _, rfl, (compound?_other hc).2.2.2.2⟩
  | word hne hcs _ =>
    obtain ⟨c, tail, rfl⟩ := List.exists_cons_of_ne_nil hne
    exact ⟨c, tail, rfl, solid_of_isLetter (hcs c List.mem_cons_self)⟩
  | number hne hcs _ =>
    obtain ⟨c, tail, rfl⟩ := List.exists_cons_of_ne_nil hne
    exact ⟨c, tail, rfl, solid_of_isDigit (hcs c List.mem_cons_self)⟩
  | string _ => exact ⟨'"', _, rfl, rfl, by decide⟩
  | openString _ => exact ⟨'"', _, rfl, rfl, by decide⟩
  | illegal hgap => exact ⟨_, _, rfl, hgap⟩

end Writes

/-- The lexeme is a string whose closing quote is missing. -/
def isOpenString : List Char → Bool
  | '"' :: cs => !cs.contains '"'
  | _ => false

theorem isOpenString_cons {c : Char} (h : c ≠ '"') (cs : List Char) : isOpenString (c :: cs) = false := by
  simp [isOpenString, h]

theorem Writes.of_isOpenString {kind : Kind} {literal : String} {written after : List Char}
    (h : Writes kind literal written after) (hopen : isOpenString written = true) :
    ∃ cs, '"' ∉ cs ∧ kind = .string ∧ literal = String.ofList cs ∧ written = '"' :: cs ∧ after = [] := by
  have hquote {c : Char} {cs : List Char} (hc : c ≠ '"') : isOpenString (c :: cs) ≠ true := by
    rw [isOpenString_cons hc]
    exact nofun
  cases h with
  | openString hcs => exact ⟨_, hcs, rfl, rfl, rfl, rfl⟩
  | single hc => exact absurd hopen (hquote (single?_other hc).2.1)
  | pair hc _ => exact absurd hopen (hquote (compound?_other hc).2.1)
  | alone hc _ => exact absurd hopen (hquote (compound?_other hc).2.1)
  | string => simp [isOpenString] at hopen
  | illegal _ _ _ hc => exact absurd hopen (hquote hc)
  | word hne hcs | number hne hcs =>
    obtain ⟨c, tail, rfl⟩ := List.exists_cons_of_ne_nil hne
    refine absurd hopen (hquote ?_)
    rintro rfl
    exact absurd (hcs _ List.mem_cons_self) (by decide)

theorem Writes.after_eq_nil {kind : Kind} {literal : String} {written after : List Char}
    (h : Writes kind literal written after) (hopen : isOpenString written = true) : after = [] :=
  have ⟨_, _, _, _, _, hafter⟩ := h.of_isOpenString hopen
  hafter

theorem takeWhile_append {p : Char → Bool} {cs after : List Char} (hcs : ∀ c ∈ cs, p c = true)
    (hend : ∀ d ∈ after.head?, p d = false) : (cs ++ after).takeWhile p = cs := by
  rw [List.takeWhile_append_of_pos hcs]
  cases after with
  | nil => simp
  | cons d after => simp [hend d rfl]

namespace Cursor

variable {c : Cursor} {kind : Kind} {literal : String} {written after : List Char}

theorem tokenAt_of_operator {ch : Char} (hsingle : single? ch = none) {t : Token} {c' : Cursor}
    (h : c.readOperator = some (t, c')) : c.tokenAt ch = (t, c'.advance) := by
  rw [tokenAt, hsingle, h]

theorem tokenAt_of_none {ch : Char} (hrest : c.rest.head? = some ch) (hsingle : single? ch = none)
    (hcompound : compound? ch = none) : c.tokenAt ch = c.otherTokenAt ch := by
  have hop : c.readOperator = none := by
    have hcurrent : c.current = ch := by
      rw [current, List.headD_eq_head?_getD, hrest]
      rfl
    rw [readOperator, hcurrent, hcompound]
    rfl
  rw [tokenAt, hsingle, hop]

theorem readWhile_append {p : Char → Bool} {cs : List Char} (hrest : c.rest = cs ++ after)
    (hcs : ∀ x ∈ cs, p x = true) (hend : ∀ d ∈ after.head?, p d = false) :
    c.readWhile p = (String.ofList cs, c.advanceBy cs.length) := by
  have hrun : c.rest.takeWhile p = cs := by rw [hrest, takeWhile_append hcs hend]
  rw [readWhile, hrun]

theorem readString_append {cs : List Char} (hrest : c.rest.tail = cs ++ after) (hcs : '"' ∉ cs)
    (hend : ∀ d ∈ after.head?, d = '"') :
    c.readString.1 = String.ofList cs ∧ c.readString.2.advance = c.advanceBy (cs.length + 2) := by
  have hrun : c.rest.tail.takeWhile (· != '"') = cs := by
    rw [hrest, takeWhile_append]
    · intro d hd
      exact bne_iff_ne.2 fun he => hcs (he ▸ hd)
    · intro d hd
      simp [hend d hd]
  rw [readString, hrun]
  exact ⟨rfl, advance_advanceBy c _⟩

/-- **The lexeme ahead is taken**, since there is one way only to write it. A string that is not closed is
left as if it were, by one step more than it has characters. -/
theorem tokenAt_of_writes {ch : Char} (hwrites : Writes kind literal written after)
    (hrest : c.rest = written ++ after) (hhead : c.rest.head? = some ch) :
    c.tokenAt ch =
      (c.token kind literal, c.advanceBy (written.length + (isOpenString written).toNat)) := by
  cases hwrites with
  | @single d kind after hc =>
    obtain rfl : d = ch := by simpa [hrest] using hhead
    rw [tokenAt, hc, isOpenString_cons (single?_other hc).2.1]
    rfl
  | @pair d e longer alone kind after hc hd =>
    obtain rfl : d = ch := by simpa [hrest] using hhead
    have hop : c.readOperator = some (c.token kind (String.ofList [d, e]), c.advance) := by
      simp [readOperator, current, peek, hrest, hc, hd]
    rw [tokenAt_of_operator (compound?_other hc).1 hop, isOpenString_cons (compound?_other hc).2.1]
    rfl
  | @alone d longer kind after hc hend =>
    obtain rfl : d = ch := by simpa [hrest] using hhead
    have hpeek : longer.lookup c.peek = none := by
      rw [peek, hrest]
      cases after with
      | nil => exact lookup_nul hc
      | cons e after => exact hend e rfl
    have hop : c.readOperator = some (c.token kind (String.ofList [d]), c) := by
      simp [readOperator, current, hrest, hc, hpeek]
    rw [tokenAt_of_operator (compound?_other hc).1 hop, isOpenString_cons (compound?_other hc).2.1]
    rfl
  | word hne hcs hend =>
    obtain ⟨d, tail, rfl⟩ := List.exists_cons_of_ne_nil hne
    obtain rfl : d = ch := by simpa [hrest] using hhead
    have hch : isLetter d = true := hcs d List.mem_cons_self
    have hquote : d ≠ '"' := by
      rintro rfl
      cases hch
    rw [tokenAt_of_none hhead (single?_eq_none (.inl hch)) (compound?_eq_none (.inl hch)), otherTokenAt,
      if_neg hquote, if_pos hch, readWord, readWhile_append hrest hcs hend, isOpenString_cons hquote]
    rfl
  | number hne hcs hend =>
    obtain ⟨d, tail, rfl⟩ := List.exists_cons_of_ne_nil hne
    obtain rfl : d = ch := by simpa [hrest] using hhead
    have hch : isDigit d = true := hcs d List.mem_cons_self
    have hquote : d ≠ '"' := by
      rintro rfl
      cases hch
    rw [tokenAt_of_none hhead (single?_eq_none (.inr hch)) (compound?_eq_none (.inr hch)), otherTokenAt,
      if_neg hquote, if_neg (by simp [isDigit_other hch]), if_pos hch, readDigits,
      readWhile_append hrest hcs hend, isOpenString_cons hquote]
    rfl
  | @string cs after hcs =>
    obtain rfl : '"' = ch := by simpa [hrest] using hhead
    obtain ⟨htext, hafter⟩ := readString_append (c := c) (show c.rest.tail = cs ++ '"' :: after by
      simp [hrest]) hcs (by simp)
    have hclosed : isOpenString ('"' :: (cs ++ ['"'])) = false := by simp [isOpenString]
    rw [tokenAt_of_none hhead rfl rfl, otherTokenAt, if_pos rfl, htext, hafter, List.cons_append, hclosed]
    simp
  | @openString cs hcs =>
    obtain rfl : '"' = ch := by simpa [hrest] using hhead
    obtain ⟨htext, hafter⟩ := readString_append (c := c) (show c.rest.tail = cs ++ [] by
      simp [hrest]) hcs (by simp)
    have hopen : isOpenString ('"' :: cs) = true := by simp [isOpenString, hcs]
    rw [tokenAt_of_none hhead rfl rfl, otherTokenAt, if_pos rfl, htext, hafter, hopen]
    rfl
  | @illegal d after hgap hsingle hcompound hquote hletter hdigit =>
    obtain rfl : d = ch := by simpa [hrest] using hhead
    rw [tokenAt_of_none hhead hsingle hcompound, otherTokenAt, if_neg hquote,
      if_neg (by simp [hletter]), if_neg (by simp [hdigit]), isOpenString_cons hquote]
    rfl

theorem rest_tokenAt_of_writes {ch : Char} (hwrites : Writes kind literal written after)
    (hrest : c.rest = written ++ after) (hhead : c.rest.head? = some ch) :
    (c.tokenAt ch).2.rest = after := by
  rw [tokenAt_of_writes hwrites hrest hhead, rest_advanceBy, hrest]
  cases hopen : isOpenString written with
  | false => exact List.drop_left
  | true =>
    rw [hwrites.after_eq_nil hopen]
    simp

/-! ## All tokens -/

theorem tokens_of_nil (h : c.skipGap.rest = []) : c.tokens.map Token.bare = [(.eof, "")] := by
  rw [tokens, if_pos (by rw [nextToken_of_nil h]; rfl), nextToken_of_nil h]
  rfl

theorem tokens_of_cons {ch : Char} {tail : List Char} (h : c.skipGap.rest = ch :: tail) :
    c.tokens = c.nextToken.1 :: c.nextToken.2.tokens := by
  obtain ⟨-, -, -, _, -, hwrites⟩ := takes_nextToken h
  rw [tokens, if_neg hwrites.kind_ne_eof]

theorem rest_skipGap {gap : List Char} (hrest : c.rest = gap ++ after) (hgap : Gap after gap)
    (hafter : ∀ d ∈ after.head?, Solid d) : c.skipGap.rest = after := by
  rw [skipGap, rest_advanceBy, hrest, hgap.length_eq hafter, List.drop_left]

/-- The lexemes of the text ahead are those of the tokens. -/
theorem tokens_of_lexes {text : List Char} {ls : List Lexeme} (h : Lexes text ls) :
    ∀ {c : Cursor}, c.rest = text → c.tokens.map Token.bare = ls ++ [(.eof, "")] := by
  induction h with
  | @nil gap hgap =>
    intro c hrest
    have hgapOnly : c.rest = gap ++ [] := by rw [hrest, List.append_nil]
    exact tokens_of_nil (rest_skipGap hgapOnly hgap nofun)
  | @cons gap written after kind literal ls hgap hwrites h ih =>
    intro c hrest
    obtain ⟨ch, tail, rfl, hsolid⟩ := hwrites.exists_solid
    have hskip : c.skipGap.rest = ch :: tail ++ after :=
      rest_skipGap hrest hgap fun d hd => (Option.some.inj hd) ▸ hsolid
    have hafter := rest_tokenAt_of_writes hwrites hskip (by rw [hskip]; rfl)
    rw [tokens_of_cons hskip, nextToken_of_cons hskip, List.map_cons, ih hafter,
      tokenAt_of_writes hwrites hskip (by rw [hskip]; rfl)]
    rfl

/-- The text ahead is cut into the lexemes of the tokens. -/
theorem exists_lexes (c : Cursor) : ∃ ls, Lexes c.rest ls := by
  induction c using Cursor.tokens.induct with
  | case1 c heof => exact ⟨[], .nil (gap_of_eof heof)⟩
  | case2 c hne ih =>
    obtain ⟨ls, ih⟩ := ih
    obtain ⟨ch, tail, hskip⟩ := exists_cons_of_ne_eof hne
    obtain ⟨-, -, -, written, hwritten, hwrites⟩ := takes_nextToken hskip
    have hsplit : c.rest = c.rest.take (gapLength false c.rest) ++ c.skipGap.rest := by
      rw [skipGap, rest_advanceBy, List.take_append_drop]
    have hgap := gap_skipGap c
    rw [hwritten] at hgap hsplit
    rw [hsplit]
    exact ⟨_, .cons hgap hwrites ih⟩

/-- **The lexemes of a text are those of its tokens**, and no others. -/
theorem lexes_iff {ls : List Lexeme} : Lexes c.rest ls ↔ c.tokens.map Token.bare = ls ++ [(.eof, "")] := by
  refine ⟨fun h => tokens_of_lexes h rfl, fun h => ?_⟩
  obtain ⟨ls', hls'⟩ := exists_lexes c
  rw [tokens_of_lexes hls' rfl, List.append_left_inj] at h
  exact h ▸ hls'

end Cursor

theorem lexes_scan {source : String} {ls : List Lexeme} :
    Lexes source.toList ls ↔ (scan source).map Token.bare = ls ++ [(.eof, "")] :=
  Cursor.lexes_iff (c := Cursor.start source.toList)

theorem exists_lexes (text : List Char) : ∃ ls, Lexes text ls := (Cursor.start text).exists_lexes

/-- The tokens of a text end with `eof`, which is nowhere else. -/
theorem exists_scan_eq (source : String) :
    ∃ before last, scan source = before ++ [last] ∧ last.kind = .eof ∧ ∀ t ∈ before, t.kind ≠ .eof := by
  obtain ⟨pieces, last, htokens, hlast, hpieces⟩ := (Cursor.On.start source.toList).partition
  refine ⟨pieces.map Prod.fst, last, htokens, hlast, fun t ht => ?_⟩
  obtain ⟨p, hp, rfl⟩ := List.mem_map.1 ht
  obtain ⟨_, _, hlexeme⟩ := hpieces.lexeme p hp
  exact hlexeme.kind_ne_eof

/-! ## Two texts -/

/-- No lexeme goes on with the character. -/
structure Divides (c : Char) : Prop where
  letter : isLetter c = false
  digit : isDigit c = false
  operator : ∀ {d : Char} {longer : List (Char × Kind)} {alone : Kind},
    compound? d = some (longer, alone) → longer.lookup c = none

theorem divides_line : Divides '\n' where
  letter := rfl
  digit := rfl
  operator h := by
    unfold compound? at h
    split at h <;> cases h <;> decide

/-- A lexeme before a character that divides is the same as before the end, unless it is a string that
was not closed. -/
theorem Writes.append_cons_of_closed {kind : Kind} {literal : String} {written after : List Char}
    (h : Writes kind literal written after) (hclosed : isOpenString written = false) {c : Char} (hc : Divides c)
    (text : List Char) : Writes kind literal written (after ++ c :: text) := by
  have hhead {p : Char → Prop} (hp : ∀ d ∈ after.head?, p d) (hpc : p c) :
      ∀ d ∈ (after ++ c :: text).head?, p d := by
    cases after with
    | nil => simpa using hpc
    | cons e after => simpa using hp
  cases h with
  | single hd => exact .single hd
  | pair hd he => exact .pair hd he
  | alone hd hend => exact .alone hd (hhead hend (hc.operator hd))
  | word hne hcs hend => exact .word hne hcs (hhead hend hc.letter)
  | number hne hcs hend => exact .number hne hcs (hhead hend hc.digit)
  | string hcs => exact .string hcs
  | openString hcs => simp [isOpenString, hcs] at hclosed
  | illegal hgap hsingle hcompound hquote hletter hdigit =>
    exact .illegal hgap hsingle hcompound hquote hletter hdigit

theorem Writes.append_cons {kind : Kind} {literal : String} {written after : List Char}
    (h : Writes kind literal written after) (hkind : after = [] → kind ≠ .string) {c : Char} (hc : Divides c)
    (text : List Char) : Writes kind literal written (after ++ c :: text) := by
  refine h.append_cons_of_closed (Bool.eq_false_iff.2 fun hopen => ?_) hc text
  obtain ⟨cs, -, hstring, -, -, hafter⟩ := h.of_isOpenString hopen
  exact hkind hafter hstring

theorem Lexes.eq_nil {text : List Char} {ls : List Lexeme} (h : Lexes text ls) (htext : text = []) :
    ls = [] := by
  cases h with
  | nil => rfl
  | cons _ hwrites _ =>
    have hne := hwrites.written_ne_nil
    simp_all

/-- **Two texts with a line break between them** have the lexemes of both. -/
theorem Lexes.append_line {text text' : List Char} {ls ls' : List Lexeme} (h : Lexes text ls)
    (hlast : ∀ l ∈ ls.getLast?, l.1 ≠ .string) (h' : Lexes text' ls') :
    Lexes (text ++ '\n' :: text') (ls ++ ls') := by
  induction h with
  | nil hgap =>
    cases h' with
    | nil hgap' => exact .nil (hgap.append_line hgap')
    | cons hgap' hwrites h' =>
      rw [← List.cons_append, ← List.append_assoc]
      exact .cons (hgap.append_line hgap') hwrites h'
  | @cons gap written after kind literal ls hgap hwrites h ih =>
    have hgap' : Gap (written ++ (after ++ '\n' :: text')) gap := by
      refine hgap.congr ?_
      obtain ⟨c, tail, rfl, -⟩ := hwrites.exists_solid
      rfl
    have hkind : after = [] → kind ≠ .string := by
      rintro rfl
      rw [h.eq_nil rfl] at hlast
      exact hlast _ rfl
    rw [List.append_assoc, List.append_assoc]
    refine .cons hgap' (hwrites.append_cons hkind divides_line text') (ih ?_)
    cases ls with
    | nil => nofun
    | cons l ls => rwa [List.getLast?_cons_cons] at hlast

/-- **The tokens of two texts with a line break between them** are those of the first text, up to its
end, and those of the second one. -/
theorem scan_append_line {a b : String} (hlast : ∀ t ∈ (scan a).dropLast.getLast?, t.kind ≠ .string) :
    (scan (a ++ "\n" ++ b)).map Token.bare = ((scan a).dropLast ++ scan b).map Token.bare := by
  obtain ⟨ls, hls⟩ := exists_lexes a.toList
  obtain ⟨ls', hls'⟩ := exists_lexes b.toList
  have ha := lexes_scan.1 hls
  have hb := lexes_scan.1 hls'
  have hbefore : (scan a).dropLast.map Token.bare = ls := by
    rw [List.map_dropLast, ha, List.dropLast_concat]
  have hstring : ∀ l ∈ ls.getLast?, l.1 ≠ .string := by
    rw [← hbefore, List.getLast?_map]
    intro l hl
    obtain ⟨t, ht, rfl⟩ := Option.map_eq_some_iff.1 hl
    exact hlast t ht
  have hboth : Lexes (a ++ "\n" ++ b).toList (ls ++ ls') := by
    have htext : (a ++ "\n" ++ b).toList = a.toList ++ '\n' :: b.toList := by simp
    rw [htext]
    exact Lexes.append_line hls hstring hls'
  rw [lexes_scan.1 hboth, List.map_append, hbefore, hb, List.append_assoc]

end SepiaLang
