import Mathlib.Data.List.DropRight
import SepiaLang.Proofs.Scan.Lexes

/-!
# Where a text ends

The last token of a text, `eof`, is at the place right after the last character. The one exception is a
text that ends inside a string: the string is left as if its closing quote were there, and `eof` is one
column further on.

* `ScanMode`, `endsInString`: whether a text ends inside a string, told from left to right.
* `Gap.endsInString_append`, `Writes.mode_after`: what gaps and lexemes have to do with that.
* `Lexes.append_closed`: a line after a text, the last string of which is closed.
* `Cursor.On.ending`: the `eof` ahead of a cursor.
* **`eof_place`**: the line and the column of `eof`.
-/

namespace SepiaLang

/-! ## Strings and comments -/

/-- What a text is in the middle of. -/
inductive ScanMode where
  | code
  | comment
  | string
  deriving DecidableEq, Repr

namespace ScanMode

/-- What one more character leads to. -/
def next : ScanMode → Char → ScanMode
  | code, c => if c = '"' then string else if c = '#' then comment else code
  | comment, c => if inComment c then comment else code
  | string, c => if c = '"' then code else string

/-- What a text leads to. -/
def after (m : ScanMode) (text : List Char) : ScanMode := text.foldl next m

theorem after_append (m : ScanMode) (text text' : List Char) :
    m.after (text ++ text') = (m.after text).after text' := List.foldl_append

theorem after_cons (m : ScanMode) (c : Char) (text : List Char) :
    m.after (c :: text) = (m.next c).after text := rfl

/-- Characters that do not change the mode. -/
theorem after_eq_self {m : ScanMode} {text : List Char} (h : ∀ c ∈ text, m.next c = m) : m.after text = m := by
  induction text with
  | nil => rfl
  | cons c text ih =>
    rw [List.forall_mem_cons] at h
    rw [after_cons, h.1, ih h.2]

theorem next_code {c : Char} (hquote : c ≠ '"') (hhash : c ≠ '#') : code.next c = code := by
  rw [next, if_neg hquote, if_neg hhash]

/-- At its end a comment is left, whatever ends it. -/
theorem after_comment {text : List Char} (h : ∀ c ∈ text.head?, inComment c = false) :
    comment.after text = string ↔ code.after text = string := by
  cases text with
  | nil => exact ⟨nofun, nofun⟩
  | cons c text =>
    have hboth : comment.next c = code.next c := by
      have hc : c = '\n' ∨ c = nul := by simpa [inComment, or_iff_not_imp_left] using h c rfl
      rcases hc with rfl | rfl <;> decide
    rw [after_cons, after_cons, hboth]

end ScanMode

/-- The text ends inside a string. -/
def endsInString (text : List Char) : Bool := ScanMode.code.after text = .string

/-- **Gaps** have no part in strings. -/
theorem Gap.endsInString_append {gap after : List Char} (h : Gap after gap) :
    endsInString (gap ++ after) = endsInString after := by
  unfold endsInString at *
  induction h with
  | nil => rfl
  | @blank c rest hc h ih =>
    have hcode : ScanMode.code.next c = .code := by
      simp only [isLayout, Bool.or_eq_true, beq_iff_eq] at hc
      rcases hc with ((rfl | rfl) | rfl) | rfl <;> decide
    rwa [List.cons_append, ScanMode.after_cons, hcode]
  | @comment body rest hbody hend h ih =>
    have hcomment : ScanMode.comment.after body = .comment :=
      ScanMode.after_eq_self fun c hc => if_pos (hbody c hc)
    have hopening : ScanMode.code.next '#' = .comment := rfl
    rw [List.cons_append, List.cons_append, ScanMode.after_cons, hopening, List.append_assoc,
      ScanMode.after_append, hcomment, decide_eq_decide.2 (ScanMode.after_comment hend), ih]

/-- **Lexemes** lead from code to code, unless they are strings that are not closed. -/
theorem Writes.mode_after {kind : Kind} {literal : String} {written after : List Char}
    (h : Writes kind literal written after) :
    ScanMode.code.after written = if isOpenString written then .string else .code := by
  have hplain {c : Char} (hsolid : Solid c) (hquote : c ≠ '"') : ScanMode.code.next c = .code :=
    ScanMode.next_code hquote hsolid.2
  have hrun {cs : List Char} (hne : cs ≠ []) (hcs : ∀ c ∈ cs, Solid c ∧ c ≠ '"') :
      ScanMode.code.after cs = if isOpenString cs then .string else .code := by
    obtain ⟨c, tail, rfl⟩ := List.exists_cons_of_ne_nil hne
    rw [isOpenString_cons (hcs c List.mem_cons_self).2]
    exact ScanMode.after_eq_self fun d hd => hplain (hcs d hd).1 (hcs d hd).2
  have hstring {cs : List Char} (hcs : '"' ∉ cs) : ScanMode.code.after ('"' :: cs) = .string := by
    have hinside : ScanMode.string.after cs = .string :=
      ScanMode.after_eq_self fun c hc => if_neg fun (hquote : c = '"') => hcs (hquote ▸ hc)
    exact hinside
  cases h with
  | single hc =>
    refine hrun (by simp) fun d hd => ?_
    rw [List.mem_singleton.1 hd]
    exact ⟨(single?_other hc).2.2.2.2, (single?_other hc).2.1⟩
  | @pair d e longer alone _ _ hc hd =>
    have hsecond : e ≠ '"' ∧ e ≠ '#' := by
      have htable : ∀ p ∈ longer, p.1 ≠ '"' ∧ p.1 ≠ '#' := by
        unfold compound? at hc
        split at hc <;> cases hc <;> decide
      exact htable _ (Assoc.mem_of_lookup hd)
    have hfirst := compound?_other hc
    rw [isOpenString_cons hfirst.2.1, ScanMode.after_cons, hplain hfirst.2.2.2.2 hfirst.2.1, ScanMode.after_cons,
      ScanMode.next_code hsecond.1 hsecond.2]
    rfl
  | alone hc =>
    refine hrun (by simp) fun d hd => ?_
    rw [List.mem_singleton.1 hd]
    exact ⟨(compound?_other hc).2.2.2.2, (compound?_other hc).2.1⟩
  | word hne hcs =>
    refine hrun hne fun d hd => ⟨solid_of_isLetter (hcs d hd), ?_⟩
    rintro rfl
    exact absurd (hcs _ hd) (by decide)
  | number hne hcs =>
    refine hrun hne fun d hd => ⟨solid_of_isDigit (hcs d hd), ?_⟩
    rintro rfl
    exact absurd (hcs _ hd) (by decide)
  | string hcs =>
    rw [ScanMode.after_append, hstring hcs]
    simp [isOpenString, ScanMode.after, ScanMode.next]
  | openString hcs =>
    rw [hstring hcs]
    simp [isOpenString, hcs]
  | illegal hgap _ _ hquote =>
    refine hrun (by simp) fun d hd => ?_
    rw [List.mem_singleton.1 hd]
    exact ⟨hgap, hquote⟩

theorem Writes.endsInString_append {kind : Kind} {literal : String} {written after : List Char}
    (h : Writes kind literal written after) :
    endsInString (written ++ after) = (isOpenString written || endsInString after) := by
  rw [endsInString, ScanMode.after_append, h.mode_after]
  cases hopen : isOpenString written with
  | true =>
    rw [h.after_eq_nil hopen]
    rfl
  | false => rfl

/-- The quote that a text lacks, if it ends inside a string. -/
def lackingQuote (text : List Char) : List Char := if endsInString text then ['"'] else []

theorem divides_quote : Divides '"' where
  letter := rfl
  digit := rfl
  operator h := by
    unfold compound? at h
    split at h <;> cases h <;> decide

/-- **A line after a text.** Once the string that a text ends inside of is closed, a line break and another text
after it leave its lexemes as they are. -/
theorem Lexes.append_closed {text text' : List Char} {ls ls' : List Lexeme} (h : Lexes text ls)
    (h' : Lexes text' ls') : Lexes (text ++ lackingQuote text ++ '\n' :: text') (ls ++ ls') := by
  unfold lackingQuote
  induction h with
  | @nil gap hgap =>
    have hclosed : endsInString gap = false := by
      have := hgap.endsInString_append
      rwa [List.append_nil] at this
    rw [hclosed, if_neg (by decide), List.append_nil]
    cases h' with
    | nil hgap' => exact .nil (hgap.append_line hgap')
    | cons hgap' hwrites h' =>
      rw [← List.cons_append, ← List.append_assoc]
      exact .cons (hgap.append_line hgap') hwrites h'
  | @cons gap written after kind literal ls hgap hwrites h ih =>
    obtain ⟨c, tail, rfl, -⟩ := hwrites.exists_solid
    have hgap' (more : List Char) : Gap (c :: more) gap := hgap.congr rfl
    rw [hgap.endsInString_append, hwrites.endsInString_append]
    cases hopen : isOpenString (c :: tail) with
    | true =>
      obtain ⟨cs, hcs, rfl, rfl, hwritten, rfl⟩ := hwrites.of_isOpenString hopen
      obtain ⟨rfl, rfl⟩ := List.cons.inj hwritten
      obtain rfl := h.eq_nil rfl
      have hline : Lexes ('\n' :: text') ls' := Lexes.append_line (.nil .nil) nofun h'
      simpa using Lexes.cons (hgap' _) (.string hcs) hline
    | false =>
      rw [Bool.false_or, List.append_assoc, List.append_assoc, List.append_assoc]
      rw [List.append_assoc] at ih
      refine .cons (hgap' _) ?_ ih
      split
      · exact hwrites.append_cons_of_closed hopen divides_quote _
      · exact hwrites.append_cons_of_closed hopen divides_line _

/-! ## The last token -/

namespace Cursor

variable {text : List Char} {c : Cursor}

/-- The tokens ahead end with one of the kind `eof` at the place with the offset. -/
def EndsAt (text : List Char) (c : Cursor) (offset : Nat) : Prop :=
  ∃ tokens last, c.tokens = tokens ++ [last] ∧ last.kind = .eof ∧ Place text offset last.line last.column

theorem EndsAt.cons {offset : Nat} (hne : c.nextToken.1.kind ≠ .eof) (h : c.nextToken.2.EndsAt text offset) :
    c.EndsAt text offset := by
  obtain ⟨tokens, last, htokens, hlast⟩ := h
  refine ⟨c.nextToken.1 :: tokens, last, ?_, hlast⟩
  rw [Cursor.tokens, if_neg hne, htokens, List.cons_append]

/-- Where nothing but a gap is ahead, `eof` is after it. -/
theorem On.endsAt_of_nil (h : c.On text) (hrest : c.skipGap.rest = []) : c.EndsAt text c.skipGap.position := by
  refine ⟨[], c.skipGap.token .eof "", ?_, rfl, h.skipGap.place⟩
  rw [tokens, nextToken_of_nil hrest]
  exact if_pos rfl

theorem position_skipGap (c : Cursor) : c.skipGap.position = c.position + gapLength false c.rest :=
  position_advanceBy c _

theorem On.position_add_length_of_le (h : c.On text) (hle : c.position ≤ text.length) :
    c.position + c.rest.length = text.length := by
  rw [h.rest_eq, List.length_drop]
  omega

/-- **The `eof` ahead of a cursor** is at the end of the text, or one step after it, if the text ends inside
a string. -/
theorem On.ending (h : c.On text) (hle : c.position ≤ text.length) :
    c.EndsAt text (text.length + (endsInString c.rest).toNat) := by
  induction c using Cursor.tokens.induct with
  | case1 c heof =>
    have hgap := gap_of_eof heof
    have hlength := h.position_add_length_of_le hle
    have hnothing : ∀ d ∈ ([] : List Char).head?, Solid d := fun d hd => by cases hd
    have hnil : c.skipGap.rest = [] := rest_skipGap (by rw [List.append_nil]) hgap hnothing
    have hwhole : gapLength false c.rest = c.rest.length := by
      have hlength : gapLength false (c.rest ++ []) = c.rest.length := hgap.length_eq hnothing
      rwa [List.append_nil] at hlength
    have hstring : endsInString c.rest = false := by
      have := hgap.endsInString_append
      rw [List.append_nil] at this
      rw [this]
      rfl
    have hends := h.endsAt_of_nil hnil
    rwa [position_skipGap, hwhole, hlength, ← Nat.add_zero text.length, ← Bool.toNat_false, ← hstring] at hends
  | case2 c hne ih =>
    obtain ⟨ch, tail, hskip⟩ := exists_cons_of_ne_eof hne
    have hahead : c.skipGap.rest ≠ [] := by rw [hskip]; exact List.cons_ne_nil _ _
    have hlength := h.skipGap.position_add_length hahead
    have hnext := (h.piece hskip).2
    obtain ⟨-, -, -, written, hwritten, hwrites⟩ := takes_nextToken hskip
    have hcursor : c.nextToken.2 = c.skipGap.advanceBy (written.length + (isOpenString written).toNat) := by
      rw [nextToken_of_cons hskip, tokenAt_of_writes hwrites hwritten (by rw [hskip]; rfl)]
    have hposition : c.nextToken.2.position =
        c.skipGap.position + (written.length + (isOpenString written).toNat) := by
      rw [hcursor, position_advanceBy]
    have hgap : endsInString c.rest = endsInString c.skipGap.rest := by
      rw [← (gap_skipGap c).endsInString_append, Cursor.skipGap, rest_advanceBy, List.take_append_drop]
    rw [hwritten, hwrites.endsInString_append] at hgap
    rw [hwritten, List.length_append] at hlength
    cases hopen : isOpenString written with
    | true =>
      have hnil : c.nextToken.2.rest = [] := hwrites.after_eq_nil hopen
      have hends := hnext.endsAt_of_nil (show c.nextToken.2.skipGap.rest = [] by
        rw [Cursor.skipGap, rest_advanceBy, hnil, List.drop_nil])
      have hoffset : c.nextToken.2.skipGap.position = text.length + 1 := by
        rw [position_skipGap, hposition, hopen, hnil]
        rw [hnil, List.length_nil] at hlength
        simp only [gapLength, Bool.toNat_true]
        omega
      rw [hoffset] at hends
      rw [hgap, hopen]
      exact .cons hne hends
    | false =>
      rw [hopen, Bool.toNat_false] at hposition
      rw [hgap, hopen, Bool.false_or]
      exact .cons hne (ih hnext (by omega))

end Cursor

/-! ## Lines and columns -/

/-- The column after the end of a text is counted from its last line feed. -/
theorem Place.column_after {text : List Char} {extra : Nat} {line column : Int}
    (h : Place text (text.length + extra) line column) :
    column = 1 + (text.rtakeWhile (· != '\n')).length + extra := by
  have hsplit : text.rdropWhile (· != '\n') ++ text.rtakeWhile (· != '\n') = text :=
    List.rdropWhile_append_rtakeWhile
  have hline : ∀ c ∈ text.rtakeWhile (· != '\n'), c ≠ '\n' := fun c hc => by
    simpa using List.mem_rtakeWhile_imp hc
  have hlength := congrArg List.length hsplit
  rw [List.length_append] at hlength
  by_cases hnil : text.rdropWhile (· != '\n') = []
  · -- there is one line only
    rw [hnil, List.length_nil] at hlength
    have hfirst : column = (text.length + extra : Nat) + 1 := by
      refine h.column_of_first_line fun k _ hk => ?_
      rw [← hsplit, hnil, List.nil_append] at hk
      exact hline _ (List.mem_of_getElem? hk) rfl
    omega
  · have hbreak : (text.rdropWhile (· != '\n')).getLast hnil = '\n' := by
      simpa using List.rdropWhile_last_not (· != '\n') text hnil
    have hpos := List.length_pos_iff.2 hnil
    have hlast : column = (text.length + extra : Nat) - ((text.rdropWhile (· != '\n')).length - 1 : Nat) := by
      refine h.column_of_break _ (by omega) ?_ fun j hj _ hget => ?_
      · have hget : (text.rdropWhile (· != '\n') ++ text.rtakeWhile (· != '\n'))[
            (text.rdropWhile (· != '\n')).length - 1]? = some '\n' := by
          rw [List.getElem?_append_left (by omega), ← List.getLast?_eq_getElem?,
            List.getLast?_eq_some_getLast hnil, hbreak]
        rwa [hsplit] at hget
      · have hget : (text.rdropWhile (· != '\n') ++ text.rtakeWhile (· != '\n'))[j]? = some '\n' := by
          rwa [hsplit]
        rw [List.getElem?_append_right (by omega)] at hget
        exact hline _ (List.mem_of_getElem? hget) rfl
    omega

/-- **Where `eof` is.** Its line is counted by the line feeds of the text, and its column by the characters
after the last one of them. If the text ends inside a string, it is one column further on. -/
theorem eof_place (source : String) : ∃ (tokens : List Token) (last : Token),
    scan source = tokens ++ [last] ∧ last.kind = .eof ∧ last.line = 1 + source.toList.count '\n' ∧
      last.column = 1 + (source.toList.rtakeWhile (· != '\n')).length + (endsInString source.toList).toNat := by
  obtain ⟨tokens, last, htokens, hlast, hplace⟩ :=
    (Cursor.On.start source.toList).ending (Nat.zero_le _)
  refine ⟨tokens, last, htokens, hlast, ?_, hplace.column_after⟩
  rw [hplace.line_eq, List.take_of_length_le (Nat.le_add_right _ _)]

/-- After `"abc` the column is not the fifth one. -/
theorem eof_after_open_string :
    ¬ ∀ source : String, ∀ last ∈ (scan source).getLast?, last.line = 1 + source.toList.count '\n' ∧
      last.column = 1 + (source.toList.rtakeWhile (· != '\n')).length := by
  intro h
  have hlast : (scan "\"abc").getLast? = some ⟨.eof, "", 1, 6⟩ := by decide +kernel
  exact absurd (h "\"abc" _ hlast).2 (by decide)

end SepiaLang
