import Mathlib.Data.List.TakeWhile
import SepiaLang.Assoc
import SepiaLang.Proofs.Scan.Place
import SepiaLang.Token.Scan

/-!
# The text is cut into lexemes and gaps

Scanning loses nothing of a source text. The text is a sequence of lexemes, one for each token, with
blanks and comments between them, and every lexeme is as long as it can be.

* `Gap`: blanks and comments. `Writes`: what is written for a token.
* `Cursor.takes_tokenAt`: a cursor on something that is no gap takes a lexeme.
* `Piece`, `Partition`: offsets cut a text into gaps and lexemes, each with its place.
* `Cursor.On.piece`, `Cursor.On.partition`: what one token and all tokens ahead of a cursor cut.
* **`scan_partition`**: the tokens of a text cut the whole text.
-/

namespace SepiaLang

/-! ## Gaps -/

/-- Blanks and comments before the text `after`. A comment starts with `#` and goes on up to a line
feed, to `nul` or to the end. -/
inductive Gap (after : List Char) : List Char → Prop
  | nil : Gap after []
  | blank {c : Char} {rest : List Char} (hc : isLayout c = true) (h : Gap after rest) :
      Gap after (c :: rest)
  | comment {body rest : List Char} (hbody : ∀ c ∈ body, inComment c = true)
      (hend : ∀ c ∈ (rest ++ after).head?, inComment c = false) (h : Gap after rest) :
      Gap after ('#' :: body ++ rest)

/-- What `gapLength` counts is a gap; inside a comment it is the end of the comment and a gap. -/
theorem gap_take_gapLength : ∀ (comment : Bool) (text : List Char),
    let n := gapLength comment text
    if comment then
      ∃ body rest, text.take n = body ++ rest ∧ (∀ c ∈ body, inComment c = true) ∧
        (∀ c ∈ (rest ++ text.drop n).head?, inComment c = false) ∧ Gap (text.drop n) rest
    else Gap (text.drop n) (text.take n)
  | false, [] => .nil
  | true, [] => ⟨[], [], rfl, nofun, nofun, .nil⟩
  | false, c :: text => by
    have ihfalse := gap_take_gapLength false text
    have ihtrue := gap_take_gapLength true text
    simp only [gapLength, Bool.false_eq_true, if_false, if_true] at ihfalse ihtrue ⊢
    split
    next hc => exact .blank hc ihfalse
    next =>
      split
      next hc =>
        obtain ⟨body, rest, htake, hbody, hend, hgap⟩ := ihtrue
        subst hc
        rw [List.take_succ_cons, List.drop_succ_cons, htake]
        exact .comment hbody hend hgap
      next => exact .nil
  | true, c :: text => by
    have ihfalse := gap_take_gapLength false text
    have ihtrue := gap_take_gapLength true text
    simp only [gapLength, Bool.false_eq_true, if_false, if_true] at ihfalse ihtrue ⊢
    split
    next hc =>
      -- the line feed is the first blank after the comment
      refine ⟨[], _, rfl, nofun, ?_, .blank (by rw [hc]; decide) ihfalse⟩
      simp [hc, inComment]
    next =>
      split
      next hc =>
        obtain ⟨body, rest, htake, hbody, hend, hgap⟩ := ihtrue
        refine ⟨c :: body, rest, by rw [List.take_succ_cons, htake]; rfl, ?_, hend, hgap⟩
        simpa [hc] using hbody
      next hc => exact ⟨[], [], rfl, nofun, by simpa using hc, .nil⟩

/-- What follows a gap cannot be part of it. -/
theorem head?_drop_gapLength : ∀ (comment : Bool) (text : List Char),
    ∀ c ∈ (text.drop (gapLength comment text)).head?, isLayout c = false ∧ c ≠ '#'
  | _, [] => by simp
  | comment, c :: text => by
    have ih := fun comment => head?_drop_gapLength comment text
    unfold gapLength
    cases comment with
    | false =>
      simp only [Bool.false_eq_true, if_false]
      split
      · exact ih false
      · split
        · exact ih true
        · simp_all
    | true =>
      simp only [if_true]
      split
      · exact ih false
      · split
        · exact ih true
        next hbreak hc =>
          -- only `nul` ends a comment in the middle of a line
          have hnul : c = nul := by simpa [inComment, hbreak] using hc
          subst hnul
          simp only [List.drop_zero, List.head?_cons, Option.mem_some_iff, forall_eq']
          decide

/-! ## Lexemes -/

/-- What is written for a token of the given kind and literal, before the text `after`. Words, numbers
and operators are not followed by a character that would make them longer. Only at the end of the text
may the closing quote of a string be missing. -/
inductive Writes : Kind → String → (written after : List Char) → Prop
  | single {c : Char} {kind : Kind} {after : List Char} (hc : single? c = some kind) :
      Writes kind (String.ofList [c]) [c] after
  | pair {c d : Char} {longer : List (Char × Kind)} {alone kind : Kind} {after : List Char}
      (hc : compound? c = some (longer, alone)) (hd : longer.lookup d = some kind) :
      Writes kind (String.ofList [c, d]) [c, d] after
  | alone {c : Char} {longer : List (Char × Kind)} {kind : Kind} {after : List Char}
      (hc : compound? c = some (longer, kind)) (hend : ∀ d ∈ after.head?, longer.lookup d = none) :
      Writes kind (String.ofList [c]) [c] after
  | word {cs after : List Char} (hne : cs ≠ []) (hcs : ∀ c ∈ cs, isLetter c = true)
      (hend : ∀ d ∈ after.head?, isLetter d = false) :
      Writes (.ofWord (String.ofList cs)) (String.ofList cs) cs after
  | number {cs after : List Char} (hne : cs ≠ []) (hcs : ∀ c ∈ cs, isDigit c = true)
      (hend : ∀ d ∈ after.head?, isDigit d = false) :
      Writes .int (String.ofList cs) cs after
  | string {cs after : List Char} (hcs : '"' ∉ cs) :
      Writes .string (String.ofList cs) ('"' :: cs ++ ['"']) after
  | openString {cs : List Char} (hcs : '"' ∉ cs) : Writes .string (String.ofList cs) ('"' :: cs) []
  | illegal {c : Char} {after : List Char} (hgap : isLayout c = false ∧ c ≠ '#')
      (hsingle : single? c = none) (hcompound : compound? c = none) (hquote : c ≠ '"')
      (hletter : isLetter c = false) (hdigit : isDigit c = false) :
      Writes .illegal (String.ofList [c]) [c] after

/-- The kinds that no table of characters gives. -/
def Kind.untabled : List Kind := [.eof, .ident, .int, .string]

theorem single?_tabled {c : Char} {kind : Kind} (h : single? c = some kind) : kind ∉ Kind.untabled := by
  unfold single? at h
  split at h <;> cases h <;> decide

theorem compound?_tabled {c : Char} {longer : List (Char × Kind)} {alone : Kind}
    (h : compound? c = some (longer, alone)) :
    alone ∉ Kind.untabled ∧ ∀ p ∈ longer, p.2 ∉ Kind.untabled := by
  unfold compound? at h
  split at h <;> cases h <;> decide

theorem ofWord_not_mem (word : String) : Kind.ofWord word ∉ [.eof, .int, .string] := by
  unfold Kind.ofWord
  cases h : Kind.keywords.lookup word with
  | none => decide
  | some kind =>
    have hall : ∀ p ∈ Kind.keywords, p.2 ∉ [.eof, .int, .string] := by decide
    exact hall _ (Assoc.mem_of_lookup h)

namespace Writes

/-- A lexeme of a kind that the tables do not give is a word, a number or a string. -/
theorem kind_cases {kind : Kind} {literal : String} {written after : List Char}
    (h : Writes kind literal written after) (hk : kind ∈ Kind.untabled) :
    kind = .ident ∧ written ≠ [] ∧ (∀ c ∈ written, isLetter c = true) ∧
        literal = String.ofList written ∧ kind = .ofWord literal ∨
      kind = .int ∧ (∀ c ∈ written, isDigit c = true) ∧ literal = String.ofList written ∨
      kind = .string ∧ '"' ∉ literal.toList := by
  cases h with
  | single hc => exact absurd hk (single?_tabled hc)
  | pair hc hd => exact absurd hk ((compound?_tabled hc).2 _ (Assoc.mem_of_lookup hd))
  | alone hc => exact absurd hk (compound?_tabled hc).1
  | word hne hcs =>
    have hident : Kind.ofWord (String.ofList written) = .ident := by
      have := ofWord_not_mem (String.ofList written)
      grind [Kind.untabled]
    exact Or.inl ⟨hident, hne, hcs, rfl, rfl⟩
  | number _ hcs => exact Or.inr (Or.inl ⟨rfl, hcs, rfl⟩)
  | string hcs | openString hcs => exact Or.inr (Or.inr ⟨rfl, by rwa [String.toList_ofList]⟩)
  | illegal => exact absurd hk (by decide)

/-- No lexeme is the end of the text. -/
theorem kind_ne_eof {kind : Kind} {literal : String} {written after : List Char}
    (h : Writes kind literal written after) : kind ≠ .eof := by
  rintro rfl
  rcases h.kind_cases (by decide) with ⟨h, -⟩ | ⟨h, -⟩ | ⟨h, -⟩ <;> cases h

theorem written_ne_nil {kind : Kind} {literal : String} {written after : List Char}
    (h : Writes kind literal written after) : written ≠ [] := by
  cases h with
  | word hne | number hne => exact hne
  | _ => exact nofun

end Writes

/-! ## One token -/

namespace Cursor

variable {c : Cursor}

/-- Between the cursors the lexeme of the token is written, which starts at the first one. -/
structure Takes (c : Cursor) (t : Token) (c' : Cursor) : Prop where
  line_eq : t.line = c.line
  column_eq : t.column = c.column
  steps : ∃ n, c' = c.advanceBy n
  lexeme : ∃ written, c.rest = written ++ c'.rest ∧ Writes t.kind t.literal written c'.rest

/-- One character. -/
theorem takes_advance {ch : Char} {tail : List Char} (hrest : c.rest = ch :: tail) {kind : Kind}
    (h : Writes kind (String.ofList [ch]) [ch] tail) :
    c.Takes (c.token kind (String.ofList [ch])) c.advance := by
  refine ⟨rfl, rfl, ⟨1, rfl⟩, [ch], ?_, ?_⟩ <;> rw [rest_advance, hrest]
  · rfl
  · exact h

theorem drop_length_takeWhile (p : Char → Bool) (text : List Char) :
    text.drop (text.takeWhile p).length = text.dropWhile p :=
  calc text.drop (text.takeWhile p).length
      = (text.takeWhile p ++ text.dropWhile p).drop (text.takeWhile p).length := by
        rw [List.takeWhile_append_dropWhile]
    _ = text.dropWhile p := List.drop_left

theorem rest_readWhile (p : Char → Bool) (c : Cursor) :
    (c.readWhile p).2.rest = c.rest.dropWhile p := by
  change (c.advanceBy (c.rest.takeWhile p).length).rest = _
  rw [rest_advanceBy, drop_length_takeWhile]

theorem head?_dropWhile {p : Char → Bool} {text : List Char} :
    ∀ d ∈ (text.dropWhile p).head?, p d = false := by
  intro d hd
  have h := List.head?_dropWhile_not p text
  rwa [Option.mem_def.1 hd] at h

/-- A run of characters of one class, which is not empty. -/
theorem takes_readWhile {p : Char → Bool} {ch : Char} {tail : List Char} (hrest : c.rest = ch :: tail)
    (hch : p ch = true) {kind : Kind}
    (h : ∀ cs after : List Char, cs ≠ [] → (∀ x ∈ cs, p x = true) →
      (∀ d ∈ after.head?, p d = false) → String.ofList cs = (c.readWhile p).1 →
        Writes kind (String.ofList cs) cs after) :
    c.Takes (c.token kind (c.readWhile p).1) (c.readWhile p).2 := by
  refine ⟨rfl, rfl, ⟨_, rfl⟩, c.rest.takeWhile p, ?_, ?_⟩ <;> rw [rest_readWhile]
  · exact List.takeWhile_append_dropWhile.symm
  · refine h _ _ ?_ (fun x hx => List.mem_takeWhile_imp hx) head?_dropWhile rfl
    rw [hrest, List.takeWhile_cons_of_pos hch]
    exact List.cons_ne_nil _ _

/-- A string, up to its closing quote or to the end of the text. -/
theorem takes_readString {tail : List Char} (hrest : c.rest = '"' :: tail) :
    c.Takes (c.token .string c.readString.1) c.readString.2.advance := by
  have hsplit : tail.takeWhile (· != '"') ++ tail.dropWhile (· != '"') = tail :=
    List.takeWhile_append_dropWhile
  have hafter : c.readString.2.advance.rest = (tail.dropWhile (· != '"')).tail := by
    rw [rest_advance]
    congr 1
    change (c.advanceBy ((c.rest.tail.takeWhile (· != '"')).length + 1)).rest = _
    rw [rest_advanceBy, hrest, List.tail_cons, List.drop_succ_cons, drop_length_takeWhile]
  have hliteral : c.readString.1 = String.ofList (tail.takeWhile (· != '"')) := by
    rw [readString, hrest]
    rfl
  have hquote : '"' ∉ tail.takeWhile (· != '"') := fun h => by
    simpa using List.mem_takeWhile_imp h
  have hsteps : ∃ n, c.readString.2.advance = c.advanceBy n := ⟨_, advance_advanceBy c _⟩
  cases hend : tail.dropWhile (· != '"') with
  | nil =>
    rw [hend] at hafter hsplit
    refine ⟨rfl, rfl, hsteps, '"' :: tail.takeWhile (· != '"'), ?_, ?_⟩ <;> rw [hafter]
    · rw [hrest, List.cons_append]
      exact congrArg _ hsplit.symm
    · rw [hliteral]
      exact .openString hquote
  | cons d after =>
    have hd : d = '"' := by
      have hhead : d ∈ (tail.dropWhile (· != '"')).head? := by rw [hend]; rfl
      simpa using head?_dropWhile d hhead
    rw [hend, hd] at hsplit
    rw [hend, List.tail_cons] at hafter
    refine ⟨rfl, rfl, hsteps, '"' :: tail.takeWhile (· != '"') ++ ['"'], ?_, ?_⟩ <;> rw [hafter]
    · rw [hrest, List.append_assoc]
      exact congrArg _ hsplit.symm
    · rw [hliteral]
      exact .string hquote

/-- No operator goes on past the end of the text. -/
theorem lookup_nul {ch : Char} {longer : List (Char × Kind)} {alone : Kind}
    (h : compound? ch = some (longer, alone)) : longer.lookup nul = none := by
  unfold compound? at h
  split at h <;> cases h <;> decide

/-- An operator, with its second character if there is one. -/
theorem takes_readOperator {ch : Char} {tail : List Char} (hrest : c.rest = ch :: tail) {t : Token}
    {c' : Cursor} (h : c.readOperator = some (t, c')) : c.Takes t c'.advance := by
  have hcurrent : c.current = ch := by rw [current, hrest]; rfl
  have hpeek : c.peek = tail.headD nul := by rw [peek, hrest]; rfl
  unfold readOperator at h
  rw [hcurrent, hpeek] at h
  obtain ⟨⟨longer, alone⟩, hop, h⟩ := Option.map_eq_some_iff.1 h
  have hnul := lookup_nul hop
  dsimp only at h
  split at h
  next kind hkind =>
    cases h
    cases tail with
    | nil => rw [List.headD_nil, hnul] at hkind; cases hkind
    | cons d after =>
      refine ⟨rfl, rfl, ⟨2, rfl⟩, [ch, d], ?_, ?_⟩ <;> rw [rest_advance, rest_advance, hrest]
      · rfl
      · exact .pair hop hkind
  next hnone =>
    cases h
    refine takes_advance hrest (.alone hop fun d hd => ?_)
    rwa [List.headD_eq_head?_getD, Option.mem_def.1 hd, Option.getD_some] at hnone

/-- **A cursor on something that is no gap takes a lexeme.** -/
theorem takes_tokenAt {ch : Char} {tail : List Char} (hrest : c.rest = ch :: tail)
    (hgap : isLayout ch = false ∧ ch ≠ '#') : c.Takes (c.tokenAt ch).1 (c.tokenAt ch).2 := by
  have hcurrent : c.current = ch := by rw [current, hrest]; rfl
  unfold tokenAt
  split
  next kind hkind => exact takes_advance hrest (.single hkind)
  next t c' _ hop => exact takes_readOperator hrest hop
  next hsingle hop =>
    have hcompound : compound? ch = none := by
      rwa [readOperator, Option.map_eq_none_iff, hcurrent] at hop
    unfold otherTokenAt
    split
    next hquote =>
      subst hquote
      exact takes_readString hrest
    next hquote =>
      split
      next hletter =>
        exact takes_readWhile hrest hletter fun cs after hne hcs hend hword => by
          rw [readWord, ← hword]
          exact .word hne hcs hend
      next hletter =>
        split
        next hdigit =>
          exact takes_readWhile hrest hdigit fun cs after hne hcs hend _ => .number hne hcs hend
        next hdigit =>
          exact takes_advance hrest (.illegal hgap hsingle hcompound hquote (by simpa using hletter)
            (by simpa using hdigit))

end Cursor

/-! ## All tokens -/

/-- The token is cut from the text by the offsets `b` and `e`, between which its lexeme is written.
From `start` to `b` there is a gap. -/
structure Piece (text : List Char) (start : Nat) (t : Token) (b e : Nat) : Prop where
  start_le : start ≤ b
  gap : Gap (text.drop b) (text.extract start b)
  lt : b < e
  lexeme : Writes t.kind t.literal (text.extract b e) (text.drop e)
  place : Place text b t.line t.column

/-- The tokens are cut from the text, one after the other from the offset `start` on, each by its two
offsets, and a gap is left at the end. -/
def Partition (text : List Char) : (start : Nat) → List (Token × Nat × Nat) → Prop
  | start, [] => start ≤ text.length ∧ Gap [] (text.drop start)
  | start, (t, b, e) :: rest => Piece text start t b e ∧ Partition text e rest

/-- Every token of a partition has a lexeme. -/
theorem Partition.lexeme {text : List Char} : ∀ {start : Nat} {pieces : List (Token × Nat × Nat)},
    Partition text start pieces → ∀ p ∈ pieces, ∃ written after, Writes p.1.kind p.1.literal written after
  | _, [], _ => nofun
  | _, (t, b, e) :: rest, ⟨hpiece, hrest⟩ => by
    intro p hp
    rcases List.mem_cons.1 hp with rfl | hp
    · exact ⟨_, _, hpiece.lexeme⟩
    · exact hrest.lexeme p hp

namespace Cursor

variable {text : List Char} {c : Cursor}

theorem nextToken_of_nil (h : c.skipGap.rest = []) :
    c.nextToken = (c.skipGap.token .eof "", c.skipGap) := by
  unfold nextToken
  rw [h]

theorem nextToken_of_cons {ch : Char} {tail : List Char} (h : c.skipGap.rest = ch :: tail) :
    c.nextToken = c.skipGap.tokenAt ch := by
  unfold nextToken
  rw [h]

theorem gap_skipGap (c : Cursor) :
    Gap c.skipGap.rest (c.rest.take (gapLength false c.rest)) := by
  rw [skipGap, rest_advanceBy]
  exact gap_take_gapLength false c.rest

/-- After a gap there is a lexeme or nothing. -/
theorem takes_nextToken {ch : Char} {tail : List Char} (h : c.skipGap.rest = ch :: tail) :
    c.skipGap.Takes c.nextToken.1 c.nextToken.2 := by
  rw [nextToken_of_cons h]
  refine takes_tokenAt h (head?_drop_gapLength false c.rest ch ?_)
  rw [← rest_advanceBy, ← skipGap, h]
  rfl

/-- What is written between two cursors is what lies between their offsets. -/
theorem On.extract_eq {c' : Cursor} (h : c.On text) (h' : c'.On text) {written : List Char}
    (hne : c.rest ≠ []) (hrest : c.rest = written ++ c'.rest) :
    text.extract c.position (min c'.position text.length) = written := by
  have hpos := h.position_add_length hne
  have hend := h'.min_position_add_length
  have hlength := congrArg List.length hrest
  rw [List.length_append] at hlength
  change (text.drop c.position).take _ = _
  rw [← h.rest_eq, hrest]
  refine List.take_left' ?_
  omega

/-- **One token is cut from the text.** A cursor past the end is taken to the end: an open string ends
there, though the cursor goes on by a step. -/
theorem On.piece (h : c.On text) {ch : Char} {tail : List Char} (hrest : c.skipGap.rest = ch :: tail) :
    Piece text (min c.position text.length) c.nextToken.1 c.skipGap.position
      (min c.nextToken.2.position text.length) ∧ c.nextToken.2.On text := by
  obtain ⟨hline, hcolumn, ⟨k, hsteps⟩, written, hwritten, hlexeme⟩ := takes_nextToken hrest
  have hgap : c.skipGap.On text := h.skipGap
  have hnext : c.nextToken.2.On text := hsteps ▸ hgap.advanceBy k
  have hne : c.skipGap.rest ≠ [] := by rw [hrest]; exact List.cons_ne_nil _ _
  have hbefore := hgap.position_add_length hne
  have hskip : c.skipGap.position = c.position + gapLength false c.rest := position_advanceBy _ _
  refine ⟨⟨by omega, ?_, ?_, ?_, ?_⟩, hnext⟩
  · have htext : text.extract (min c.position text.length) c.skipGap.position =
        c.rest.take (gapLength false c.rest) := by
      change (text.drop (min c.position text.length)).take _ = _
      rw [h.drop_min_position]
      congr 1
      omega
    rw [htext, ← hgap.rest_eq]
    exact gap_skipGap c
  · have hafter := hnext.min_position_add_length
    have hpos := List.length_pos_iff.2 hlexeme.written_ne_nil
    have hlength := congrArg List.length hwritten
    rw [List.length_append] at hlength
    omega
  · rw [hgap.extract_eq hnext hne hwritten, hnext.drop_min_position]
    exact hlexeme
  · rw [hline, hcolumn]
    exact hgap.place

/-- A token that is not the end is written somewhere. -/
theorem exists_cons_of_ne_eof (hne : c.nextToken.1.kind ≠ .eof) : ∃ ch tail, c.skipGap.rest = ch :: tail := by
  cases hrest : c.skipGap.rest with
  | nil => exact absurd (by rw [nextToken_of_nil hrest]; rfl) hne
  | cons ch tail => exact ⟨ch, tail, rfl⟩

/-- The token `eof` is given where nothing but a gap is ahead. -/
theorem rest_skipGap_of_eof (heof : c.nextToken.1.kind = .eof) : c.skipGap.rest = [] := by
  cases hrest : c.skipGap.rest with
  | nil => rfl
  | cons ch tail =>
    obtain ⟨_, _, hlexeme⟩ := (takes_nextToken hrest).lexeme
    exact absurd heof hlexeme.kind_ne_eof

/-- At the end of the tokens there is a gap. -/
theorem gap_of_eof (heof : c.nextToken.1.kind = .eof) : Gap [] c.rest := by
  have hnil := rest_skipGap_of_eof heof
  have hgap := gap_skipGap c
  rw [hnil, List.take_of_length_le] at hgap
  · exact hgap
  · rwa [skipGap, rest_advanceBy, List.drop_eq_nil_iff] at hnil

/-- **The tokens ahead of a cursor cut what is left of the text.** -/
theorem On.partition (h : c.On text) : ∃ pieces last, c.tokens = pieces.map (·.1) ++ [last] ∧
    last.kind = .eof ∧ Partition text (min c.position text.length) pieces := by
  induction c using Cursor.tokens.induct with
  | case1 c heof =>
    refine ⟨[], c.nextToken.1, by rw [tokens, if_pos heof]; rfl, heof, Nat.min_le_right _ _, ?_⟩
    rw [h.drop_min_position]
    exact gap_of_eof heof
  | case2 c hne ih =>
    obtain ⟨ch, tail, hrest⟩ := exists_cons_of_ne_eof hne
    obtain ⟨hpiece, hnext⟩ := h.piece hrest
    obtain ⟨pieces, last, htokens, hlast, hpieces⟩ := ih hnext
    refine ⟨(_, _, _) :: pieces, last, ?_, hlast, hpiece, hpieces⟩
    rw [tokens, if_neg hne, htokens]
    rfl

end Cursor

/-- Every token of a text has a lexeme, or is the end. -/
theorem lexeme_of_mem_scan {source : String} {t : Token} (ht : t ∈ scan source) (hne : t.kind ≠ .eof) :
    ∃ written after, Writes t.kind t.literal written after := by
  obtain ⟨pieces, last, htokens, hlast, hpieces⟩ := (Cursor.On.start source.toList).partition
  rw [scan, htokens] at ht
  rcases List.mem_append.1 ht with ht | ht
  · obtain ⟨p, hp, rfl⟩ := List.mem_map.1 ht
    exact hpieces.lexeme p hp
  · rw [List.mem_singleton.1 ht] at hne
    exact absurd hlast hne

/-- **Scanning loses nothing.** The tokens of a text end with `eof`, which is nowhere else. The others
are cut from the text by offsets: what is written from the first to the second offset of a token is its
lexeme, as long as it can be and of the kind that the tables give for it; what is left between lexemes
and at both ends are blanks and comments; and the token has the line and the column of its first
offset. -/
theorem scan_partition (source : String) :
    ∃ (pieces : List (Token × Nat × Nat)) (last : Token),
      scan source = pieces.map (·.1) ++ [last] ∧ last.kind = .eof ∧ (∀ p ∈ pieces, p.1.kind ≠ .eof) ∧
      Partition source.toList 0 pieces := by
  obtain ⟨pieces, last, htokens, hlast, hpieces⟩ := (Cursor.On.start source.toList).partition
  refine ⟨pieces, last, htokens, hlast, fun p hp => ?_, ?_⟩
  · obtain ⟨_, _, hlexeme⟩ := hpieces.lexeme p hp
    exact hlexeme.kind_ne_eof
  · rwa [show (Cursor.start source.toList).position = 0 from rfl, Nat.zero_min] at hpieces

end SepiaLang
