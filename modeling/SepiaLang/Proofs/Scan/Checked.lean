import SepiaLang.Token.Scan

/-!
# Looking operators up

The table of operators knows few characters, and a scanner may look a character up only if the table
has it. Here looking up a character that is missing is a fault. The scanner asks the table first, so it
is never at fault and takes the tokens of the text.

* `Cursor.lookUpOperator`: the operator ahead, or the character that the table does not have.
* `Cursor.checkedTokens`: the tokens ahead, taken by a scanner that may be at fault.
* `Cursor.checkedNextToken_eq`: the next token is taken without a fault.
* **`Cursor.checkedTokens_eq`**: so are all of them.
-/

namespace SepiaLang.Cursor

/-- The operator ahead, with the cursor left on its last character. The character under the cursor is a
fault if it is missing from the table. -/
def lookUpOperator (c : Cursor) : Except Char (Token × Cursor) :=
  match c.readOperator with
  | some operator => .ok operator
  | none => .error c.current

/-- The token at the cursor, on the character `ch`, and the cursor after it. -/
def checkedTokenAt (c : Cursor) (ch : Char) : Except Char (Token × Cursor) :=
  match single? ch with
  | some kind => .ok (c.token kind (String.singleton ch), c.advance)
  | none =>
    if (compound? ch).isSome then
      c.lookUpOperator.map fun operator => (operator.1, operator.2.advance)
    else
      .ok (c.otherTokenAt ch)

/-- The next token and the cursor after it. -/
def checkedNextToken (c : Cursor) : Except Char (Token × Cursor) :=
  match c.skipGap.rest with
  | [] => .ok (c.skipGap.token .eof "", c.skipGap)
  | ch :: _ => c.skipGap.checkedTokenAt ch

section

variable {c : Cursor} {ch : Char} {tail : List Char}

/-- An operator is read exactly where one starts. -/
theorem isSome_readOperator (h : c.rest = ch :: tail) :
    c.readOperator.isSome = (compound? ch).isSome := by
  have hcurrent : c.current = ch := by rw [current, h, List.headD_cons]
  rw [readOperator, Option.isSome_map, hcurrent]

/-- The test before an operator is looked up is the one that is needed. -/
theorem checkedTokenAt_eq (h : c.rest = ch :: tail) : c.checkedTokenAt ch = .ok (c.tokenAt ch) := by
  have htable := isSome_readOperator h
  unfold checkedTokenAt tokenAt
  cases single? ch with
  | some kind => rfl
  | none =>
    dsimp only
    split
    next hentry =>
      obtain ⟨operator, hop⟩ := Option.isSome_iff_exists.1 (htable.trans hentry)
      rw [lookUpOperator, hop]
      rfl
    next hentry =>
      rw [← htable, Option.not_isSome_iff_eq_none] at hentry
      rw [hentry]

end

theorem checkedNextToken_eq (c : Cursor) : c.checkedNextToken = .ok c.nextToken := by
  unfold checkedNextToken nextToken
  cases hrest : c.skipGap.rest with
  | nil => rfl
  | cons ch tail => exact checkedTokenAt_eq hrest

theorem nextToken_of_ok {c c' : Cursor} {t : Token} (h : c.checkedNextToken = .ok (t, c')) :
    c.nextToken = (t, c') :=
  Except.ok.inj (c.checkedNextToken_eq.symm.trans h)

theorem length_rest_checkedNextToken_lt {c c' : Cursor} {t : Token}
    (h : c.checkedNextToken = .ok (t, c')) (hkind : t.kind ≠ .eof) :
    c'.rest.length < c.rest.length := by
  have hnext := nextToken_of_ok h
  have hlt := length_rest_nextToken_lt c
  rw [hnext] at hlt
  exact hlt hkind

/-- The tokens ahead up to the first `eof`, or the first character that is looked up in vain. -/
def checkedTokens (c : Cursor) : Except Char (List Token) :=
  match h : c.checkedNextToken with
  | .error ch => .error ch
  | .ok (t, c') =>
    if hkind : t.kind = .eof then .ok [t]
    else
      have := length_rest_checkedNextToken_lt h hkind
      c'.checkedTokens.map (t :: ·)
termination_by c.rest.length

/-- **Nothing is looked up in vain.** The scanner that may be at fault takes the tokens of the text. -/
theorem checkedTokens_eq (c : Cursor) : c.checkedTokens = .ok c.tokens := by
  fun_induction checkedTokens c with
  | case1 c ch h => cases c.checkedNextToken_eq.symm.trans h
  | case2 c t c' h heof =>
    rw [tokens, nextToken_of_ok h, if_pos heof]
  | case3 c t c' h heof _ ih =>
    rw [tokens, nextToken_of_ok h, if_neg heof, ih]
    rfl

end SepiaLang.Cursor
