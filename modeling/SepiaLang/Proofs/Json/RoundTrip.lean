import Mathlib.Data.List.TakeWhile
import Mathlib.Tactic.IntervalCases
import SepiaLang.Json.Printer
import SepiaLang.Json.Reader
import SepiaLang.Proofs.Numeral

/-!
# JSON that is read back

A value without floating-point numbers is read back from its text, as long as its integers have no
more digits and its containers are nested no deeper than the reader takes.

* `Json.Plain`, `Json.nesting`: what such values are.
* `string?_quotedString`, `scalar?_int`: strings and integers, whatever follows them.
* **`value?_prettyAt`**: values of all sorts, where the line ends or a comma follows.
* **`read_pretty`**: whole texts.
-/

namespace SepiaLang.Json

/-! ## Values -/

mutual

/-- The value holds no floating-point number, its integers are not too long, and no object has two
fields of one name. -/
def Plain : Json → Prop
  | null | bool _ | string _ => True
  | int n => n.natAbs < 10 ^ Text.maxDigits
  | float _ => False
  | array items => PlainItems items
  | object fields => (fields.map (·.1)).Nodup ∧ PlainFields fields

/-- All values are plain. -/
def PlainItems : List Json → Prop
  | [] => True
  | j :: rest => j.Plain ∧ PlainItems rest

/-- The values of all fields are plain. -/
def PlainFields : List (String × Json) → Prop
  | [] => True
  | (_, j) :: rest => j.Plain ∧ PlainFields rest

end

mutual

/-- How many containers there are inside each other. -/
def nesting : Json → Nat
  | array items => nestingItems items + 1
  | object fields => nestingFields fields + 1
  | _ => 0

/-- How deeply the values are nested. -/
def nestingItems : List Json → Nat
  | [] => 0
  | j :: rest => max j.nesting (nestingItems rest)

/-- How deeply the values of the fields are nested. -/
def nestingFields : List (String × Json) → Nat
  | [] => 0
  | (_, j) :: rest => max j.nesting (nestingFields rest)

end

/-! ## Places -/

namespace Place

theorem skip_mk (text : List Char) (position n : Nat) :
    (⟨text, position⟩ : Place).skip n = ⟨text.drop n, position + n⟩ := rfl

/-- A blank between tokens. -/
def isBlank (c : Char) : Bool := c == ' ' || c == '\t' || c == '\n' || c == '\r'

theorem skipBlanks_append {blanks text : List Char} (hb : ∀ c ∈ blanks, isBlank c = true)
    (ht : ∀ c, text.head? = some c → isBlank c = false) (position : Nat) :
    ∃ position', (⟨blanks ++ text, position⟩ : Place).skipBlanks = ⟨text, position'⟩ := by
  have hrun : (blanks ++ text).takeWhile isBlank = blanks := by
    rw [List.takeWhile_append_of_pos hb]
    cases text with
    | nil => simp
    | cons c text => simp [ht c rfl]
  refine ⟨position + blanks.length, ?_⟩
  show (⟨blanks ++ text, position⟩ : Place).skip ((blanks ++ text).takeWhile isBlank).length = _
  rw [hrun, skip_mk, List.drop_left]

theorem skipBlanks_of_head {c : Char} (h : isBlank c = false) (text : List Char) (position : Nat) :
    ∃ position', (⟨c :: text, position⟩ : Place).skipBlanks = ⟨c :: text, position'⟩ :=
  skipBlanks_append (List.forall_mem_nil _) (by simpa using h) position

theorem skipBlanks_space {c : Char} (h : isBlank c = false) (text : List Char) (position : Nat) :
    ∃ position', (⟨' ' :: c :: text, position⟩ : Place).skipBlanks = ⟨c :: text, position'⟩ :=
  skipBlanks_append (List.forall_mem_singleton.2 (show isBlank ' ' = true from rfl))
    (by simpa using h) position

theorem skipBlanks_newLine (level : Nat) {c : Char} (h : isBlank c = false) (text : List Char)
    (position : Nat) :
    ∃ position', (⟨(newLine level).toList ++ c :: text, position⟩ : Place).skipBlanks =
      ⟨c :: text, position'⟩ := by
  refine skipBlanks_append ?_ (by simpa using h) position
  intro d hd
  rw [newLine, String.toList_ofList, List.mem_cons] at hd
  rcases hd with rfl | hd
  · decide
  · rw [List.eq_of_mem_replicate hd]
    decide

end Place

/-! ## Strings -/

theorem hex4?_hexPadded {n : Nat} (h : n < 0x20) (c : Char) (rest : List Char) :
    hex4? (Text.hexPadded 4 n ++ c :: rest) = some n := by
  interval_cases n <;> rfl

theorem length_hexPadded {n : Nat} (h : n < 0x20) : (Text.hexPadded 4 n).length = 4 := by
  interval_cases n <;> rfl

/-- **A character of a string is read back**, where the string goes on. -/
theorem stringFrom_escapedChar (start n : Nat) (before : List Char) (c d : Char) (rest : List Char)
    (position : Nat) :
    ∃ position', stringFrom start (n + 1) before ⟨escapedChar c ++ d :: rest, position⟩ =
      stringFrom start n (c :: before) ⟨d :: rest, position'⟩ := by
  have short (e c : Char) (he : shortEscape? e = some c) :
      stringFrom start (n + 1) before ⟨'\\' :: e :: d :: rest, position⟩ =
        stringFrom start n (c :: before) ⟨d :: rest, position + 2⟩ := by
    have hu : e ≠ 'u' := by
      rintro rfl
      cases he
    rw [stringFrom]
    simp [he, Place.skip_mk]
  have hnumber : Char.ofNat c.toNat = c := Char.ofNat_toNat c
  unfold escapedChar
  split
  next h =>
    rcases h with rfl | rfl
    · exact ⟨_, short '"' '"' rfl⟩
    · exact ⟨_, short '\\' '\\' rfl⟩
  split
  next h => exact ⟨_, h ▸ short 'n' '\n' rfl⟩
  split
  next h => exact ⟨_, h ▸ short 'r' '\r' rfl⟩
  split
  next h => exact ⟨_, h ▸ short 't' '\t' rfl⟩
  split
  next h => exact ⟨_, short 'b' c (by rw [← hnumber, h]; rfl)⟩
  split
  next h => exact ⟨_, short 'f' c (by rw [← hnumber, h]; rfl)⟩
  split
  next h =>
    refine ⟨position + 6, ?_⟩
    have hlength : (Text.hexPadded 4 c.toNat).length = 4 := length_hexPadded h
    have hchar : charOfNumber c.toNat = c := by
      rw [charOfNumber, if_neg (by omega), hnumber]
    have hhigh : ¬ (0xD800 ≤ c.toNat ∧ c.toNat ≤ 0xDBFF) := by omega
    rw [stringFrom]
    simp only [List.cons_append, hex4?_hexPadded h, hhigh, if_false, hchar, Place.skip_mk]
    simp [hlength]
  next h =>
    refine ⟨position + 1, ?_⟩
    rw [stringFrom]
    simp_all [Place.skip_mk]

theorem stringFrom_escaped (start : Nat) : ∀ (text before : List Char) (n position : Nat) (rest : List Char),
    text.length < n → ∃ position',
      stringFrom start n before ⟨text.flatMap escapedChar ++ '"' :: rest, position⟩ =
        .ok (String.ofList (before.reverse ++ text), ⟨rest, position'⟩)
  | [], before, n + 1, position, rest, _ => ⟨position + 1, by simp [stringFrom, Place.skip_mk]⟩
  | c :: text, before, n + 1, position, rest, h => by
    obtain ⟨d, tail, htail⟩ : ∃ d tail, text.flatMap escapedChar ++ '"' :: rest = d :: tail :=
      List.exists_cons_of_ne_nil (by simp)
    obtain ⟨position₁, h₁⟩ := stringFrom_escapedChar start n before c d tail position
    obtain ⟨position₂, h₂⟩ := stringFrom_escaped start text (c :: before) n position₁ rest
      (by simpa using h)
    refine ⟨position₂, ?_⟩
    rw [List.flatMap_cons, List.append_assoc, htail, h₁, ← htail, h₂]
    simp

/-- **A string is read back**, whatever follows. -/
theorem string?_quotedString (text : String) (rest : List Char) {n : Nat} (h : text.length < n)
    (position : Nat) : ∃ position',
      string? n ⟨(quotedString text).toList ++ rest, position⟩ = .ok (text, ⟨rest, position'⟩) := by
  obtain ⟨position', h'⟩ := stringFrom_escaped position text.toList [] n (position + 1) rest
    (by rwa [String.length_toList])
  refine ⟨position', ?_⟩
  have hskip : (⟨(quotedString text).toList ++ rest, position⟩ : Place).skip 1 =
      ⟨text.toList.flatMap escapedChar ++ '"' :: rest, position + 1⟩ := by
    simp [quotedString, Place.skip_mk]
  show stringFrom position n [] (Place.skip _ 1) = _
  rw [hskip, h']
  simp

/-! ## Words and numbers -/

/-- What may follow a value: a comma or a line end. -/
def Ends (rest : List Char) : Prop := ∀ c, rest.head? = some c → c = ',' ∨ c = '\n'

theorem scalar?_null (rest : List Char) (position : Nat) :
    scalar? ⟨"null".toList ++ rest, position⟩ = .ok (.null, ⟨rest, position + 4⟩) := by
  simp [scalar?, words, Place.skip_mk]

theorem scalar?_bool (b : Bool) (rest : List Char) (position : Nat) : ∃ position',
    scalar? ⟨(if b then "true" else "false" : String).toList ++ rest, position⟩ =
      .ok (.bool b, ⟨rest, position'⟩) := by
  cases b
  · exact ⟨position + 5, by simp [scalar?, words, Place.skip_mk]⟩
  · exact ⟨position + 4, by simp [scalar?, words, Place.skip_mk]⟩

theorem toList_toString_int (n : Int) :
    (toString n).toList = (if n < 0 then ['-'] else []) ++ Nat.toDigits 10 n.natAbs := by
  cases n with
  | ofNat m => exact Nat.toList_repr
  | negSucc m =>
    show ("-" ++ Nat.repr (m + 1)).toList = _
    rw [String.toList_append, Nat.toList_repr, if_pos (Int.negSucc_lt_zero m)]
    rfl

theorem isDecimal_eq_isDigit (c : Char) : isDecimal c = c.isDigit := by
  rw [Bool.eq_iff_iff]
  simp [isDecimal, Char.isDigit, Char.le_def, UInt32.le_iff_toNat_le]

theorem isDecimal_of_mem_toDigits {n : Nat} {c : Char} (h : c ∈ Nat.toDigits 10 n) :
    isDecimal c = true := by
  rw [isDecimal_eq_isDigit]
  exact Nat.isDigit_of_mem_toDigits (by decide) (by decide) h

theorem decimalValue_toDigits (n : Nat) : decimalValue (Nat.toDigits 10 n) = n := by
  rw [decimalValue, Text.ofDigits, List.foldl_map]
  exact Nat.ofDigitChars_ten_toDigits

theorem Ends.not_isDecimal {rest : List Char} (h : Ends rest) {c : Char} (hc : rest.head? = some c) :
    isDecimal c = false := by
  rcases h c hc with rfl | rfl <;> decide

theorem head?_toDigits {n : Nat} (h : 0 < n) : (Nat.toDigits 10 n).head? ≠ some '0' := by
  induction n using Nat.strongRecOn with
  | _ n ih =>
    rw [Nat.toDigits_eq_if (by decide)]
    split
    · rw [List.head?_cons, ne_eq, Option.some_inj, Nat.digitChar_eq_zero]
      omega
    · rw [List.head?_append_of_ne_nil _ Nat.toDigits_ne_nil]
      exact ih (n / 10) (by omega) (by omega)

theorem takeWhile_toDigits (n : Nat) {rest : List Char} (h : Ends rest) :
    (Nat.toDigits 10 n ++ rest).takeWhile isDecimal = Nat.toDigits 10 n := by
  rw [List.takeWhile_append_of_pos fun _ => isDecimal_of_mem_toDigits]
  cases rest with
  | nil => simp
  | cons c rest => simp [h.not_isDecimal rfl]

/-- The digits of a number end before what may follow it. -/
theorem wholePart_toDigits (n : Nat) {rest : List Char} (h : Ends rest) :
    wholePart (Nat.toDigits 10 n ++ rest) = Nat.toDigits 10 n := by
  unfold wholePart
  split
  · next tail heq =>
    -- a leading zero is the whole number
    rcases Nat.eq_zero_or_pos n with rfl | hn
    · rfl
    · refine absurd ?_ (head?_toDigits hn)
      rw [← List.head?_append_of_ne_nil _ Nat.toDigits_ne_nil, heq]
      rfl
  · exact takeWhile_toDigits n h

theorem fractionPart_of_ends {rest : List Char} (h : Ends rest) : fractionPart rest = [] := by
  cases rest with
  | nil => rfl
  | cons c rest => rcases h c rfl with rfl | rfl <;> rfl

theorem exponentPart_of_ends {rest : List Char} (h : Ends rest) : exponentPart rest = none := by
  have hof (e : Char) (he : e = ',' ∨ e = '\n') (rest : List Char) (f : Nat → Int × Nat) :
      exponentPart.exponentOf e rest f = none := by
    rcases he with rfl | rfl <;> simp [exponentPart.exponentOf]
  cases rest with
  | nil => rfl
  | cons c rest =>
    have hc := h c rfl
    unfold exponentPart
    split
    · next heq => cases heq; exact hof _ hc _ _
    · next heq => cases heq; exact hof _ hc _ _
    · next heq => cases heq; exact hof _ hc _ _
    · rfl

theorem number?_toDigits {n : Nat} (hn : n < 10 ^ Text.maxDigits) (negative : Bool) (sign rest : List Char)
    (h : Ends rest) (position : Nat) : ∃ position',
      number? negative ⟨sign ++ Nat.toDigits 10 n ++ rest, position⟩ sign.length =
        .ok (.int (Binary64.withSign negative n), ⟨rest, position'⟩) := by
  have hlength : (Nat.toDigits 10 n).length ≤ Text.maxDigits :=
    (Nat.length_toDigits_le_iff (by decide) (by decide)).2 hn
  have hdrop : (sign ++ Nat.toDigits 10 n ++ rest).drop sign.length = Nat.toDigits 10 n ++ rest := by
    simp
  have hafter : (sign ++ Nat.toDigits 10 n ++ rest).drop (sign.length + (Nat.toDigits 10 n).length) =
      rest := by
    rw [List.append_assoc, ← List.drop_drop, List.drop_left, List.drop_left]
  have hnil : (Nat.toDigits 10 n).isEmpty = false := by
    rw [List.isEmpty_eq_false_iff]
    exact Nat.toDigits_ne_nil
  refine ⟨position + (sign.length + (Nat.toDigits 10 n).length), ?_⟩
  simp only [number?, hdrop, wholePart_toDigits n h, List.drop_left, fractionPart_of_ends h, List.isEmpty_nil,
    if_true, Nat.add_zero, exponentPart_of_ends h, hnil, decimalValue_toDigits, Place.skip_mk, hafter,
    if_neg (Nat.not_lt.2 hlength)]
  simp

theorem ne_of_isDecimal {c d : Char} (hc : isDecimal c = true) (hd : isDecimal d = false) : d ≠ c := by
  rintro rfl
  rw [hc] at hd
  cases hd

theorem exists_toDigits_eq_cons (n : Nat) :
    ∃ c tail, Nat.toDigits 10 n = c :: tail ∧ isDecimal c = true := by
  obtain ⟨c, tail, h⟩ := List.exists_cons_of_ne_nil (show Nat.toDigits 10 n ≠ [] from Nat.toDigits_ne_nil)
  exact ⟨c, tail, h, isDecimal_of_mem_toDigits (h ▸ List.mem_cons_self)⟩

/-- **An integer is read back** where it ends. -/
theorem scalar?_int {n : Int} (hn : n.natAbs < 10 ^ Text.maxDigits) {rest : List Char} (h : Ends rest)
    (position : Nat) : ∃ position',
      scalar? ⟨(toString n).toList ++ rest, position⟩ = .ok (.int n, ⟨rest, position'⟩) := by
  obtain ⟨c, tail, hdigits, hc⟩ := exists_toDigits_eq_cons n.natAbs
  have hne (d : Char) (hd : isDecimal d = false) : d ≠ c := ne_of_isDecimal hc hd
  have hword : words.find? (·.1.isPrefixOf ((toString n).toList ++ rest)) = none := by
    rw [toList_toString_int, hdigits]
    split <;> simp [words, hne 'n' rfl, hne 't' rfl, hne 'f' rfl, hne 'N' rfl, hne 'I' rfl, hne '-' rfl]
  unfold scalar?
  rw [show words.find? _ = none from hword, toList_toString_int]
  rcases Int.lt_or_le n 0 with hneg | hpos
  · obtain ⟨position', h'⟩ := number?_toDigits hn true ['-'] rest h position
    rw [if_pos hneg]
    refine ⟨position', h'.trans ?_⟩
    rw [Binary64.withSign, if_pos rfl, Int.ofNat_natAbs_of_nonpos hneg.le, Int.neg_neg]
  · obtain ⟨position', h'⟩ := number?_toDigits hn false [] rest h position
    rw [if_neg (by omega)]
    refine ⟨position', ?_⟩
    rw [hdigits] at h' ⊢
    simp only [List.nil_append, List.cons_append] at h' ⊢
    split
    · next heq => cases heq; cases hc
    · refine h'.trans ?_
      rw [Binary64.withSign, if_neg (by decide), Int.natAbs_of_nonneg hpos]

/-! ## Containers -/

/-- Parts, each on a line of its own and all but the last with a comma, up to the bracket. -/
def closing (level : Nat) (right : Char) : List String → List Char
  | [] => []
  | [part] => part.toList ++ ((newLine level).toList ++ [right])
  | part :: next :: parts =>
    part.toList ++ (',' :: ((newLine (level + 1)).toList ++ closing level right (next :: parts)))

theorem toList_bracketed (level : Nat) (left right : Char) {parts : List String} (h : parts ≠ []) :
    (bracketed level (String.singleton left) (String.singleton right) parts).toList =
      left :: ((newLine (level + 1)).toList ++ closing level right parts) := by
  have hparts : (String.intercalate ("," ++ newLine (level + 1)) parts).toList ++
      ((newLine level).toList ++ [right]) = closing level right parts := by
    rw [String.toList_intercalate]
    induction parts with
    | nil => exact absurd rfl h
    | cons part parts ih =>
      cases parts with
      | nil => simp [List.intercalate, closing]
      | cons next parts =>
        rw [closing, ← ih (by simp)]
        simp [List.intercalate]
  rw [bracketed, if_neg (by simpa using h), ← hparts]
  simp [String.toList_append]

/-- What the text of a value may start with. -/
def Starts (c : Char) : Prop := Place.isBlank c = false ∧ c ≠ ']' ∧ c ≠ Char.ofNat 0xFEFF

instance (c : Char) : Decidable (Starts c) :=
  inferInstanceAs (Decidable (Place.isBlank c = false ∧ c ≠ ']' ∧ c ≠ Char.ofNat 0xFEFF))

theorem Starts.of_isDecimal {c : Char} (h : isDecimal c = true) : Starts c := by
  refine ⟨?_, (ne_of_isDecimal h rfl).symm, (ne_of_isDecimal h (by decide)).symm⟩
  have hne (d : Char) (hd : isDecimal d = false) : c ≠ d := (ne_of_isDecimal h hd).symm
  simp [Place.isBlank, hne ' ' rfl, hne '\t' rfl, hne '\n' rfl, hne '\r' rfl]

theorem exists_bracketed_eq_cons (level : Nat) (left right : Char) (parts : List String) :
    ∃ tail, (bracketed level (String.singleton left) (String.singleton right) parts).toList =
      left :: tail := by
  by_cases h : parts = []
  · subst h
    exact ⟨[right], by simp [bracketed]⟩
  · exact ⟨_, toList_bracketed level left right h⟩

theorem exists_prettyAt_eq_cons (level : Nat) {j : Json} (h : j.Plain) :
    ∃ c tail, (prettyAt level j).toList = c :: tail ∧ Starts c := by
  cases j with
  | null => exact ⟨'n', "ull".toList, by simp [prettyAt], by decide⟩
  | bool b =>
    cases b
    · exact ⟨'f', "alse".toList, by simp [prettyAt], by decide⟩
    · exact ⟨'t', "rue".toList, by simp [prettyAt], by decide⟩
  | int n =>
    rw [prettyAt, toList_toString_int]
    split
    · exact ⟨'-', _, rfl, by decide⟩
    · obtain ⟨c, tail, hdigits, hc⟩ := exists_toDigits_eq_cons n.natAbs
      exact ⟨c, tail, by rw [hdigits]; rfl, .of_isDecimal hc⟩
  | float x => cases h
  | string text =>
    rw [prettyAt]
    exact ⟨'"', _, String.toList_ofList, by decide⟩
  | array items =>
    rw [prettyAt]
    obtain ⟨tail, htail⟩ := exists_bracketed_eq_cons level '[' ']' (prettyItems (level + 1) items)
    exact ⟨'[', tail, htail, by decide⟩
  | object fields =>
    rw [prettyAt]
    obtain ⟨tail, htail⟩ := exists_bracketed_eq_cons level '{' '}' (prettyFields (level + 1) fields)
    exact ⟨'{', tail, htail, by decide⟩

theorem exists_closing_eq_cons (level : Nat) (right : Char) {part : String} {c : Char} {tail : List Char}
    (h : part.toList = c :: tail) (parts : List String) :
    ∃ tail', closing level right (part :: parts) = c :: tail' := by
  cases parts <;> exact ⟨_, by rw [closing, h]; rfl⟩

theorem ends_newLine (level : Nat) (rest : List Char) : Ends ((newLine level).toList ++ rest) := by
  intro c hc
  rw [newLine, String.toList_ofList] at hc
  exact .inr (Option.some.inj hc).symm

theorem ends_comma (rest : List Char) : Ends (',' :: rest) :=
  fun _ hc => .inl (Option.some.inj hc).symm

theorem length_newLine (level : Nat) : (newLine level).toList.length = 2 * level + 1 := by
  simp [newLine]

theorem length_le_quotedString (text : String) : text.length + 2 ≤ (quotedString text).toList.length := by
  have hchar (c : Char) : 1 ≤ (escapedChar c).length := by
    unfold escapedChar
    repeat' split
    all_goals simp
  have hall (cs : List Char) : cs.length ≤ (cs.flatMap escapedChar).length := by
    induction cs with
    | nil => exact Nat.le_refl 0
    | cons c cs ih =>
      have := hchar c
      simp only [List.length_cons, List.flatMap_cons, List.length_append]
      omega
  have := hall text.toList
  simp only [quotedString, String.toList_ofList, List.length_append, List.length_cons, List.length_nil,
    ← String.length_toList]
  omega

/-- A field of a new name comes last. -/
theorem put_of_not_mem {name : String} {value : Json} {before : List (String × Json)}
    (h : name ∉ before.map (·.1)) :
    Assoc.put (·.1 == name) (name, value) before = before ++ [(name, value)] := by
  induction before with
  | nil => rfl
  | cons field before ih =>
    rw [List.map_cons, List.mem_cons, not_or] at h
    rw [Assoc.put, if_neg (by simpa using Ne.symm h.1), ih h.2, List.cons_append]

theorem value?_of_scalar {c : Char} (h : c ≠ '"' ∧ c ≠ '[' ∧ c ≠ '{') (n room : Nat) (rest : List Char)
    (position : Nat) :
    value? (n + 1) room ⟨c :: rest, position⟩ = scalar? ⟨c :: rest, position⟩ := by
  unfold value?
  split <;> simp_all

/-- The value is read back from where it starts to where it ends. -/
def ReadsBack (j : Json) : Prop :=
  ∀ (level : Nat) {n room : Nat}, j.nesting ≤ room → 2 * (prettyAt level j).toList.length ≤ n →
    ∀ {rest : List Char}, Ends rest → ∀ position, ∃ position',
      value? n room ⟨(prettyAt level j).toList ++ rest, position⟩ = .ok (j, ⟨rest, position'⟩)

theorem readsBack_null : ReadsBack null := by
  intro level n room _ hn rest _ position
  rw [prettyAt] at hn ⊢
  obtain ⟨n, rfl⟩ : ∃ m, n = m + 1 := ⟨n - 1, by simp at hn; omega⟩
  exact ⟨_, (value?_of_scalar (by decide) _ _ _ _).trans (scalar?_null rest position)⟩

theorem readsBack_bool (b : Bool) : ReadsBack (bool b) := by
  intro level n room _ hn rest _ position
  rw [prettyAt] at hn ⊢
  obtain ⟨position', h⟩ := scalar?_bool b rest position
  refine ⟨position', Eq.trans ?_ h⟩
  cases b
  · obtain ⟨n, rfl⟩ : ∃ m, n = m + 1 := ⟨n - 1, by simp at hn; omega⟩
    exact value?_of_scalar (by decide) _ _ _ _
  · obtain ⟨n, rfl⟩ : ∃ m, n = m + 1 := ⟨n - 1, by simp at hn; omega⟩
    exact value?_of_scalar (by decide) _ _ _ _

theorem readsBack_int {i : Int} (h : i.natAbs < 10 ^ Text.maxDigits) : ReadsBack (int i) := by
  intro level n room _ hn rest hrest position
  obtain ⟨c, tail, htext, hc⟩ : ∃ c tail, (toString i).toList = c :: tail ∧ (c = '-' ∨ isDecimal c) := by
    obtain ⟨c, tail, hdigits, hc⟩ := exists_toDigits_eq_cons i.natAbs
    rw [toList_toString_int, hdigits]
    split
    · exact ⟨'-', c :: tail, rfl, .inl rfl⟩
    · exact ⟨c, tail, rfl, .inr hc⟩
  obtain ⟨position', h'⟩ := scalar?_int h hrest position
  rw [prettyAt] at hn ⊢
  rw [htext] at hn h' ⊢
  obtain ⟨n, rfl⟩ : ∃ m, n = m + 1 := ⟨n - 1, by simp at hn; omega⟩
  refine ⟨position', (value?_of_scalar ?_ _ _ _ _).trans h'⟩
  rcases hc with rfl | hc
  · decide
  · exact ⟨(ne_of_isDecimal hc rfl).symm, (ne_of_isDecimal hc rfl).symm, (ne_of_isDecimal hc rfl).symm⟩

theorem readsBack_string (text : String) : ReadsBack (string text) := by
  intro level n room _ hn rest _ position
  rw [prettyAt] at hn ⊢
  have hlength := length_le_quotedString text
  obtain ⟨n, rfl⟩ : ∃ m, n = m + 1 := ⟨n - 1, by omega⟩
  obtain ⟨position', h'⟩ := string?_quotedString text rest (n := n) (by omega) position
  refine ⟨position', ?_⟩
  have hquote : (quotedString text).toList ++ rest =
      '"' :: (text.toList.flatMap escapedChar ++ ['"'] ++ rest) := by
    rw [quotedString, String.toList_ofList]
    rfl
  rw [hquote] at h' ⊢
  unfold value?
  simp only [h']

/-- Items that are read back one after the other. -/
theorem items?_prettyItems (level : Nat) {n room : Nat} {items : List Json} (hne : items ≠ [])
    (hitems : ∀ j ∈ items, j.Plain ∧ ReadsBack j) (hroom : nestingItems items ≤ room)
    (hn : 2 * (closing level ']' (prettyItems (level + 1) items)).length + 1 ≤ n) (before : List Json)
    (rest : List Char) (position : Nat) : ∃ position',
      items? n room before ⟨closing level ']' (prettyItems (level + 1) items) ++ rest, position⟩ =
        .ok (.array (before.reverse ++ items), ⟨rest, position'⟩) := by
  induction items generalizing n before position with
  | nil => exact absurd rfl hne
  | cons j items ih =>
    obtain ⟨n, rfl⟩ : ∃ m, n = m + 1 := ⟨n - 1, by omega⟩
    have hj := (hitems j List.mem_cons_self).2
    rw [nestingItems] at hroom
    rw [prettyItems] at hn ⊢
    cases items with
    | nil =>
      simp only [prettyItems, closing, List.length_append] at hn ⊢
      obtain ⟨position₁, h₁⟩ := hj (level + 1) (show _ ≤ room by omega) (show _ ≤ n by omega)
        (ends_newLine level (']' :: rest)) position
      obtain ⟨position₂, h₂⟩ := Place.skipBlanks_newLine level (c := ']') rfl rest position₁
      refine ⟨position₂ + 1, ?_⟩
      simp only [List.append_assoc, List.singleton_append]
      rw [items?]
      simp only [h₁, h₂, Place.skip_mk]
      simp
    | cons k items =>
      obtain ⟨c, tail, hk, hc⟩ := exists_prettyAt_eq_cons (level + 1)
        (hitems k (List.mem_cons_of_mem _ List.mem_cons_self)).1
      obtain ⟨tail', hnext⟩ := exists_closing_eq_cons level ']' hk (prettyItems (level + 1) items)
      rw [prettyItems] at hn ⊢
      simp only [closing, List.length_append, List.length_cons] at hn ⊢
      obtain ⟨position₁, h₁⟩ := hj (level + 1) (show _ ≤ room by omega) (show _ ≤ n by omega)
        (ends_comma ((newLine (level + 1)).toList ++ (c :: tail' ++ rest))) position
      obtain ⟨position₂, h₂⟩ := Place.skipBlanks_of_head (c := ',') rfl
        ((newLine (level + 1)).toList ++ (c :: tail' ++ rest)) position₁
      obtain ⟨position₃, h₃⟩ := Place.skipBlanks_newLine (level + 1) hc.1 (tail' ++ rest) (position₂ + 1)
      obtain ⟨position₄, h₄⟩ := ih (n := n) (by simp) (fun j hj => hitems j (List.mem_cons_of_mem _ hj))
        (by omega) (by rw [prettyItems]; omega) (j :: before) position₃
      refine ⟨position₄, ?_⟩
      rw [prettyItems, hnext] at h₄
      simp only [List.append_assoc, List.cons_append, hnext] at h₁ h₂ h₄ ⊢
      rw [items?]
      simp only [h₁, h₂, h₃, h₄, Place.skip_mk, List.drop_succ_cons, List.drop_zero]
      simp

theorem exists_prettyFields_eq_cons (level : Nat) (name : String) (j : Json) :
    ∃ tail, (quotedString name ++ ": " ++ prettyAt level j).toList = '"' :: tail :=
  ⟨_, by rw [String.toList_append, String.toList_append, quotedString, String.toList_ofList]; rfl⟩

/-- **A field is read back** up to its end. -/
theorem fields?_field (level : Nat) {room n : Nat} {name : String} {j : Json} (hplain : j.Plain)
    (hj : ReadsBack j) (hroom : j.nesting ≤ room)
    (hn : 2 * (quotedString name ++ ": " ++ prettyAt level j).toList.length ≤ n)
    {before : List (String × Json)} (hname : name ∉ before.map (·.1)) {rest : List Char} (hrest : Ends rest)
    (position : Nat) : ∃ position',
      fields? (n + 1) room before
          ⟨(quotedString name ++ ": " ++ prettyAt level j).toList ++ rest, position⟩ =
        let p := (⟨rest, position'⟩ : Place).skipBlanks
        match p.rest with
        | '}' :: _ => .ok (.object (before ++ [(name, j)]), p.skip 1)
        | ',' :: _ => fields? n room (before ++ [(name, j)]) (p.skip 1).skipBlanks
        | _ => p.fault .comma := by
  have hlength := length_le_quotedString name
  obtain ⟨c, tail, hvalue, hc⟩ := exists_prettyAt_eq_cons level hplain
  obtain ⟨quoted, hquoted⟩ : ∃ tail, (quotedString name).toList = '"' :: tail :=
    ⟨_, String.toList_ofList⟩
  have htext : (quotedString name ++ ": " ++ prettyAt level j).toList ++ rest =
      (quotedString name).toList ++ (':' :: ' ' :: ((prettyAt level j).toList ++ rest)) := by
    simp [String.toList_append]
  simp only [String.toList_append, List.length_append] at hn
  obtain ⟨position₁, h₁⟩ := string?_quotedString name (':' :: ' ' :: ((prettyAt level j).toList ++ rest))
    (show _ < n by omega) position
  obtain ⟨position₂, h₂⟩ := Place.skipBlanks_of_head (c := ':') rfl
    (' ' :: ((prettyAt level j).toList ++ rest)) position₁
  obtain ⟨position₃, h₃⟩ := Place.skipBlanks_space hc.1 (tail ++ rest) (position₂ + 1)
  rw [← List.cons_append, ← hvalue] at h₃
  obtain ⟨position₄, h₄⟩ := hj level hroom (show _ ≤ n by omega) hrest position₃
  refine ⟨position₄, ?_⟩
  rw [htext]
  rw [hquoted] at h₁ ⊢
  simp only [List.cons_append] at h₁ ⊢
  have hread := fields?.eq_def (n + 1) room before
    ⟨'"' :: (quoted ++ ':' :: ' ' :: ((prettyAt level j).toList ++ rest)), position⟩
  simp only [h₁, h₂, h₃, h₄, Place.skip_mk, List.drop_succ_cons, List.drop_zero,
    put_of_not_mem hname] at hread
  exact hread

theorem fields?_prettyFields (level : Nat) {n room : Nat} {fields : List (String × Json)}
    (hne : fields ≠ []) (hfields : ∀ field ∈ fields, field.2.Plain ∧ ReadsBack field.2)
    (hroom : nestingFields fields ≤ room)
    (hn : 2 * (closing level '}' (prettyFields (level + 1) fields)).length + 1 ≤ n)
    (before : List (String × Json)) (hnames : ((before ++ fields).map (·.1)).Nodup) (rest : List Char)
    (position : Nat) : ∃ position',
      fields? n room before ⟨closing level '}' (prettyFields (level + 1) fields) ++ rest, position⟩ =
        .ok (.object (before ++ fields), ⟨rest, position'⟩) := by
  induction fields generalizing n before position with
  | nil => exact absurd rfl hne
  | cons field fields ih =>
    obtain ⟨name, j⟩ := field
    obtain ⟨n, rfl⟩ : ∃ m, n = m + 1 := ⟨n - 1, by omega⟩
    obtain ⟨hplain, hj⟩ : j.Plain ∧ ReadsBack j := hfields (name, j) List.mem_cons_self
    have hname : name ∉ before.map (·.1) := by
      rw [List.map_append, List.nodup_append] at hnames
      exact fun hmem => hnames.2.2 name hmem name (by simp) rfl
    rw [nestingFields] at hroom
    rw [prettyFields] at hn ⊢
    cases fields with
    | nil =>
      simp only [prettyFields, closing, List.length_append] at hn ⊢
      obtain ⟨position₁, h₁⟩ := fields?_field (level + 1) hplain hj (show _ ≤ room by omega)
        (show _ ≤ n by omega)
        hname (ends_newLine level ('}' :: rest)) position
      obtain ⟨position₂, h₂⟩ := Place.skipBlanks_newLine level (c := '}') rfl rest position₁
      refine ⟨position₂ + 1, ?_⟩
      simp only [List.append_assoc, List.singleton_append]
      rw [h₁]
      simp only [h₂, Place.skip_mk]
      simp
    | cons next fields =>
      obtain ⟨tail, htail⟩ := exists_prettyFields_eq_cons (level + 1) next.1 next.2
      obtain ⟨tail', hnext⟩ := exists_closing_eq_cons level '}' htail (prettyFields (level + 1) fields)
      rw [prettyFields] at hn ⊢
      simp only [closing, List.length_append, List.length_cons] at hn ⊢
      obtain ⟨position₁, h₁⟩ := fields?_field (level + 1) hplain hj (show _ ≤ room by omega)
        (show _ ≤ n by omega)
        hname (ends_comma ((newLine (level + 1)).toList ++ ('"' :: tail' ++ rest))) position
      obtain ⟨position₂, h₂⟩ := Place.skipBlanks_of_head (c := ',') rfl
        ((newLine (level + 1)).toList ++ ('"' :: tail' ++ rest)) position₁
      obtain ⟨position₃, h₃⟩ := Place.skipBlanks_newLine (level + 1) (c := '"') rfl (tail' ++ rest)
        (position₂ + 1)
      obtain ⟨position₄, h₄⟩ := ih (n := n) (by simp)
        (fun field hfield => hfields field (List.mem_cons_of_mem _ hfield)) (by omega)
        (by rw [prettyFields]; omega) (before ++ [(name, j)]) (by simpa using hnames) position₃
      refine ⟨position₄, ?_⟩
      rw [prettyFields, hnext] at h₄
      simp only [List.append_assoc, List.cons_append, hnext] at h₁ h₂ h₄ ⊢
      rw [h₁]
      simp only [h₂, h₃, h₄, Place.skip_mk, List.drop_succ_cons, List.drop_zero]
      simp

theorem value?_bracket (level n room : Nat) {c : Char} (h : Starts c) (rest : List Char) (position : Nat) :
    ∃ position', value? (n + 1) (room + 1) ⟨'[' :: ((newLine level).toList ++ c :: rest), position⟩ =
      items? n room [] ⟨c :: rest, position'⟩ := by
  obtain ⟨position', h'⟩ := Place.skipBlanks_newLine level h.1 rest (position + 1)
  refine ⟨position', ?_⟩
  unfold value?
  simp only [Place.skip_mk, List.drop_succ_cons, List.drop_zero, h']
  split
  · next heq => cases heq; exact absurd rfl h.2.1
  · rfl

theorem value?_brace (level n room : Nat) (rest : List Char) (position : Nat) :
    ∃ position', value? (n + 1) (room + 1) ⟨'{' :: ((newLine level).toList ++ '"' :: rest), position⟩ =
      fields? n room [] ⟨'"' :: rest, position'⟩ := by
  obtain ⟨position', h'⟩ := Place.skipBlanks_newLine level (c := '"') rfl rest (position + 1)
  refine ⟨position', ?_⟩
  unfold value?
  simp only [Place.skip_mk, List.drop_succ_cons, List.drop_zero, h']
  rfl

theorem readsBack_array {items : List Json} (hitems : ∀ j ∈ items, j.Plain ∧ ReadsBack j) :
    ReadsBack (array items) := by
  intro level n room hroom hn rest _ position
  rw [nesting] at hroom
  obtain ⟨room, rfl⟩ : ∃ m, room = m + 1 := ⟨room - 1, by omega⟩
  rw [prettyAt] at hn ⊢
  cases items with
  | nil =>
    obtain ⟨n, rfl⟩ : ∃ m, n = m + 1 := ⟨n - 1, by simp [bracketed, prettyItems] at hn; omega⟩
    obtain ⟨position₁, h₁⟩ := Place.skipBlanks_of_head (c := ']') rfl rest (position + 1)
    refine ⟨position₁ + 1, ?_⟩
    simp only [prettyItems, bracketed, List.isEmpty_nil, if_true]
    unfold value?
    simp [Place.skip_mk, h₁]
  | cons j items =>
    obtain ⟨c, tail, hj, hc⟩ := exists_prettyAt_eq_cons (level + 1) (hitems j List.mem_cons_self).1
    obtain ⟨tail', hfirst⟩ := exists_closing_eq_cons level ']' hj (prettyItems (level + 1) items)
    rw [← prettyItems] at hfirst
    have htext : (bracketed level "[" "]" (prettyItems (level + 1) (j :: items))).toList =
        '[' :: ((newLine (level + 1)).toList ++ closing level ']' (prettyItems (level + 1) (j :: items))) :=
      toList_bracketed level '[' ']' (by rw [prettyItems]; exact List.cons_ne_nil _ _)
    rw [htext, List.length_cons, List.length_append, length_newLine] at hn
    obtain ⟨n, rfl⟩ : ∃ m, n = m + 1 := ⟨n - 1, by omega⟩
    obtain ⟨position₁, h₁⟩ := value?_bracket (level + 1) n room hc (tail' ++ rest) position
    obtain ⟨position₂, h₂⟩ := items?_prettyItems level (n := n) (List.cons_ne_nil j items) hitems
      (Nat.le_of_succ_le_succ hroom) (by omega) [] rest position₁
    refine ⟨position₂, ?_⟩
    rw [hfirst, List.cons_append] at h₂
    rw [htext, hfirst, List.cons_append, List.append_assoc, List.cons_append, h₁, h₂, List.reverse_nil,
      List.nil_append]

theorem readsBack_object {fields : List (String × Json)} (hnames : (fields.map (·.1)).Nodup)
    (hfields : ∀ field ∈ fields, field.2.Plain ∧ ReadsBack field.2) : ReadsBack (object fields) := by
  intro level n room hroom hn rest _ position
  rw [nesting] at hroom
  obtain ⟨room, rfl⟩ : ∃ m, room = m + 1 := ⟨room - 1, by omega⟩
  rw [prettyAt] at hn ⊢
  cases fields with
  | nil =>
    obtain ⟨n, rfl⟩ : ∃ m, n = m + 1 := ⟨n - 1, by simp [bracketed, prettyFields] at hn; omega⟩
    obtain ⟨position₁, h₁⟩ := Place.skipBlanks_of_head (c := '}') rfl rest (position + 1)
    refine ⟨position₁ + 1, ?_⟩
    simp only [prettyFields, bracketed, List.isEmpty_nil, if_true]
    unfold value?
    simp [Place.skip_mk, h₁]
  | cons field fields =>
    obtain ⟨tail, htail⟩ := exists_prettyFields_eq_cons (level + 1) field.1 field.2
    obtain ⟨tail', hfirst⟩ := exists_closing_eq_cons level '}' htail (prettyFields (level + 1) fields)
    rw [← prettyFields] at hfirst
    have htext : (bracketed level "\x7b" "\x7d" (prettyFields (level + 1) (field :: fields))).toList =
        '{' :: ((newLine (level + 1)).toList ++
          closing level '}' (prettyFields (level + 1) (field :: fields))) :=
      toList_bracketed level '{' '}' (by rw [prettyFields]; exact List.cons_ne_nil _ _)
    rw [htext, List.length_cons, List.length_append, length_newLine] at hn
    obtain ⟨n, rfl⟩ : ∃ m, n = m + 1 := ⟨n - 1, by omega⟩
    obtain ⟨position₁, h₁⟩ := value?_brace (level + 1) n room (tail' ++ rest) position
    obtain ⟨position₂, h₂⟩ := fields?_prettyFields level (n := n) (List.cons_ne_nil field fields) hfields
      (Nat.le_of_succ_le_succ hroom) (by omega) [] hnames rest position₁
    refine ⟨position₂, ?_⟩
    rw [hfirst, List.cons_append] at h₂
    rw [htext, hfirst, List.cons_append, List.append_assoc, List.cons_append, h₁, h₂, List.nil_append]

mutual

/-- **Plain values are read back.** -/
theorem readsBack : ∀ {j : Json}, j.Plain → ReadsBack j
  | null, _ => readsBack_null
  | bool b, _ => readsBack_bool b
  | int _, h => readsBack_int (by rwa [Plain] at h)
  | float _, h => by simp only [Plain] at h
  | string text, _ => readsBack_string text
  | array items, h => readsBack_array (readsBack_items (by rwa [Plain] at h))
  | object fields, h => by
    rw [Plain] at h
    exact readsBack_object h.1 (readsBack_fields h.2)

theorem readsBack_items : ∀ {items : List Json}, PlainItems items → ∀ j ∈ items, j.Plain ∧ ReadsBack j
  | [], _ => List.forall_mem_nil _
  | j :: items, h => by
    rw [PlainItems] at h
    exact List.forall_mem_cons.2 ⟨⟨h.1, readsBack h.1⟩, readsBack_items h.2⟩

theorem readsBack_fields : ∀ {fields : List (String × Json)}, PlainFields fields →
    ∀ field ∈ fields, field.2.Plain ∧ ReadsBack field.2
  | [], _ => List.forall_mem_nil _
  | (_, j) :: fields, h => by
    rw [PlainFields] at h
    exact List.forall_mem_cons.2 ⟨⟨h.1, readsBack h.1⟩, readsBack_fields h.2⟩

end

/-! ## Texts -/

/-- **A text is read as the value that it was written for.** -/
theorem read_pretty {j : Json} (hj : j.Plain) (hnesting : j.nesting ≤ nestingLimit) :
    read j.pretty.toList = .ok j := by
  obtain ⟨c, tail, htext, hc⟩ := exists_prettyAt_eq_cons 0 hj
  obtain ⟨position₁, h₁⟩ := Place.skipBlanks_of_head hc.1 tail 0
  obtain ⟨position₂, h₂⟩ := readsBack hj 0 hnesting (show _ ≤ 2 * j.pretty.toList.length + 2 by
    rw [pretty]; omega) (show Ends [] from nofun) position₁
  have hend : (⟨[], position₂⟩ : Place).skipBlanks = ⟨[], position₂⟩ := rfl
  rw [List.append_nil] at h₂
  rw [read, readWithin, pretty, htext, List.head?_cons, if_neg (by simpa using hc.2.2)]
  rw [pretty, htext] at h₂
  simp only [h₁, h₂, hend]
  rfl

/-! ## Line ends -/

theorem not_mem_escapedChar (c : Char) : '\r' ∉ escapedChar c := by
  unfold escapedChar
  split
  next h => rcases h with rfl | rfl <;> decide
  repeat' split
  all_goals try decide
  · next h =>
    have hpadded : ∀ n < 0x20, '\r' ∉ Text.hexPadded 4 n := by decide
    simpa using hpadded c.toNat h
  · next h _ _ _ _ => simpa using Ne.symm h

theorem not_mem_quotedString (text : String) : '\r' ∉ (quotedString text).toList := by
  simp [quotedString, not_mem_escapedChar]

theorem not_mem_newLine (level : Nat) : '\r' ∉ (newLine level).toList := by
  simp [newLine]

theorem not_mem_closing (level : Nat) {right : Char} (hright : right ≠ '\r') {parts : List String}
    (h : ∀ part ∈ parts, '\r' ∉ part.toList) : '\r' ∉ closing level right parts := by
  induction parts with
  | nil => exact List.not_mem_nil
  | cons part parts ih =>
    have hpart := h part List.mem_cons_self
    have hrest := ih fun part hmem => h part (List.mem_cons_of_mem _ hmem)
    cases parts with
    | nil => simp [closing, hpart, not_mem_newLine, hright.symm]
    | cons next parts => simp [closing, hpart, not_mem_newLine, hrest]

theorem not_mem_bracketed (level : Nat) (left right : Char) {parts : List String} (hleft : left ≠ '\r')
    (hright : right ≠ '\r') (h : ∀ part ∈ parts, '\r' ∉ part.toList) :
    '\r' ∉ (bracketed level (String.singleton left) (String.singleton right) parts).toList := by
  by_cases hparts : parts = []
  · subst hparts
    simp [bracketed, hleft.symm, hright.symm]
  · rw [toList_bracketed level left right hparts]
    simp [hleft.symm, not_mem_newLine, not_mem_closing level hright h]

mutual

/-- The text of a value has line feeds for line ends. -/
theorem not_mem_prettyAt (level : Nat) : ∀ {j : Json}, j.Plain → '\r' ∉ (prettyAt level j).toList
  | null, _ => by simp [prettyAt]
  | bool b, _ => by cases b <;> simp [prettyAt]
  | int n, _ => by
    rw [prettyAt, toList_toString_int, List.mem_append]
    rintro (h | h)
    · split at h <;> simp at h
    · exact absurd (isDecimal_of_mem_toDigits h) (by decide)
  | float _, h => by simp only [Plain] at h
  | string text, _ => by
    rw [prettyAt]
    exact not_mem_quotedString text
  | array items, h => by
    rw [Plain] at h
    rw [prettyAt]
    exact not_mem_bracketed level '[' ']' (by decide) (by decide) (not_mem_prettyItems (level + 1) h)
  | object fields, h => by
    rw [Plain] at h
    rw [prettyAt]
    exact not_mem_bracketed level '{' '}' (by decide) (by decide) (not_mem_prettyFields (level + 1) h.2)

theorem not_mem_prettyItems (level : Nat) : ∀ {items : List Json}, PlainItems items →
    ∀ part ∈ prettyItems level items, '\r' ∉ part.toList
  | [], _ => by simp [prettyItems]
  | j :: items, h => by
    rw [PlainItems] at h
    rw [prettyItems]
    exact List.forall_mem_cons.2 ⟨not_mem_prettyAt level h.1, not_mem_prettyItems level h.2⟩

theorem not_mem_prettyFields (level : Nat) : ∀ {fields : List (String × Json)}, PlainFields fields →
    ∀ part ∈ prettyFields level fields, '\r' ∉ part.toList
  | [], _ => by simp [prettyFields]
  | (name, j) :: fields, h => by
    rw [PlainFields] at h
    rw [prettyFields]
    refine List.forall_mem_cons.2 ⟨?_, not_mem_prettyFields level h.2⟩
    simp [String.toList_append, not_mem_quotedString, not_mem_prettyAt level h.1]

end

end SepiaLang.Json
