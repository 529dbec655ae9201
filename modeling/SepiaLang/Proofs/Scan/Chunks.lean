import SepiaLang.Proofs.Scan.Lexes

/-!
# Texts put together

Which lexemes a text has that is put together from others. A word or a number must not be followed by a
letter or a digit, and an operator must not be followed by a character that makes it longer; brackets,
commas and quotes stand where they like.

* `lexes_of_writes`, `lexes_single`, `lexes_blank`: one lexeme or a blank before a text.
* `Loose`, `Halts`: what follows makes no word or number, or no operator, longer.
* `lexes_word`, `lexes_number`, `lexes_string`, `lexes_symbol`: the lexemes of the language.
* `Chunk`: a text that has its lexemes before every loose text. `chunk_intercalate`: lists of them.
  `Chunk.between`, `Chunk.entry`: one between brackets, and two with a colon between them.
-/

namespace SepiaLang

open Parse

variable {after : List Char} {more : List Lexeme}

/-! ## One lexeme before a text -/

theorem lexes_of_writes {kind : Kind} {literal : String} {written : List Char}
    (hwrites : Writes kind literal written after) (h : Lexes after more) :
    Lexes (written ++ after) ((kind, literal) :: more) := .cons .nil hwrites h

theorem lexes_single {c : Char} {kind : Kind} (hc : single? c = some kind) (h : Lexes after more) :
    Lexes (c :: after) ((kind, String.ofList [c]) :: more) := lexes_of_writes (.single hc) h

theorem lexes_blank (h : Lexes after more) : Lexes (' ' :: after) more := by
  cases h with
  | nil hgap => exact .nil (.blank rfl hgap)
  | cons hgap hwrites h => exact .cons (.blank rfl hgap) hwrites h

/-- No word and no number goes on with the text. -/
def Loose (after : List Char) : Prop := ∀ c ∈ after.head?, isLetter c = false ∧ isDigit c = false

theorem loose_cons {c : Char} (h : isLetter c = false ∧ isDigit c = false) (after : List Char) :
    Loose (c :: after) := by
  intro d hd
  cases hd
  exact h

/-- No operator goes on with the text. -/
def Halts (after : List Char) : Prop :=
  ∀ c ∈ after.head?, ∀ d longer alone, compound? d = some (longer, alone) → longer.lookup c = none

/-- The second characters of operators. -/
def seconds : List Char := ['=', '+', '>', '-', '|', '&']

theorem compound?_seconds {d : Char} {longer : List (Char × Kind)} {alone : Kind}
    (h : compound? d = some (longer, alone)) : ∀ p ∈ longer, p.1 ∈ seconds := by
  unfold compound? at h
  split at h <;> cases h <;> decide

theorem halts_cons {c : Char} (h : c ∉ seconds) (after : List Char) : Halts (c :: after) := by
  intro e he d longer alone hd
  cases he
  rw [List.lookup_eq_none_iff]
  intro p hp
  refine bne_iff_ne.2 ?_
  rintro rfl
  exact h (compound?_seconds hd p hp)

/-! ## Words, numbers, strings and operators -/

/-- Only letters, and at least one of them. -/
def isWord (text : String) : Bool := !text.toList.isEmpty && text.toList.all isLetter

theorem lexes_word {text : String} (htext : isWord text = true) (hafter : Loose after)
    (h : Lexes after more) : Lexes (text.toList ++ after) ((.ofWord text, text) :: more) := by
  simp only [isWord, Bool.and_eq_true, Bool.not_eq_true', List.isEmpty_eq_false_iff, List.all_eq_true]
    at htext
  have hword := lexes_of_writes (.word htext.1 htext.2 fun d hd => (hafter d hd).1) h
  rwa [String.ofList_toList] at hword

theorem isDigit_of_mem_toDigits {n : Nat} {c : Char} (h : c ∈ Nat.toDigits 10 n) : isDigit c = true := by
  have hdigit : c.isDigit = true := Nat.isDigit_of_mem_toDigits (by decide) (by decide) h
  simpa [Char.isDigit, isDigit, Char.le_def, UInt32.le_iff_toNat_le] using hdigit

theorem lexes_number (n : Nat) (hafter : Loose after) (h : Lexes after more) :
    Lexes ((toString (n : Int)).toList ++ after) ((.int, toString (n : Int)) :: more) := by
  have hlist : (toString (n : Int)).toList = Nat.toDigits 10 n := Nat.toList_repr
  have hwrites : Writes .int (String.ofList (Nat.toDigits 10 n)) (Nat.toDigits 10 n) after :=
    .number Nat.toDigits_ne_nil (fun c hc => isDigit_of_mem_toDigits hc) fun d hd => (hafter d hd).2
  have hnumber := lexes_of_writes hwrites h
  rwa [← hlist, String.ofList_toList] at hnumber

theorem lexes_string {text : String} (htext : '"' ∉ text.toList) (h : Lexes after more) :
    Lexes ('"' :: (text.toList ++ '"' :: after)) ((.string, text) :: more) := by
  have hstring := lexes_of_writes (.string htext) h
  rw [String.ofList_toList] at hstring
  simpa using hstring

/-- The text is an operator of the kind that is no word. -/
def isSymbol (op : String) (kind : Kind) : Bool :=
  match op.toList with
  | [c] => (compound? c).map Prod.snd == some kind
  | [c, d] => (compound? c).bind (fun table => table.1.lookup d) == some kind
  | _ => false

theorem lexes_symbol {op : String} {kind : Kind} (hop : isSymbol op kind = true) (hafter : Halts after)
    (h : Lexes after more) : Lexes (op.toList ++ after) ((kind, op) :: more) := by
  have hliteral : op = String.ofList op.toList := String.ofList_toList.symm
  unfold isSymbol at hop
  split at hop
  next c hchars =>
    obtain ⟨⟨longer, alone⟩, hc, rfl⟩ := Option.map_eq_some_iff.1 (eq_of_beq hop)
    rw [hliteral, hchars, String.toList_ofList]
    exact lexes_of_writes (.alone hc fun d hd => hafter d hd c longer alone hc) h
  next c d hchars =>
    obtain ⟨⟨longer, alone⟩, hc, hd⟩ := Option.bind_eq_some_iff.1 (eq_of_beq hop)
    rw [hliteral, hchars, String.toList_ofList]
    exact lexes_of_writes (.pair hc hd) h
  next => cases hop

/-- No operator goes on with a letter or a digit. -/
theorem not_mem_seconds {c : Char} (h : isLetter c = true ∨ isDigit c = true) : c ∉ seconds := by
  intro hc
  simp only [seconds, List.mem_cons, List.not_mem_nil, or_false] at hc
  rcases hc with rfl | rfl | rfl | rfl | rfl | rfl <;> exact absurd h (by decide)

theorem halts_word {text : String} (htext : isWord text = true) (after : List Char) :
    Halts (text.toList ++ after) := by
  simp only [isWord, Bool.and_eq_true, Bool.not_eq_true', List.isEmpty_eq_false_iff, List.all_eq_true]
    at htext
  obtain ⟨c, cs, hcs⟩ := List.exists_cons_of_ne_nil htext.1
  have hletter : isLetter c = true := htext.2 c (by rw [hcs]; exact List.mem_cons_self)
  rw [hcs]
  exact halts_cons (not_mem_seconds (.inl hletter)) _

theorem halts_number (n : Nat) (after : List Char) : Halts ((toString (n : Int)).toList ++ after) := by
  have hlist : (toString (n : Int)).toList = Nat.toDigits 10 n := Nat.toList_repr
  obtain ⟨c, cs, hcs⟩ := List.exists_cons_of_ne_nil (Nat.toDigits_ne_nil (n := n) (b := 10))
  have hdigit : isDigit c = true := isDigit_of_mem_toDigits (by rw [hcs]; exact List.mem_cons_self)
  rw [hlist, hcs]
  exact halts_cons (not_mem_seconds (.inr hdigit)) _

/-! ## Texts before others -/

/-- Before a loose text the text has the given lexemes. -/
def Chunk (text : String) (ls : List Lexeme) : Prop :=
  ∀ (after : List Char) (more : List Lexeme), Loose after → Lexes after more →
    Lexes (text.toList ++ after) (ls ++ more)

theorem toList_intercalate_cons (sep text : String) (texts : List String) :
    (sep.intercalate (text :: texts)).toList = text.toList ++ texts.flatMap fun t => sep.toList ++ t.toList := by
  rw [String.toList_intercalate]
  induction texts generalizing text with
  | nil => simp [List.intercalate]
  | cons next texts ih =>
    have hsplit : sep.toList.intercalate ((text :: next :: texts).map String.toList) =
        text.toList ++ (sep.toList ++ sep.toList.intercalate ((next :: texts).map String.toList)) := by
      simp [List.intercalate]
    rw [hsplit, ih]
    simp

/-- The characters of the texts after the first one in a list. -/
def furtherChars (texts : List String) : List Char := texts.flatMap fun text => ',' :: ' ' :: text.toList

theorem loose_furtherChars (hafter : Loose after) (texts : List String) :
    Loose (furtherChars texts ++ after) := by
  cases texts with
  | nil => exact hafter
  | cons text texts => exact loose_cons (by decide) _

theorem lexes_furtherChars {ps : List (String × List Lexeme)} (hps : ∀ p ∈ ps, Chunk p.1 p.2)
    (hafter : Loose after) (h : Lexes after more) :
    Lexes (furtherChars (ps.map Prod.fst) ++ after) (further (ps.map Prod.snd) ++ more) := by
  induction ps with
  | nil => exact h
  | cons p ps ih =>
    rw [List.forall_mem_cons] at hps
    have hrest := hps.1 _ _ (loose_furtherChars hafter _) (ih hps.2)
    have hcomma := lexes_single (show single? ',' = some .comma from rfl) (lexes_blank hrest)
    simpa [furtherChars, further] using hcomma

/-- **Texts with commas between them.** -/
theorem chunk_intercalate {ps : List (String × List Lexeme)} (hps : ∀ p ∈ ps, Chunk p.1 p.2) :
    Chunk (String.intercalate ", " (ps.map Prod.fst)) (joined (ps.map Prod.snd)) := by
  intro after more hafter h
  cases ps with
  | nil => exact h
  | cons p ps =>
    rw [List.forall_mem_cons] at hps
    rw [List.map_cons, List.map_cons, toList_intercalate_cons, joined, List.append_assoc, List.append_assoc]
    exact hps.1 _ _ (loose_furtherChars hafter _) (lexes_furtherChars hps.2 hafter h)

/-- A text between brackets. -/
theorem Chunk.between {text : String} {ls : List Lexeme} (h : Chunk text ls) {c d : Char} {left right : Kind}
    (hc : single? c = some left) (hd : single? d = some right) :
    Chunk (String.ofList [c] ++ text ++ String.ofList [d])
      ((left, String.ofList [c]) :: (ls ++ [(right, String.ofList [d])])) := by
  intro after more _ hmore
  have hloose : isLetter d = false ∧ isDigit d = false := by
    constructor <;> by_contra hne
    · rw [single?_eq_none (.inl (by simpa using hne))] at hd
      cases hd
    · rw [single?_eq_none (.inr (by simpa using hne))] at hd
      cases hd
  have hinner := h _ _ (loose_cons hloose after) (lexes_single hd hmore)
  simpa using lexes_single hc hinner

/-- A key and a value with a colon between them. -/
theorem Chunk.entry {key value : String} {ks vs : List Lexeme} (hk : Chunk key ks) (hv : Chunk value vs) :
    Chunk (key ++ ": " ++ value) (ks ++ (.colon, ":") :: vs) := by
  intro after more hafter hmore
  have hvalue := lexes_blank (hv _ _ hafter hmore)
  have hcolon := lexes_single (show single? ':' = some .colon from rfl) hvalue
  simpa using hk _ _ (loose_cons (by decide) _) hcolon

/-! ## Whole texts -/

/-- The tokens of a text, up to the end, are its lexemes. -/
theorem upToEnd_scan {source : String} {ls : List Lexeme} (h : Lexes source.toList ls) :
    (upToEnd (scan source)).map Token.bare = ls := by
  obtain ⟨before, last, hscan, hlast, hbefore⟩ := exists_scan_eq source
  have hall := lexes_scan.1 h
  rw [hscan, List.map_append, List.map_singleton] at hall
  rw [hscan, upToEnd_concat hlast hbefore]
  exact (List.append_inj' hall rfl).1

end SepiaLang
