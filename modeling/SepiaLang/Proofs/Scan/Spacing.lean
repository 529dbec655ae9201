import SepiaLang.Proofs.Parse.Join
import SepiaLang.Proofs.Scan.Chunks

/-!
# Texts with single blanks

The lexemes of a text can be written down with nothing but a blank between them. However close together
they stood, and whatever stood between them, that gives a text with the same tokens.

* `Lexeme.spelled`: how a lexeme is written down by itself.
* `Writes.divided`: a lexeme that is written in some text can be written before a blank.
* `lexes_spaced`: the lexemes of the text with single blanks.
* **`scan_spaced`**: its tokens and its program.
-/

namespace SepiaLang

open Parse

/-- The literal of a lexeme, in quotes if it is a string. -/
def Lexeme.spelled (l : Lexeme) : String := if l.1 = .string then "\"" ++ l.2 ++ "\"" else l.2

/-- The lexemes of a text with a single blank between any two of them. -/
def spaced (source : String) : String :=
  String.intercalate " " (((scan source).dropLast.map Token.bare).map Lexeme.spelled)

theorem divides_blank : Divides ' ' where
  letter := rfl
  digit := rfl
  operator h := by
    unfold compound? at h
    split at h <;> cases h <;> decide

/-! ## One lexeme -/

theorem Lexeme.toList_spelled {kind : Kind} {cs : List Char} (h : kind ≠ .string) :
    (Lexeme.spelled (kind, String.ofList cs)).toList = cs := by
  rw [spelled, if_neg h, String.toList_ofList]

theorem Lexeme.toList_spelled_string (cs : List Char) :
    (Lexeme.spelled (.string, String.ofList cs)).toList = '"' :: cs ++ ['"'] := by
  simp [spelled]

/-- A lexeme that is written in some text can be written before any character that divides. A string is
then closed, also if it was not. -/
theorem Writes.divided {kind : Kind} {literal : String} {written after after' : List Char}
    (h : Writes kind literal written after) (hafter : ∀ c ∈ after'.head?, Divides c) :
    Writes kind literal (Lexeme.spelled (kind, literal)).toList after' := by
  have hstring : Kind.string ∈ Kind.untabled := by decide
  cases h with
  | single hc =>
    rw [Lexeme.toList_spelled (ne_of_mem_of_not_mem hstring (single?_tabled hc)).symm]
    exact .single hc
  | pair hc hd =>
    have htabled := (compound?_tabled hc).2 _ (Assoc.mem_of_lookup hd)
    rw [Lexeme.toList_spelled (ne_of_mem_of_not_mem hstring htabled).symm]
    exact .pair hc hd
  | alone hc =>
    rw [Lexeme.toList_spelled (ne_of_mem_of_not_mem hstring (compound?_tabled hc).1).symm]
    exact .alone hc fun d hd => (hafter d hd).operator hc
  | word hne hcs =>
    have hword := ofWord_not_mem (String.ofList written)
    have hlast : Kind.string ∈ [Kind.eof, .int, .string] := by decide
    rw [Lexeme.toList_spelled (ne_of_mem_of_not_mem hlast hword).symm]
    exact .word hne hcs fun d hd => (hafter d hd).letter
  | number hne hcs =>
    rw [Lexeme.toList_spelled (by decide)]
    exact .number hne hcs fun d hd => (hafter d hd).digit
  | string hcs | openString hcs =>
    rw [Lexeme.toList_spelled_string]
    exact .string hcs
  | illegal hgap hsingle hcompound hquote hletter hdigit =>
    rw [Lexeme.toList_spelled (by decide)]
    exact .illegal hgap hsingle hcompound hquote hletter hdigit

/-! ## All lexemes -/

theorem Lexes.writes {text : List Char} {ls : List Lexeme} (h : Lexes text ls) :
    ∀ l ∈ ls, ∃ written after, Writes l.1 l.2 written after := by
  induction h with
  | nil => exact nofun
  | cons hgap hwrites h ih => exact List.forall_mem_cons.2 ⟨⟨_, _, hwrites⟩, ih⟩

/-- The characters of lexemes, with a blank before each of them. -/
def blankBefore (ls : List Lexeme) : List Char := ls.flatMap fun l => ' ' :: l.spelled.toList

theorem divides_blankBefore (ls : List Lexeme) : ∀ c ∈ (blankBefore ls).head?, Divides c := by
  cases ls with
  | nil => exact nofun
  | cons l ls =>
    rintro c ⟨⟩
    exact divides_blank

theorem lexes_blankBefore : ∀ {ls : List Lexeme}, (∀ l ∈ ls, ∃ written after, Writes l.1 l.2 written after) →
    Lexes (blankBefore ls) ls
  | [], _ => .nil .nil
  | l :: ls, hls => by
    rw [List.forall_mem_cons] at hls
    obtain ⟨⟨written, after, hwrites⟩, hls⟩ := hls
    exact lexes_blank (lexes_of_writes (hwrites.divided (divides_blankBefore ls)) (lexes_blankBefore hls))

/-- **The lexemes of the text with single blanks** are those of the text. -/
theorem lexes_spaced {ls : List Lexeme} (hls : ∀ l ∈ ls, ∃ written after, Writes l.1 l.2 written after) :
    Lexes (String.intercalate " " (ls.map Lexeme.spelled)).toList ls := by
  cases ls with
  | nil => exact .nil .nil
  | cons l ls =>
    rw [List.forall_mem_cons] at hls
    obtain ⟨⟨written, after, hwrites⟩, hls⟩ := hls
    rw [List.map_cons, toList_intercalate_cons, List.flatMap_map]
    exact lexes_of_writes (hwrites.divided (divides_blankBefore ls)) (lexes_blankBefore hls)

/-- **A text written with single blanks has the same tokens**, apart from their places, and is read as the
same program. -/
theorem scan_spaced (source : String) :
    (scan (spaced source)).map Token.bare = (scan source).map Token.bare ∧
      (parseSource (spaced source)).program.strip = (parseSource source).program.strip := by
  obtain ⟨ls, hls⟩ := exists_lexes source.toList
  have hsource := lexes_scan.1 hls
  have hspaced : spaced source = String.intercalate " " (ls.map Lexeme.spelled) := by
    rw [spaced, List.map_dropLast, hsource, List.dropLast_concat]
  have htokens : (scan (spaced source)).map Token.bare = (scan source).map Token.bare := by
    rw [hsource, hspaced]
    exact lexes_scan.1 (lexes_spaced hls.writes)
  exact ⟨htokens, parse_of_bare_eq htokens⟩

/-- Words and numbers without blanks, a comment, and a string that is not closed. -/
example : spaced "end1|| |x#y\n<=\"a#" = "end 1 || | x <= \"a#\"" := by decide +kernel

end SepiaLang
