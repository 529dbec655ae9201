import SepiaLang.Proofs.Parse.Join

/-!
# Comments leave no trace

A comment goes from `#` to the end of its line. What is written in it is not looked at, so a text with
a comment at the end of a line has the tokens of the text without it, in other places, and is read as the
same program. The one exception is `nul`, which stands for the end of a text: inside a text it ends a
comment before the line does.

* `Gap.append_comment`, `Lexes.append_comment`: a comment after a gap, and after a text.
* `Lexes.kind_ne_string`: without quotes there are no strings.
* **`comments_invisible`**: the tokens and the program of a text with a comment.
-/

namespace SepiaLang

open Parse

theorem divides_hash : Divides '#' where
  letter := rfl
  digit := rfl
  operator h := by
    unfold compound? at h
    split at h <;> cases h <;> decide

/-! ## A comment after a text -/

/-- A comment after a gap makes it longer. If the gap ends in a comment, that one goes on. -/
theorem Gap.append_comment {gap gap' body after : List Char} (h : Gap [] gap) (h' : Gap after gap')
    (hbody : ∀ c ∈ body, inComment c = true) (hend : ∀ c ∈ (gap' ++ after).head?, inComment c = false) :
    Gap after (gap ++ '#' :: (body ++ gap')) := by
  induction h with
  | nil => exact .comment hbody hend h'
  | blank hc h ih => exact .blank hc ih
  | @comment body₀ rest hbody₀ hend₀ h ih =>
    cases rest with
    | nil =>
      have hboth : ∀ c ∈ body₀ ++ '#' :: body, inComment c = true := by
        simp only [List.mem_append, List.mem_cons]
        rintro c (hc | rfl | hc)
        · exact hbody₀ c hc
        · rfl
        · exact hbody c hc
      simpa using Gap.comment hboth hend h'
    | cons c rest =>
      rw [List.append_assoc]
      refine .comment hbody₀ ?_ ih
      simpa using hend₀

/-- **A comment after a text** and before another one: the lexemes are those of both. -/
theorem Lexes.append_comment {text text' body : List Char} {ls ls' : List Lexeme} (h : Lexes text ls)
    (hlast : ∀ l ∈ ls, l.1 ≠ .string) (hbody : ∀ c ∈ body, inComment c = true)
    (hend : ∀ c ∈ text'.head?, inComment c = false) (h' : Lexes text' ls') :
    Lexes (text ++ '#' :: (body ++ text')) (ls ++ ls') := by
  induction h with
  | nil hgap =>
    cases h' with
    | nil hgap' => exact .nil (hgap.append_comment hgap' hbody (by rwa [List.append_nil]))
    | cons hgap' hwrites h' =>
      have hlong := Lexes.cons (hgap.append_comment hgap' hbody hend) hwrites h'
      simpa using hlong
  | @cons gap written after kind literal ls hgap hwrites h ih =>
    rw [List.forall_mem_cons] at hlast
    have hgap' : Gap (written ++ (after ++ '#' :: (body ++ text'))) gap := by
      refine hgap.congr ?_
      obtain ⟨c, tail, rfl, -⟩ := hwrites.exists_solid
      rfl
    rw [List.append_assoc, List.append_assoc]
    exact .cons hgap' (hwrites.append_cons (fun _ => hlast.1) divides_hash _) (ih hlast.2)

/-! ## Texts without quotes -/

theorem Writes.quote_mem {literal : String} {written after : List Char}
    (h : Writes .string literal written after) : '"' ∈ written := by
  generalize hkind : Kind.string = kind at h
  have hstring : Kind.string ∈ Kind.untabled := by decide
  cases h with
  | single hc => exact absurd (hkind ▸ hstring) (single?_tabled hc)
  | pair hc hd => exact absurd (hkind ▸ hstring) ((compound?_tabled hc).2 _ (Assoc.mem_of_lookup hd))
  | alone hc => exact absurd (hkind ▸ hstring) (compound?_tabled hc).1
  | word => exact absurd (hkind ▸ (by decide)) (ofWord_not_mem (String.ofList written))
  | number | illegal => cases hkind
  | string | openString => exact List.mem_cons_self

theorem Lexes.kind_ne_string {text : List Char} {ls : List Lexeme} (h : Lexes text ls) (htext : '"' ∉ text) :
    ∀ l ∈ ls, l.1 ≠ .string := by
  induction h with
  | nil => exact nofun
  | cons hgap hwrites h ih =>
    simp only [List.mem_append, not_or] at htext
    refine List.forall_mem_cons.2 ⟨?_, ih htext.2.2⟩
    rintro rfl
    exact htext.2.1 hwrites.quote_mem

/-! ## Comments at the end of a line -/

theorem inComment_of_mem {body : List Char} (hline : '\n' ∉ body) (hnul : nul ∉ body) :
    ∀ c ∈ body, inComment c = true := by
  intro c hc
  rw [inComment, Bool.and_eq_true, bne_iff_ne, bne_iff_ne]
  exact ⟨fun h => hline (h ▸ hc), fun h => hnul (h ▸ hc)⟩

/-- A comment before a text is as good as a line break. -/
theorem bare_scan_comment {before body after rest : String} {ls : List Lexeme} (hbefore : '"' ∉ before.toList)
    (hbody : ∀ c ∈ body.toList, inComment c = true) (hend : ∀ c ∈ after.toList.head?, inComment c = false)
    (hafter : Lexes after.toList ls) (hrest : Lexes rest.toList ls) :
    (scan (before ++ "#" ++ body ++ after)).map Token.bare = (scan (before ++ "\n" ++ rest)).map Token.bare := by
  obtain ⟨ks, hks⟩ := exists_lexes before.toList
  have hstring := hks.kind_ne_string hbefore
  have hcomment : Lexes (before ++ "#" ++ body ++ after).toList (ks ++ ls) := by
    simpa using hks.append_comment hstring hbody hend hafter
  have hline : Lexes (before ++ "\n" ++ rest).toList (ks ++ ls) := by
    simpa using hks.append_line (fun l hl => hstring l (List.mem_of_getLast? hl)) hrest
  rw [lexes_scan.1 hcomment, lexes_scan.1 hline]

/-- **Comments leave no trace.** Let a text be cut off where no quote stands before, and go on after the
end of the line. If a comment without `nul` is put in there, the text has the same tokens, apart from their
places, and is read as the same program. A comment with `nul` is cut off there: the tokens are those of the
text with a line break in the place of the comment up to `nul`. -/
theorem comments_invisible {before comment : String} (after : String) (hbefore : '"' ∉ before.toList)
    (hline : '\n' ∉ comment.toList) :
    (nul ∉ comment.toList →
      (scan (before ++ "#" ++ comment ++ "\n" ++ after)).map Token.bare =
          (scan (before ++ "\n" ++ after)).map Token.bare ∧
        (parseSource (before ++ "#" ++ comment ++ "\n" ++ after)).program.strip =
          (parseSource (before ++ "\n" ++ after)).program.strip) ∧
    ∀ body more : String, comment = body ++ String.singleton nul ++ more → nul ∉ body.toList →
      (scan (before ++ "#" ++ comment ++ "\n" ++ after)).map Token.bare =
        (scan (before ++ "\n" ++ (String.singleton nul ++ more ++ "\n" ++ after))).map Token.bare := by
  constructor
  · intro hnul
    obtain ⟨ls, hls⟩ := exists_lexes after.toList
    have hbreak : Lexes ("\n" ++ after).toList ls := by
      simpa using Lexes.append_line (.nil .nil) nofun hls
    have htokens := bare_scan_comment hbefore (inComment_of_mem hline hnul) (by simp [inComment]) hbreak hls
    rw [← String.append_assoc] at htokens
    exact ⟨htokens, parse_of_bare_eq htokens⟩
  · rintro body more rfl hnul
    have hbody : '\n' ∉ body.toList := by
      simp only [String.toList_append, List.mem_append, not_or] at hline
      exact hline.1.1
    obtain ⟨ls, hls⟩ := exists_lexes (String.singleton nul ++ more ++ "\n" ++ after).toList
    have htokens := bare_scan_comment hbefore (inComment_of_mem hbody hnul) (by simp [inComment]) hls hls
    simpa only [String.append_assoc] using htokens

/-- The comment `# "twice" # -> end` after `x`. -/
theorem comments_invisible_quoted :
    let text := "x" ++ "#" ++ " \"twice\" # -> end" ++ "\n" ++ "+ y"
    (scan text).map Token.bare = (scan ("x" ++ "\n" ++ "+ y")).map Token.bare ∧
      (parseSource text).program.strip = (parseSource ("x" ++ "\n" ++ "+ y")).program.strip := by
  intro text
  have hbefore : '"' ∉ "x".toList := by decide
  have hline : '\n' ∉ " \"twice\" # -> end".toList := by decide
  have hnul : nul ∉ " \"twice\" # -> end".toList := by decide
  exact (comments_invisible "+ y" hbefore hline).1 hnul

/-- What stands after `nul` in a comment is not skipped. -/
theorem comment_with_nul_visible :
    ¬ ∀ before comment after : String, '"' ∉ before.toList → '#' ∉ before.toList → '\n' ∉ comment.toList →
      (scan (before ++ "#" ++ comment ++ "\n" ++ after)).map Token.bare =
        (scan (before ++ "\n" ++ after)).map Token.bare := by
  intro h
  exact absurd (h "" "\x00x" "y" (by decide) (by decide) (by decide)) (by decide +kernel)

end SepiaLang
