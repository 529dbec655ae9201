import SepiaLang.Token.Cursor

/-!
# Lines and columns

The line of a place in a text is counted by the line feeds before it, and the column from the last of
them. A cursor does not look back: it counts while it moves. The two agree wherever the cursor gets
to, past the end of the text as well.

* `Place`: the line and the column of an offset.
* `Cursor.On`: the cursor stands in a text, with the rest of the text ahead.
* **`Cursor.On.advanceBy`**: it still does after any number of steps.
-/

namespace SepiaLang

/-- The line and the column of an offset in a text. Lines are counted from one. The column is the
distance from the last line feed before the offset; on the first line there is none, and the column
is counted from one. -/
structure Place (text : List Char) (offset : Nat) (line column : Int) : Prop where
  line_eq : line = 1 + (text.take offset).count '\n'
  column_of_break : ∀ k < offset, text[k]? = some '\n' →
    (∀ j, k < j → j < offset → text[j]? ≠ some '\n') → column = offset - k
  column_of_first_line : (∀ k < offset, text[k]? ≠ some '\n') → column = offset + 1

namespace Place

variable {text : List Char} {offset : Nat} {line column : Int}

theorem start (text : List Char) : Place text 0 1 1 where
  line_eq := by simp
  column_of_break := by simp
  column_of_first_line := by simp

/-- A line feed ends its line. -/
theorem next_of_break (h : Place text offset line column) (hc : text[offset]? = some '\n') :
    Place text (offset + 1) (line + 1) 1 where
  line_eq := by
    rw [h.line_eq, List.take_add_one, List.count_append, hc]
    simp
    omega
  column_of_break := by
    intro k hk _ hlast
    have : ¬ k < offset := fun hlt => hlast offset hlt (by omega) hc
    omega
  column_of_first_line := fun hnone => absurd hc (hnone offset (by omega))

/-- Any other character is followed by the next column. -/
theorem next (h : Place text offset line column) (hc : text[offset]? ≠ some '\n') :
    Place text (offset + 1) line (column + 1) where
  line_eq := by
    have hcount : text[offset]?.toList.count '\n' = 0 := by
      rw [List.count_eq_zero, Option.mem_toList]
      exact hc
    rw [h.line_eq, List.take_add_one, List.count_append, hcount]
    rfl
  column_of_break := by
    intro k hk hbreak hlast
    have hne : k ≠ offset := by
      rintro rfl
      exact hc hbreak
    have := h.column_of_break k (by omega) hbreak fun j hkj hj => hlast j hkj (by omega)
    omega
  column_of_first_line := by
    intro hnone
    have := h.column_of_first_line fun k hk => hnone k (by omega)
    omega

end Place

namespace Cursor

/-- The cursor stands in the text, or past its end. -/
structure On (text : List Char) (c : Cursor) : Prop where
  rest_eq : c.rest = text.drop c.position
  place : Place text c.position c.line c.column

variable {text : List Char} {c : Cursor}

theorem On.start (text : List Char) : (Cursor.start text).On text := ⟨rfl, .start text⟩

theorem On.getElem?_position (h : c.On text) : text[c.position]? = c.rest.head? := by
  rw [h.rest_eq, List.head?_drop]

/-- **One step.** -/
theorem On.advance (h : c.On text) : c.advance.On text := by
  refine ⟨by rw [rest_advance, position_advance, h.rest_eq, List.tail_drop], ?_⟩
  have hhead := h.getElem?_position
  unfold Cursor.advance current
  split
  next hbreak =>
    refine h.place.next_of_break ?_
    rw [hhead]
    cases hrest : c.rest with
    | nil => rw [hrest] at hbreak; exact absurd hbreak (by decide)
    | cons ch tail => rw [hrest] at hbreak; exact congrArg some hbreak
  next hbreak =>
    refine h.place.next fun hc => hbreak ?_
    rw [hhead] at hc
    rw [List.headD_eq_head?_getD, hc]
    rfl

theorem advanceBy_advanceBy (c : Cursor) (m n : Nat) : (c.advanceBy m).advanceBy n = c.advanceBy (m + n) := by
  induction m generalizing c with
  | zero => rw [Nat.zero_add]; rfl
  | succ m ih => rw [Nat.succ_add]; exact ih c.advance

theorem advance_advanceBy (c : Cursor) (n : Nat) : (c.advanceBy n).advance = c.advanceBy (n + 1) :=
  advanceBy_advanceBy c n 1

/-- **Any number of steps.** -/
theorem On.advanceBy (h : c.On text) (n : Nat) : (c.advanceBy n).On text := by
  induction n generalizing c with
  | zero => exact h
  | succ n ih => exact ih h.advance

theorem On.skipGap (h : c.On text) : c.skipGap.On text := h.advanceBy _

/-- As long as something is ahead, the cursor is before the end. -/
theorem On.position_add_length (h : c.On text) (hrest : c.rest ≠ []) :
    c.position + c.rest.length = text.length := by
  rw [h.rest_eq, List.length_drop]
  have : ¬ text.length ≤ c.position := fun hle =>
    hrest (by rw [h.rest_eq, List.drop_eq_nil_of_le hle])
  omega

/-- A cursor past the end leaves as much of the text as one at the end. -/
theorem On.drop_min_position (h : c.On text) : text.drop (min c.position text.length) = c.rest := by
  rw [h.rest_eq]
  rcases Nat.le_total c.position text.length with hle | hle
  · rw [Nat.min_eq_left hle]
  · rw [Nat.min_eq_right hle, List.drop_length, List.drop_eq_nil_of_le hle]

theorem On.min_position_add_length (h : c.On text) :
    min c.position text.length + c.rest.length = text.length := by
  rw [h.rest_eq, List.length_drop]
  omega

end Cursor

end SepiaLang
