import SepiaLang.Parse.State

/-!
# The window on the tokens

How far a reader has come in the list of tokens. A token of the kind `eof` ends the list, wherever it
stands, and the window never runs dry: after the last token it is filled up with `eof`.

* `upToEnd`: the tokens before the first `eof`.
* `State.coming`: the tokens that the window has yet to reach.
* `State.Padded`: the window is filled up with `eof`.
* `Moves`: the tokens over which the window has moved from one state to another.
* **`Moves.coming_eq`**: as long as no `eof` is among them, they are the next ones of the list.
-/

namespace SepiaLang.Parse

/-- The tokens before the first `eof`. -/
def upToEnd (tokens : List Token) : List Token := tokens.takeWhile fun t => !decide (t.kind = .eof)

theorem upToEnd_cons_of_eof {t : Token} (h : t.kind = .eof) (ts : List Token) :
    upToEnd (t :: ts) = [] := by
  simp [upToEnd, h]

theorem upToEnd_cons {t : Token} (h : t.kind ≠ .eof) (ts : List Token) :
    upToEnd (t :: ts) = t :: upToEnd ts := by
  simp [upToEnd, h]

/-- Where `eof` is the last token at most, the tokens before it are all the others. -/
theorem upToEnd_eq_filter : ∀ {ts : List Token}, (∀ t ∈ ts.dropLast, t.kind ≠ .eof) →
    upToEnd ts = ts.filter fun t => !decide (t.kind = .eof)
  | [], _ => rfl
  | [t], _ => by
    by_cases h : t.kind = .eof <;> simp [upToEnd, h]
  | t :: u :: ts, h => by
    have ht : t.kind ≠ .eof := h t (by simp)
    have hrest : ∀ x ∈ (u :: ts).dropLast, x.kind ≠ .eof := fun x hx => h x (by simp [hx])
    rw [upToEnd_cons ht, upToEnd_eq_filter hrest]
    exact (List.filter_cons_of_pos (by simpa using ht)).symm

/-- A list that `eof` ends holds the tokens before it. -/
theorem upToEnd_concat {ts : List Token} {last : Token} (hlast : last.kind = .eof)
    (h : ∀ t ∈ ts, t.kind ≠ .eof) : upToEnd (ts ++ [last]) = ts := by
  rw [upToEnd, List.takeWhile_append_of_pos fun t ht => by simp [h t ht]]
  simp [hlast]

/-! ## States -/

namespace State

/-- After the last token the window is filled up with `eof`. -/
def Padded (s : State) : Prop := s.ending.kind = .eof

/-- The tokens after the current one, up to the end of the list. -/
def coming (s : State) : List Token := upToEnd (s.ahead :: s.rest)

/-- The tokens from the current one on, up to the end of the list. -/
def pending (s : State) : List Token := upToEnd (s.current :: s.ahead :: s.rest)

/-- The part of the state that tells which tokens are read next. -/
def window (s : State) : Token × Token × List Token × Token :=
  (s.current, s.ahead, s.rest, s.ending)

theorem window_consume {s s' : State} (h : s'.window = s.window) :
    s'.consume.window = s.consume.window := by
  obtain ⟨-, ha, hr, he⟩ : _ ∧ s'.ahead = s.ahead ∧ s'.rest = s.rest ∧ s'.ending = s.ending := by
    simpa [window] using h
  unfold consume
  rw [ha, hr, he]
  split <;> rfl

@[simp] theorem current_consume (s : State) : s.consume.current = s.ahead := by
  unfold consume
  split <;> rfl

@[simp] theorem problems_consume (s : State) : s.consume.problems = s.problems := by
  unfold consume
  split <;> rfl

theorem Padded.consume {s : State} (h : s.Padded) : s.consume.Padded := by
  unfold Padded State.consume at *
  split
  · exact h
  · dsimp only
    split
    · assumption
    · exact h

/-- The window moves on to the next token of the list. -/
theorem coming_eq_cons {s : State} (hs : s.Padded) (h : s.ahead.kind ≠ .eof) :
    s.coming = s.ahead :: s.consume.coming := by
  rw [coming, upToEnd_cons h]
  congr 1
  unfold coming State.consume
  rcases s.rest with _ | ⟨t, rest⟩
  · exact (upToEnd_cons_of_eof hs []).symm
  · rfl

theorem coming_eq_nil {s : State} (h : s.ahead.kind = .eof) : s.coming = [] :=
  upToEnd_cons_of_eof h s.rest

theorem pending_eq_cons {s : State} (h : s.current.kind ≠ .eof) :
    s.pending = s.current :: s.coming := upToEnd_cons h _

theorem pending_eq_nil {s : State} (h : s.current.kind = .eof) : s.pending = [] :=
  upToEnd_cons_of_eof h _

/-- Whether or not the list goes on, the window moves on to what is left of it. -/
theorem pending_consume {s : State} (hs : s.Padded) : s.consume.pending = s.coming := by
  by_cases h : s.ahead.kind = .eof
  · rw [coming_eq_nil h, pending_eq_nil (by simpa using h)]
  · rw [coming_eq_cons hs h, pending_eq_cons (by simpa using h), current_consume]

/-- A loop that moves the window in every round has rounds enough. -/
theorem length_coming_lt_budget (s : State) : s.coming.length < s.budget := by
  have h : s.coming.length ≤ (s.ahead :: s.rest).length :=
    List.Sublist.length_le (List.takeWhile_sublist _)
  rw [List.length_cons] at h
  unfold budget
  omega

theorem length_pending_le_budget (s : State) : s.pending.length ≤ s.budget :=
  List.Sublist.length_le (List.takeWhile_sublist _)

theorem padded_start (tokens : List Token) : (start tokens).Padded :=
  have h : State.Padded ⟨⟨.eof, "", 0, 0⟩, ⟨.eof, "", 0, 0⟩, tokens, ⟨.eof, "", 0, 0⟩, #[], 0, #[]⟩ := rfl
  h.consume.consume

theorem problems_start (tokens : List Token) : (start tokens).problems = #[] := by
  simp [start]

/-- At the start the whole list is still to be read. -/
theorem pending_start (tokens : List Token) : (start tokens).pending = upToEnd tokens := by
  rcases tokens with _ | ⟨t, _ | ⟨u, rest⟩⟩
  · rfl
  · change upToEnd [t, if t.kind = .eof then t else ⟨.eof, "", 0, 0⟩] = _
    by_cases h : t.kind = .eof
    · rw [upToEnd_cons_of_eof h, upToEnd_cons_of_eof h]
    · rw [upToEnd_cons h, upToEnd_cons h, if_neg h]
      rfl
  · rfl

@[simp] theorem problems_report (s : State) (p : Problem) :
    (s.report p).problems = s.problems.push p := rfl

end State

/-! ## Moves -/

/-- The window moves over the tokens, from its place in the first state to that in the second one.
What else the states hold does not matter. -/
inductive Moves : State → List Token → State → Prop
  | none {s s' : State} (h : s'.window = s.window) : Moves s [] s'
  | some {s s' : State} {ts : List Token} (h : Moves s.consume ts s') : Moves s (s.ahead :: ts) s'

namespace Moves

theorem refl (s : State) : Moves s [] s := .none rfl

theorem one (s : State) : Moves s [s.ahead] s.consume := .some (.refl _)

theorem of_window {s₀ s s' : State} {ts : List Token} (h : Moves s ts s') (hs : s.window = s₀.window) :
    Moves s₀ ts s' := by
  induction h generalizing s₀ with
  | none h => exact .none (h.trans hs)
  | @some s s' ts h ih =>
    have ha : s.ahead = s₀.ahead := congrArg (·.2.1) hs
    rw [ha]
    exact .some (ih (State.window_consume hs))

theorem trans {s s₁ s₂ : State} {ts us : List Token} (h : Moves s ts s₁) (h' : Moves s₁ us s₂) :
    Moves s (ts ++ us) s₂ := by
  induction h with
  | none h => exact h'.of_window h
  | some _ ih => exact .some (ih h')

theorem enter {s s' : State} {ts : List Token} {phrase : Phrase} (h : Moves (s.enter phrase) ts s') :
    Moves s ts s' := h.of_window rfl

theorem leave {s s' : State} {ts : List Token} (h : Moves s ts s') (phrase : Phrase) :
    Moves s ts (s'.leave phrase) := by
  have := h.trans (.none (rfl : (s'.leave phrase).window = s'.window))
  rwa [List.append_nil] at this

theorem padded {s s' : State} {ts : List Token} (h : Moves s ts s') (hs : s.Padded) : s'.Padded := by
  induction h with
  | @none s s' h =>
    have he : s'.ending = s.ending := congrArg (·.2.2.2) h
    rwa [State.Padded, he]
  | some _ ih => exact ih hs.consume

/-- The window rests on the last token over which it has moved. -/
theorem current_eq {s s' : State} {ts : List Token} (h : Moves s ts s') :
    s'.current = ts.getLastD s.current := by
  induction h with
  | none h => exact congrArg (·.1) h
  | @some s s' ts _ ih =>
    rw [ih, State.current_consume]
    cases ts <;> rfl

/-- **Tokens of the list.** As long as the window moves over no `eof`, it moves over the next tokens
of the list, and leaves the others. -/
theorem coming_eq {s s' : State} {ts : List Token} (h : Moves s ts s') (hs : s.Padded)
    (hts : ∀ t ∈ ts, t.kind ≠ .eof) : s.coming = ts ++ s'.coming := by
  induction h with
  | none h => exact (congrArg (fun w => upToEnd (w.2.1 :: w.2.2.1)) h).symm
  | some _ ih =>
    rw [State.coming_eq_cons hs (hts _ (List.mem_cons_self ..)),
      ih hs.consume fun t ht => hts t (List.mem_cons_of_mem _ ht), List.cons_append]

end Moves

end SepiaLang.Parse
