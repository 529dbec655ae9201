import SepiaLang.Proofs.Parse.Related

/-!
# Programs that are nested too deeply

A program is read under two limits on how deeply expressions are nested. The smaller one changes
nothing, or it stops reading in the middle of a statement. Then what is finished stays: the statements
before that one, and the problems that were found up to there, with one problem more that tells of the
nesting.

* `Outlasts`: the second reader does the same as the first one, unless the first one is stopped by the
  limit (`outlasts_expression`).
* `Finishes`: statements that a program has finished at some point of the list.
* **`program_of_limit_le`**: programs under two limits.
-/

namespace SepiaLang.Parse

open SepiaLang.Computation

variable {α β : Type}

/-- The problems of the first state are the first ones of the second state. -/
def State.KeptBy (s s' : State) : Prop := s.problems.toList <+: s'.problems.toList

namespace State.KeptBy

variable {s s' : State}

theorem refl (s : State) : s.KeptBy s := List.prefix_refl _

theorem trans {s'' : State} (h : s.KeptBy s') (h' : s'.KeptBy s'') : s.KeptBy s'' :=
  List.IsPrefix.trans h h'

theorem consume (h : s.KeptBy s') : s.KeptBy s'.consume := by
  rwa [KeptBy, State.problems_consume]

theorem report (h : s.KeptBy s') (p : Problem) : s.KeptBy (s'.report p) := by
  refine h.trans ?_
  rw [KeptBy, State.problems_report, Array.toList_push]
  exact List.prefix_append _ _

theorem of_consume (h : s.consume.KeptBy s') : s.KeptBy s' := by
  rwa [KeptBy, State.problems_consume] at h

end State.KeptBy

theorem kept_bind {r : Reader α} {f : α → Reader β} (hr : ∀ s : State, s.KeptBy (r s).2)
    (hf : ∀ (a : α) (s : State), s.KeptBy (f a s).2) (s : State) : s.KeptBy ((r >>= f) s).2 := by
  have h := hr s
  rw [bind_apply]
  rcases hx : r s with ⟨e | a, s₁⟩ <;> rw [hx] at h
  · exact h
  · exact h.trans (hf a s₁)

/-! ## Readers under two limits -/

/-- From the state `s` the first reader was stopped by the limit, with problems that the second one
has as well. -/
def Stopped (s : State) (o o' : Except Halt α × State) : Prop :=
  o.1 = .error .tooDeep ∧ s.KeptBy o.2 ∧ o.2.KeptBy o'.2

/-- The second reader does the same as the first one, unless that one is stopped by the limit, and
never forgets a problem. -/
structure Outlasts (r r' : Reader α) : Prop where
  near : ∀ s : State, r s = r' s ∨ Stopped s (r s) (r' s)
  kept : ∀ s : State, s.KeptBy (r' s).2

namespace Outlasts

theorem refl {r : Reader α} (h : ∀ s : State, s.KeptBy (r s).2) : Outlasts r r := ⟨fun _ => .inl rfl, h⟩

theorem pure (a : α) : Outlasts (Pure.pure a : Reader α) (Pure.pure a) := refl fun s => .refl s

theorem throw (h : Halt) : Outlasts (throw h : Reader α) (throw h) := refl fun s => .refl s

/-- **One reader after the other.** -/
theorem bind {r r' : Reader α} {f f' : α → Reader β} (hr : Outlasts r r') (hf : ∀ a, Outlasts (f a) (f' a)) :
    Outlasts (r >>= f) (r' >>= f') where
  kept := kept_bind hr.kept fun a => (hf a).kept
  near s := by
    rw [bind_apply, bind_apply]
    rcases hr.near s with h | ⟨hstop, hkept, hproblems⟩
    · have hkept := hr.kept s
      rw [h]
      rcases hx : r' s with ⟨e | a, s₁⟩ <;> rw [hx] at hkept
      · exact .inl rfl
      · exact ((hf a).near s₁).imp id fun h => ⟨h.1, hkept.trans h.2.1, h.2.2⟩
    · obtain ⟨s₁, hs₁⟩ : ∃ s₁, r s = (.error .tooDeep, s₁) := ⟨(r s).2, Prod.ext hstop rfl⟩
      rw [hs₁] at hkept hproblems ⊢
      refine .inr ⟨rfl, hkept, ?_⟩
      rcases hx : r' s with ⟨e | a, s₂⟩ <;> rw [hx] at hproblems
      · exact hproblems
      · exact hproblems.trans ((hf a).kept s₂)

theorem traced (phrase : Phrase) {r r' : Reader α} (h : Outlasts r r') :
    Outlasts (Parse.traced phrase r) (Parse.traced phrase r') where
  kept s := h.kept (s.enter phrase)
  near s := by
    rcases h.near (s.enter phrase) with h | h
    · exact .inl (congrArg (fun o : Except Halt α × State => (o.1, o.2.leave phrase)) h)
    · exact .inr h

theorem attempt {r r' : Reader α} (h : Outlasts r r') : Outlasts (Parse.attempt r) (Parse.attempt r') where
  kept s := by
    rw [Echo.attempt_apply]
    exact h.kept s
  near s := by
    rw [Echo.attempt_apply, Echo.attempt_apply]
    rcases h.near s with h | h
    · exact .inl (by rw [h])
    · exact .inr ⟨congrArg Echo.settled h.1, h.2⟩

end Outlasts

theorem compatible_outlasts : Compatible fun _ => Outlasts where
  pure := .pure
  bind := .bind
  current := .refl .refl
  ahead := .refl .refl
  consume := .refl fun s => (State.KeptBy.refl s).consume
  report p := .refl fun s => (State.KeptBy.refl s).report p
  reject p := .refl fun s => (State.KeptBy.refl s).report p
  budget _ _ h := ⟨fun s => (h s.budget).near s, fun s => (h s.budget).kept s⟩
  traced := .traced
  attempt := .attempt
  regardless make hr ha := by
    refine .bind hr.attempt fun found => .bind ha fun _ => ?_
    cases found with
    | some a => exact .pure _
    | none => exact .throw _

theorem outlasts_itself (depth : Nat) :
    Sub.Related (fun _ => Outlasts) (expression depth) (expression depth) :=
  related_itself compatible_outlasts (.throw _) depth

/-- **Expressions under two limits.** -/
theorem outlasts_expression {few many : Nat} (h : few ≤ many) :
    Sub.Related (fun _ => Outlasts) (expression few) (expression many) := by
  obtain ⟨more, rfl⟩ := Nat.exists_eq_add_of_le' h
  refine related_expression compatible_outlasts more (fun level hlevel => ?_) few
  have hkept := ((outlasts_itself more).related level hlevel).kept
  exact ⟨fun s => .inr ⟨rfl, .refl s, hkept s⟩, hkept⟩

/-! ## Programs -/

/-- From the state `s` the statements of a program up to the state `s'` are finished: they are those
of the list and those that were given up. -/
inductive Finishes (sub : Sub) : State → List (Node Token) → State → Prop
  | here (s : State) : Finishes sub s [] s
  | kept {s s₁ s' : State} {stmt : Node Token} {body : List (Node Token)} (heof : s.current.kind ≠ .eof)
      (h : statement sub s = (.ok stmt, s₁)) (hrest : Finishes sub s₁.consume body s') :
      Finishes sub s (stmt :: body) s'
  | dropped {s s₁ s' : State} {body : List (Node Token)} (heof : s.current.kind ≠ .eof)
      (h : statement sub s = (.error .rejected, s₁)) (hrest : Finishes sub s₁.consume body s') :
      Finishes sub s body s'

/-- The limit of the first reader stops a program at the state `s'`, in a statement that is not
finished. All that was finished up to there, both readers have. -/
structure StoppedAt (sub sub' : Sub) (s s' : State) (o o' : List (Node Token) × State) : Prop where
  finished : Finishes sub s o.1 s'
  finished' : Finishes sub' s o.1 s'
  unfinished : s'.current.kind ≠ .eof ∧ (statement sub s').1 = .error .tooDeep
  body : o.1 <+: o'.1
  problems : ∃ found, s'.problems.toList <+: found ∧ found <+: o'.2.problems.toList ∧
    o.2.problems.toList = found ++ [.tooDeep]

section Bodies

variable {sub sub' : Sub} (hsub : Sub.Related (fun _ => Outlasts) sub sub')
include hsub

theorem keptBy_programBody : ∀ (n : Nat) (s : State), s.KeptBy (programBody sub' n s).2
  | 0, s => .refl s
  | n + 1, s => by
    have hkept := (related_statement compatible_outlasts hsub).kept s
    rw [programBody_succ]
    split
    · exact .refl s
    · rcases hx : statement sub' s with ⟨(_ | _) | stmt, s₁⟩ <;> rw [hx] at hkept
      · exact hkept.trans (keptBy_programBody n s₁.consume).of_consume
      · exact hkept.report _
      · exact hkept.trans (keptBy_programBody n s₁.consume).of_consume

/-- What is read on after a statement keeps its problems. -/
theorem keptBy_statement_then (n : Nat) {s : State} (heof : s.current.kind ≠ .eof) :
    (statement sub' s).2.KeptBy (programBody sub' (n + 1) s).2 := by
  rw [programBody_succ, if_neg heof]
  rcases statement sub' s with ⟨(_ | _) | stmt, s₁⟩
  · exact (keptBy_programBody hsub n s₁.consume).of_consume
  · exact (State.KeptBy.refl s₁).report _
  · exact (keptBy_programBody hsub n s₁.consume).of_consume

/-- **Statement by statement.** -/
theorem programBody_of_outlasts : ∀ (n : Nat) (s : State), programBody sub n s = programBody sub' n s ∨
    ∃ s', StoppedAt sub sub' s s' (programBody sub n s) (programBody sub' n s)
  | 0, _ => .inl rfl
  | n + 1, s => by
    rw [programBody_succ, programBody_succ]
    split
    · exact .inl rfl
    next heof =>
      rcases (related_statement compatible_outlasts hsub).near s with h | ⟨hstop, hkept, hproblems⟩
      · -- the statement is the same, and the limit may stop one after it
        rcases hx : statement sub' s with ⟨(_ | _) | stmt, s₁⟩ <;> rw [hx] at h <;> rw [h]
        · rcases programBody_of_outlasts n s₁.consume with hrest | ⟨s', hrest⟩
          · exact .inl hrest
          · exact .inr ⟨s', { hrest with
              finished := .dropped heof h hrest.finished
              finished' := .dropped heof hx hrest.finished' }⟩
        · exact .inl rfl
        · rcases programBody_of_outlasts n s₁.consume with hrest | ⟨s', hrest⟩
          · exact .inl (congrArg (fun o => (stmt :: o.1, o.2)) hrest)
          · exact .inr ⟨s', { hrest with
              finished := .kept heof h hrest.finished
              finished' := .kept heof hx hrest.finished'
              body := List.cons_prefix_cons.2 ⟨rfl, hrest.body⟩ }⟩
      · -- the limit stops this statement
        have hlater := keptBy_statement_then hsub n heof
        obtain ⟨s₁, hs₁⟩ : ∃ s₁, statement sub s = (.error .tooDeep, s₁) := ⟨_, Prod.ext hstop rfl⟩
        rw [programBody_succ, if_neg heof] at hlater
        rw [hs₁] at hkept hproblems ⊢
        refine .inr ⟨s, .here s, .here s, ⟨heof, by rw [hs₁]⟩, List.nil_prefix, s₁.problems.toList, hkept,
          hproblems.trans hlater, ?_⟩
        rw [State.problems_report, Array.toList_push]

end Bodies

/-- **What is finished stays.** A program under two limits on how deeply expressions are nested: both
find the same, or the smaller limit stops a statement of the program, and then the statements are those
that were finished before that one, in the same way under both limits, and the problems are the first
ones that are found under the larger limit, with the one about the nesting after them. -/
theorem program_of_limit_le {few many : Nat} (h : few ≤ many) (tokens : List Token) :
    ((program few tokens).body = (program many tokens).body ∧
        (program few tokens).problems = (program many tokens).problems) ∨
      (program few tokens).body <+: (program many tokens).body ∧
        (∃ found, found <+: (program many tokens).problems ∧
          (program few tokens).problems = found ++ [.tooDeep] ∧
          Problem.tooDeep.message = "maximum nesting depth exceeded") ∧
        ∃ s, Finishes (expression few) (State.start tokens) (program few tokens).body s ∧
          Finishes (expression many) (State.start tokens) (program few tokens).body s ∧
          s.current.kind ≠ .eof ∧ (statement (expression few) s).1 = .error .tooDeep := by
  rcases programBody_of_outlasts (outlasts_expression h) (State.start tokens).budget (State.start tokens)
    with hsame | ⟨s, hstopped⟩
  · exact .inl ⟨congrArg Prod.fst hsame, congrArg (fun o => o.2.problems.toList) hsame⟩
  · obtain ⟨found, -, hfound, hproblems⟩ := hstopped.problems
    exact .inr ⟨hstopped.body, ⟨found, hfound, hproblems, rfl⟩, s, hstopped.finished, hstopped.finished',
      hstopped.unfinished⟩

/-- The second statement is nested too deeply for the limit one. -/
theorem program_of_limit_le_group :
    let word (kind : Kind) (literal : String) : Token := ⟨kind, literal, 0, 0⟩
    let tokens := [word .ident "a", word .semicolon ";", word .rparen ")", word .lparen "(",
      word .ident "b", word .rparen ")", word .semicolon ";", word .eof ""]
    1 ≤ 2 ∧ (program 1 tokens).problems = [.noExpression .rparen, .tooDeep] ∧
      (program 2 tokens).problems = [.noExpression .rparen] ∧
      (program 1 tokens).body <+: (program 2 tokens).body := by
  intro word tokens
  refine ⟨by decide, by decide +kernel, by decide +kernel, ?_⟩
  rcases program_of_limit_le (by decide : 1 ≤ 2) tokens with h | h
  · exact h.1 ▸ List.prefix_refl _
  · exact h.1

end SepiaLang.Parse
