import SepiaLang.Proofs.Parse.Related

/-!
# The record of reading

Readers write down which phrases they begin and leave, and never look at what they have written. Whatever
stands in the record, they go the same way, find the same and report the same.

* `State.SameButRecord`: states that differ in their records.
* `Unaware`: a reader that does the same from such states.
* `compatible_unaware`: every way to build a reader keeps this. `unaware_statement`: so statements do.
* **`program_of_record`**: and whole programs.
-/

namespace SepiaLang.Parse

open SepiaLang.Computation

/-- The states differ in their records at most. -/
def State.SameButRecord (s s' : State) : Prop :=
  ∃ (depth : Nat) (trace : Array TraceLine), s' = { s with depth, trace }

namespace State.SameButRecord

variable {s s' : State}

theorem consume (h : s.SameButRecord s') : s.consume.SameButRecord s'.consume := by
  obtain ⟨depth, trace, rfl⟩ := h
  refine ⟨depth, trace, ?_⟩
  unfold State.consume
  cases s.rest <;> rfl

theorem report (h : s.SameButRecord s') (p : Problem) : (s.report p).SameButRecord (s'.report p) := by
  obtain ⟨depth, trace, rfl⟩ := h
  exact ⟨depth, trace, rfl⟩

theorem enter (h : s.SameButRecord s') (phrase : Phrase) :
    (s.enter phrase).SameButRecord (s'.enter phrase) := by
  obtain ⟨depth, trace, rfl⟩ := h
  exact ⟨_, _, rfl⟩

theorem leave (h : s.SameButRecord s') (phrase : Phrase) :
    (s.leave phrase).SameButRecord (s'.leave phrase) := by
  obtain ⟨depth, trace, rfl⟩ := h
  exact ⟨_, _, rfl⟩

theorem current (h : s.SameButRecord s') : s'.current = s.current := by
  obtain ⟨_, _, rfl⟩ := h
  rfl

theorem ahead (h : s.SameButRecord s') : s'.ahead = s.ahead := by
  obtain ⟨_, _, rfl⟩ := h
  rfl

theorem budget (h : s.SameButRecord s') : s'.budget = s.budget := by
  obtain ⟨_, _, rfl⟩ := h
  rfl

theorem problems (h : s.SameButRecord s') : s'.problems = s.problems := by
  obtain ⟨_, _, rfl⟩ := h
  rfl

end State.SameButRecord

/-! ## Readers -/

variable {α : Type}

/-- Whatever stands in the record, the reader finds the same and comes to the same state. -/
def Unaware (r : Reader α) : Prop := Relates State.SameButRecord Eq Eq r r

namespace Unaware

variable {r : Reader α}

theorem bind {β : Type} {f : α → Reader β} (hr : Unaware r) (hf : ∀ a, Unaware (f a)) :
    Unaware (r >>= f) := by
  refine Relates.bind hr ?_
  rintro a _ rfl
  exact hf a

theorem report (p : Problem) : Unaware (Parse.report p) := fun _ _ h => ⟨h.report p, .ok rfl⟩

theorem traced (phrase : Phrase) (hr : Unaware r) : Unaware (Parse.traced phrase r) := by
  intro s s' h
  obtain ⟨hstate, hresult⟩ := hr _ _ (h.enter phrase)
  exact ⟨hstate.leave phrase, hresult⟩

theorem attempt (hr : Unaware r) : Unaware (Parse.attempt r) := by
  intro s s' h
  obtain ⟨hstate, hresult⟩ := hr s s' h
  unfold Parse.attempt
  rcases hx : r s with ⟨(_ | _) | a, s₁⟩ <;> rcases hx' : r s' with ⟨(_ | _) | a', s₁'⟩ <;>
    rw [hx, hx'] at hstate hresult <;> rcases hresult with ⟨⟨⟩⟩ | ⟨⟨⟩⟩
  · exact ⟨hstate, .ok rfl⟩
  · exact ⟨hstate, .error rfl⟩
  · exact ⟨hstate, .ok rfl⟩

end Unaware

/-- **Readers that do not look at the record**, taken twice. -/
theorem compatible_unaware : Compatible fun _ r _ => Unaware r where
  pure _ := .pure rfl
  bind := .bind
  current _ _ h := ⟨h, .ok h.current.symm⟩
  ahead _ _ h := ⟨h, .ok h.ahead.symm⟩
  consume _ _ h := ⟨h.consume, .ok rfl⟩
  report := .report
  reject p := (Unaware.report p).bind fun _ => .throw rfl
  budget _ _ hl := Unaware.bind (fun _ _ h => ⟨h, .ok h.budget.symm⟩) hl
  traced phrase _ _ hr := hr.traced phrase
  attempt := .attempt
  regardless make hr ha := by
    refine hr.attempt.bind fun found => ha.bind fun _ => ?_
    cases found with
    | some a => exact .pure rfl
    | none => exact .throw rfl

/-- Statements are read without a look at the record, at every depth of nesting. -/
theorem unaware_statement (depth : Nat) : Unaware (statement (expression depth)) :=
  related_statement compatible_unaware (related_itself compatible_unaware (.throw rfl) depth)

/-! ## Programs -/

theorem programBody_of_sameButRecord (depth : Nat) :
    ∀ (n : Nat) {s s' : State}, s.SameButRecord s' →
      (programBody (expression depth) n s).1 = (programBody (expression depth) n s').1 ∧
        (programBody (expression depth) n s).2.SameButRecord (programBody (expression depth) n s').2
  | 0, _, _, h => ⟨rfl, h⟩
  | n + 1, s, s', h => by
    rw [programBody_succ, programBody_succ, h.current]
    split
    · exact ⟨rfl, h⟩
    · obtain ⟨hstate, hresult⟩ := unaware_statement depth s s' h
      rcases hx : statement (expression depth) s with ⟨(_ | _) | stmt, s₁⟩ <;>
        rcases hx' : statement (expression depth) s' with ⟨(_ | _) | stmt', s₁'⟩ <;>
        rw [hx, hx'] at hstate hresult <;> rcases hresult with ⟨⟨⟩⟩ | ⟨⟨⟩⟩
      · exact programBody_of_sameButRecord depth n hstate.consume
      · exact ⟨rfl, hstate.report _⟩
      · obtain ⟨hbody, hfinal⟩ := programBody_of_sameButRecord depth n hstate.consume
        exact ⟨congrArg (stmt :: ·) hbody, hfinal⟩

/-- Reads a program where something stands in the record before the first phrase. -/
def programAfter (depth : Nat) (trace : Array TraceLine) (limit : Nat) (tokens : List Token) : Parsed :=
  let start := { State.start tokens with depth, trace }
  let (body, final) := programBody (expression limit) start.budget start
  { body, problems := final.problems.toList, trace := final.trace.toList }

/-- **Reading never looks at the record.** Whatever stands in it, the same statements and the same
problems are found. -/
theorem program_of_record (depth : Nat) (trace : Array TraceLine) (limit : Nat) (tokens : List Token) :
    (programAfter depth trace limit tokens).body = (program limit tokens).body ∧
      (programAfter depth trace limit tokens).problems = (program limit tokens).problems := by
  have hstart : (State.start tokens).SameButRecord { State.start tokens with depth, trace } := ⟨_, _, rfl⟩
  obtain ⟨hbody, hfinal⟩ :=
    programBody_of_sameButRecord limit (State.start tokens).budget hstart
  exact ⟨hbody.symm, congrArg Array.toList hfinal.problems⟩

end SepiaLang.Parse
