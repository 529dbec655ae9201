import SepiaLang.Proofs.Arithmetic
import SepiaLang.Proofs.DepthLimit

/-!
# Assigning operators

An operator that assigns does in one expression what a statement does that binds a name anew to the result
of the operator without the assignment. A step is such an operation with one.

* `Arith.text`, `Arith.assigning`: how an operation is written, without and with the assignment.
* `Arith.Applied`, `applied_applyBinary`: the two operators give the same value, or fail in the same words
  except for their own.
* `assign_of_applyBinary`: binding the name anew does not fail.
* `Updates`, `updates_of_assigning`: the expression beside the statement.
* `SteppedAlike`, `steppedAlike`: a step beside the operation with one.
* **`assigning_operators`**: all of this, within any bounds on nesting.
-/

namespace SepiaLang

open SepiaLang.Computation

/-! ## Operators with and without an assignment -/

namespace Arith

/-- How the operation is written. -/
def text : Arith → String
  | add => "+"
  | sub => "-"
  | mul => "*"
  | div => "/"

/-- How the operation is written that assigns its result. -/
def assigning (op : Arith) : String := op.text ++ "="

theorem ofText?_text (op : Arith) : BinaryOp.ofText? op.text = some (.arith op false) := by
  cases op <;> decide

theorem ofText?_assigning (op : Arith) : BinaryOp.ofText? op.assigning = some (.arith op true) := by
  cases op <;> decide

/-- The two messages are the same, except that the first one names the operator that assigns and the second
one the operator that does not. -/
def Reworded (op : Arith) (message message' : String) : Prop :=
  ∃ before after, message = before ++ op.assigning ++ after ∧ message' = before ++ op.text ++ after

theorem reworded_unknownBinary (op : Arith) (l r : ValueType) :
    op.Reworded (EvalError.unknownBinary l op.assigning r).message
      (EvalError.unknownBinary l op.text r).message :=
  ⟨"unknown operator: " ++ l.name ++ " ", " " ++ r.name, String.append_assoc, String.append_assoc⟩

theorem reworded_typeMismatch (op : Arith) (l r : ValueType) :
    op.Reworded (EvalError.typeMismatch l op.assigning r).message
      (EvalError.typeMismatch l op.text r).message :=
  ⟨"type mismatch: " ++ l.name ++ " ", " " ++ r.name, String.append_assoc, String.append_assoc⟩

/-- What the two operators come to, applied to the same values: the same value, or errors in the same words. -/
inductive Applied (op : Arith) (s : Store) : Except Stop Value × Store → Except Stop Value × Store → Prop
  | value (v : Value) (s' : Store) : Applied op s (.ok v, s') (.ok v, s')
  | same (e : EvalError) : Applied op s (.error (.failed e), s) (.error (.failed e), s)
  | reworded {e e' : EvalError} (h : op.Reworded e.message e'.message) :
      Applied op s (.error (.failed e), s) (.error (.failed e'), s)

/-- Arithmetic on integers has a value, unless it is a division by zero. -/
theorem apply_cases (op : Arith) (a b : Int) (s : Store) :
    (∃ n, op.apply a b s = (.ok n, s)) ∨ op.apply a b s = (.error (.failed .divisionByZero), s) := by
  cases op with
  | add | sub | mul => exact .inl ⟨_, rfl⟩
  | div =>
    by_cases hb : b = 0
    · exact .inr (by rw [Arith.apply, if_pos hb]; rfl)
    · refine .inl ⟨Word64.wrap (a.tdiv b), ?_⟩
      rw [Arith.apply, if_neg hb, quotient, Word64.divide?, if_neg hb]
      rfl

end Arith

section Apply

variable {op : Arith} {text : String} {assigns : Bool}

theorem applyBinary_integers (h : BinaryOp.ofText? text = some (.arith op assigns)) (a b : Int) :
    applyBinary text (.integer a) (.integer b) = (do return .integer (← op.apply a b)) := by
  rw [applyBinary, applyIntegers, h]

theorem applyBinary_strings (h : BinaryOp.ofText? text = some (.arith .add assigns)) (i j : Nat)
    (a b : String) : applyBinary text (.string i a) (.string j b) = newString (a ++ b) := by
  simp only [applyBinary, h]
  rfl

/-- An arithmetic operator takes two integers or, if it is an addition, two strings. -/
theorem applyBinary_cases (op : Arith) (l r : Value) :
    (∃ a b, l = .integer a ∧ r = .integer b) ∨
    (op = .add ∧ ∃ i a j b, l = .string i a ∧ r = .string j b) ∨
    ∀ text assigns, BinaryOp.ofText? text = some (.arith op assigns) → applyBinary text l r =
      if l.type = r.type then fail (.unknownBinary l.type text r.type)
      else fail (.typeMismatch l.type text r.type) := by
  by_cases hinteger : ∃ a b, l = .integer a ∧ r = .integer b
  · exact .inl hinteger
  by_cases hstring : op = .add ∧ ∃ i a j b, l = .string i a ∧ r = .string j b
  · exact .inr (.inl hstring)
  refine .inr (.inr fun text assigns h => ?_)
  unfold applyBinary
  split
  · exact absurd ⟨_, _, rfl, rfl⟩ hinteger
  · rw [h]
    dsimp only
    unfold applyOthers
    split
    · next hop _ => cases hop
    · next hop _ =>
      cases hop
      exact absurd ⟨rfl, _, _, _, _, rfl, rfl⟩ hstring
    · rfl

/-- **The two operators differ in their name only.** -/
theorem applied_applyBinary (op : Arith) (l r : Value) (s : Store) :
    op.Applied s (applyBinary op.assigning l r s) (applyBinary op.text l r s) := by
  rcases applyBinary_cases op l r with ⟨a, b, rfl, rfl⟩ | ⟨rfl, i, a, j, b, rfl, rfl⟩ | hfail
  · rw [applyBinary_integers op.ofText?_assigning, applyBinary_integers op.ofText?_text]
    rcases op.apply_cases a b s with ⟨n, hn⟩ | hzero
    · rw [bind_of_ok hn]
      exact .value _ s
    · rw [bind_of_error hzero]
      exact .same _
  · rw [applyBinary_strings Arith.add.ofText?_assigning, applyBinary_strings Arith.add.ofText?_text]
    exact .value _ _
  · rw [hfail _ _ op.ofText?_assigning, hfail _ _ op.ofText?_text]
    split
    · exact .reworded (op.reworded_unknownBinary l.type r.type)
    · exact .reworded (op.reworded_typeMismatch l.type r.type)

/-- An arithmetic operator that has a value was given no native function. The value is not on its way out and
can be written down, and nothing was bound. -/
theorem applyBinary_ok {l r v : Value} {s s' : Store} (h : BinaryOp.ofText? text = some (.arith op assigns))
    (hv : applyBinary text l r s = (.ok v, s')) :
    (∀ name, l ≠ .native name) ∧ (∀ w, v ≠ .returned w) ∧ v.fits displayLimit = true ∧
      s'.scopes = s.scopes := by
  rcases applyBinary_cases op l r with ⟨a, b, rfl, rfl⟩ | ⟨rfl, i, a, j, b, rfl, rfl⟩ | hfail
  · rw [applyBinary_integers h] at hv
    rcases op.apply_cases a b s with ⟨n, hn⟩ | hzero
    · rw [bind_of_ok hn] at hv
      cases hv
      exact ⟨nofun, nofun, rfl, rfl⟩
    · rw [bind_of_error hzero] at hv
      cases hv
  · rw [applyBinary_strings h] at hv
    cases hv
    exact ⟨nofun, nofun, rfl, rfl⟩
  · rw [hfail _ _ h] at hv
    split at hv <;> cases hv

end Apply

/-! ## Assignments -/

section Assignment

variable {cfg : Config} {op : Arith} {depth i : Nat} {x : String} {s s' : Store}

/-- Looking a name up leaves the store as it is. -/
theorem operand_identifier (cfg : Config) (depth i : Nat) (x : String) (s : Store) :
    (∃ v, operand (eval cfg depth) (.identifier () x) i s = (.ok v, s)) ∨
      ∃ stop, operand (eval cfg depth) (.identifier () x) i s = (.error stop, s) := by
  cases depth with
  | zero => exact .inr ⟨_, rfl⟩
  | succ depth =>
    change (∃ v, (lookUp cfg i x >>= _) s = (.ok v, s)) ∨ ∃ stop, (lookUp cfg i x >>= _) s = (.error stop, s)
    rw [bind_apply, lookUp_apply]
    cases s.scopes.get? i x with
    | some v =>
      cases v with
      | returned w => exact .inr ⟨_, rfl⟩
      | _ => exact .inl ⟨_, rfl⟩
    | none =>
      cases cfg.natives.lookup x with
      | some native => exact .inl ⟨_, rfl⟩
      | none => exact .inr ⟨_, rfl⟩

/-- A name that is used and is not that of a native function is bound to its value. -/
theorem get?_of_operand {v : Value} (h : operand (eval cfg depth) (.identifier () x) i s = (.ok v, s'))
    (hv : ∀ name, v ≠ .native name) : s' = s ∧ s.scopes.get? i x = some v := by
  cases depth with
  | zero => cases h
  | succ depth =>
    obtain ⟨w, s₁, hw, hlast⟩ := exists_of_bind_ok h
    split at hlast
    · cases hlast
    · cases hlast
      exact get?_of_lookUp (show lookUp cfg i x s = _ from hw) (hv x)

/-- **Binding a name anew does not fail**, where an arithmetic operator was applied to its value. -/
theorem assign_of_applyBinary {text : String} {assigns : Bool} {l r v : Value} {s₁ s₂ : Store}
    (h : BinaryOp.ofText? text = some (.arith op assigns))
    (hl : operand (eval cfg depth) (.identifier () x) i s = (.ok l, s₁))
    (hv : applyBinary text l r s₁ = (.ok v, s₂)) :
    ∃ s₃, assign cfg i x v s₂ = (.ok (), s₃) ∧ s₃.scopes.get? i x = some v := by
  obtain ⟨hnative, -, hfits, hscopes⟩ := applyBinary_ok h hv
  obtain ⟨rfl, hget⟩ := get?_of_operand hl hnative
  obtain ⟨s₃, hassign⟩ := assign_of_fits cfg (hscopes ▸ hget) hfits
  exact ⟨s₃, hassign, (assign_ok hassign).1⟩

/-- What an assigning operator comes to, beside the statement: a value, to which the name is bound then, or the
same stop, or errors in the same words. The stores that are left are the same. -/
inductive Updates (op : Arith) (i : Nat) (x : String) :
    Except Stop Value × Store → Except Stop Value × Store → Prop
  | value {v : Value} {s' : Store} (h : s'.scopes.get? i x = some v) : Updates op i x (.ok v, s') (.ok .null, s')
  | same (stop : Stop) (s' : Store) : Updates op i x (.error stop, s') (.error stop, s')
  | reworded {e e' : EvalError} (s' : Store) (h : op.Reworded e.message e'.message) :
      Updates op i x (.error (.failed e), s') (.error (.failed e'), s')

section Operands

variable {ev : Evaluator} {l r : Value} {e : Node Unit} {s₁ s₂ : Store}

/-- An assigning operator after its operands. -/
theorem binary_assigning (cfg : Config) (op : Arith) (hr : operand ev e i s = (.ok r, s₁))
    (hl : operand ev (.identifier () x) i s₁ = (.ok l, s₂)) :
    binary cfg ev i op.assigning (.identifier () x) e s =
      (do let v ← applyBinary op.assigning l r; assign cfg i x v; return v : Run Value) s₂ := by
  have hassigns : ((BinaryOp.ofText? op.assigning).map (·.assigns)).getD false = true := by
    rw [op.ofText?_assigning]
    rfl
  rw [binary, bind_of_ok hr, bind_of_ok hl]
  simp only [if_pos hassigns]

/-- The operator without the assignment after its operands. -/
theorem binary_text (cfg : Config) (op : Arith) (hr : operand ev e i s = (.ok r, s₁))
    (hl : operand ev (.identifier () x) i s₁ = (.ok l, s₂)) :
    binary cfg ev i op.text (.identifier () x) e s = applyBinary op.text l r s₂ := by
  have hassigns : ¬((BinaryOp.ofText? op.text).map (·.assigns)).getD false = true := by
    rw [op.ofText?_text]
    nofun
  rw [binary, bind_of_ok hr, bind_of_ok hl]
  simp only [if_neg hassigns, bind_pure]

end Operands

/-- **An assigning operator is a statement in disguise**, where the statement may nest one evaluation more. -/
theorem updates_of_assigning (cfg : Config) (op : Arith) (x : Ident Unit) (e : Node Unit) (depth i : Nat)
    (s : Store) :
    Updates op i x.text (eval cfg (depth + 1) (.binary () op.assigning (.identifier () x.text) e) i s)
      (eval cfg (depth + 2) (.updateStmt () x (.binary () op.text (.identifier () x.text) e)) i s) := by
  change Updates op i x.text (binary cfg (eval cfg depth) i op.assigning (.identifier () x.text) e s)
    ((operand (eval cfg (depth + 1)) (.binary () op.text (.identifier () x.text) e) i >>= fun v => do
      assign cfg i x.text v; return .null) s)
  -- a stop in the operation goes through the statement
  have hstop {stop : Stop} {s' : Store}
      (h : binary cfg (eval cfg depth) i op.text (.identifier () x.text) e s = (.error stop, s')) :
      operand (eval cfg (depth + 1)) (.binary () op.text (.identifier () x.text) e) i s = (.error stop, s') :=
    bind_of_error h _
  rcases hr : operand (eval cfg depth) e i s with ⟨stop | r, s₁⟩
  · rw [binary, bind_of_error hr, bind_of_error (hstop (bind_of_error hr _))]
    exact .same stop s₁
  rcases hl : operand (eval cfg depth) (.identifier () x.text) i s₁ with ⟨stop | l, s₂⟩
  · rw [bind_of_error (hstop ((bind_of_ok hr _).trans (bind_of_error hl _))), binary, bind_of_ok hr,
      bind_of_error hl]
    exact .same stop s₂
  have htext := binary_text cfg op hr hl
  rw [binary_assigning cfg op hr hl]
  have happlied := applied_applyBinary op l r s₂
  generalize hassigning : applyBinary op.assigning l r s₂ = o at happlied
  generalize hplain : applyBinary op.text l r s₂ = o' at happlied
  cases happlied with
  | value v s₃ =>
    obtain ⟨s₄, hassign, hget⟩ := assign_of_applyBinary op.ofText?_assigning hl hassigning
    have hv := (applyBinary_ok op.ofText?_assigning hassigning).2.1
    rw [bind_of_ok hassigning, bind_of_ok hassign,
      bind_of_ok (operand_of_ok (htext.trans hplain) hv), bind_of_ok hassign]
    exact .value hget
  | same error =>
    rw [bind_of_error hassigning, bind_of_error (hstop (htext.trans hplain))]
    exact .same _ s₂
  | reworded h =>
    rw [bind_of_error hassigning, bind_of_error (hstop (htext.trans hplain))]
    exact .reworded s₂ h

/-! ## Steps -/

/-- Both come to the same integer and leave the same store, or both stop and leave the store as it was. -/
def SteppedAlike (s : Store) (o o' : Except Stop Value × Store) : Prop :=
  (∃ n s', o = (.ok (.integer n), s') ∧ o' = (.ok (.integer n), s')) ∨
    ∃ stop stop', o = (.error stop, s) ∧ o' = (.error stop', s)

/-- Only integers can be stepped. -/
theorem applyUnary_step_of_ne {text : String} {amount : Int} {target : Node Unit} {v : Value}
    (htext : UnaryOp.ofText? text = some (.step amount)) (hv : ∀ n, v ≠ .integer n) :
    applyUnary cfg i text target v = fail (.unknownUnary text v.type) := by
  unfold applyUnary
  rw [htext]
  cases v with
  | integer n => exact absurd rfl (hv n)
  | _ => rfl

/-- **A step is the operation with one.** -/
theorem steppedAlike (cfg : Config) (op : Arith) {text : String} (amount : Int)
    (htext : UnaryOp.ofText? text = some (.step amount))
    (hop : ∀ n s, op.apply n 1 s = (.ok (Word64.wrap (n + amount)), s)) (depth i : Nat) (x : String)
    (s : Store) :
    SteppedAlike s (eval cfg depth (.unary () text (.identifier () x)) i s)
      (eval cfg depth (.binary () op.assigning (.identifier () x) (.integer () 1)) i s) := by
  obtain _ | _ | depth := depth
  · exact .inr ⟨_, _, rfl, rfl⟩
  · exact .inr ⟨_, _, rfl, rfl⟩
  have hone : operand (eval cfg (depth + 1)) (.integer () 1) i s = (.ok (.integer 1), s) := rfl
  change SteppedAlike s ((operand (eval cfg (depth + 1)) (.identifier () x) i >>= fun v =>
      applyUnary cfg i text (.identifier () x) v) s)
    (binary cfg (eval cfg (depth + 1)) i op.assigning (.identifier () x) (.integer () 1) s)
  rcases operand_identifier cfg (depth + 1) i x s with ⟨v, hv⟩ | ⟨stop, hstop⟩
  · rw [binary_assigning cfg op hone hv, bind_of_ok hv]
    by_cases hinteger : ∃ n, v = .integer n
    · obtain ⟨n, rfl⟩ := hinteger
      have happly : applyBinary op.assigning (.integer n) (.integer 1) s =
          (.ok (.integer (Word64.wrap (n + amount))), s) := by
        rw [applyBinary_integers op.ofText?_assigning, bind_of_ok (hop n s)]
        rfl
      obtain ⟨s', hassign, -⟩ := assign_of_applyBinary op.ofText?_assigning hv happly
      refine .inl ⟨Word64.wrap (n + amount), s', ?_, ?_⟩
      · unfold applyUnary
        rw [htext]
        exact bind_of_ok hassign _
      · rw [bind_of_ok happly, bind_of_ok hassign]
        rfl
    · rw [applyUnary_step_of_ne htext fun n hn => hinteger ⟨n, hn⟩]
      -- there is one case left of those that the operator has
      rcases applyBinary_cases op v (.integer 1) with ⟨n, _, hn, _⟩ | ⟨_, _, _, _, _, _, hstring⟩ | hfail
      · exact absurd ⟨n, hn⟩ hinteger
      · cases hstring
      · have := hfail _ _ op.ofText?_assigning
        split at this <;> rw [this] <;> exact .inr ⟨_, _, rfl, rfl⟩
  · refine .inr ⟨stop, stop, bind_of_error hstop _, ?_⟩
    rw [binary, bind_of_ok hone, bind_of_error hstop]

end Assignment

/-- **Assigning operators are statements in disguise.** Let a name, an expression, an operation of arithmetic, a
scope and a store be given, whatever the native functions and the level of the log.

* The operator that assigns and the statement that binds the name anew to the result of the other operator both
  have a value and leave the same store, in which the name has the value of the operator; or both stop for the
  same reason, be it that a value is on its way out or an error, and leave the same store; or both leave the same
  store and fail in words that differ only in the name of the operator. So it is where the statement may nest one
  evaluation more than the operator, and within any bounds that stop neither of the two.
* Binding the name anew does not fail once there is a result, and leads to a store in which the name has it.
* `++` and `--` come to the same as adding and subtracting one. -/
theorem assigning_operators (cfg : Config) (x : String) (i : Nat) (s : Store) :
    (∀ (op : Arith) (e : Node Unit),
      let assigning : Node Unit := .binary () op.assigning (.identifier () x) e
      let update : Node Unit := .updateStmt () ⟨x, ()⟩ (.binary () op.text (.identifier () x) e)
      (∀ depth, Updates op i x (eval cfg (depth + 1) assigning i s) (eval cfg (depth + 2) update i s)) ∧
      ∀ depth depth', (eval cfg depth assigning i s).1 ≠ .error .tooDeep →
        (eval cfg depth' update i s).1 ≠ .error .tooDeep →
        Updates op i x (eval cfg depth assigning i s) (eval cfg depth' update i s)) ∧
    (∀ (op : Arith) (depth : Nat) (l r v : Value) (s₁ s₂ : Store),
      operand (eval cfg depth) (.identifier () x) i s = (.ok l, s₁) →
      applyBinary op.assigning l r s₁ = (.ok v, s₂) ∨ applyBinary op.text l r s₁ = (.ok v, s₂) →
      ∃ s₃, assign cfg i x v s₂ = (.ok (), s₃) ∧ s₃.scopes.get? i x = some v) ∧
    ∀ depth,
      SteppedAlike s (eval cfg depth (.unary () "++" (.identifier () x)) i s)
        (eval cfg depth (.binary () "+=" (.identifier () x) (.integer () 1)) i s) ∧
      SteppedAlike s (eval cfg depth (.unary () "--" (.identifier () x)) i s)
        (eval cfg depth (.binary () "-=" (.identifier () x) (.integer () 1)) i s) := by
  refine ⟨fun op e => ⟨fun depth => updates_of_assigning cfg op ⟨x, ()⟩ e depth i s, ?_⟩, ?_,
    fun depth => ⟨?_, ?_⟩⟩
  · intro depth depth' hassigning hupdate
    rw [eval_of_le cfg (show depth ≤ max depth depth' + 1 by omega) _ i s hassigning,
      eval_of_le cfg (show depth' ≤ max depth depth' + 2 by omega) _ i s hupdate]
    exact updates_of_assigning cfg op ⟨x, ()⟩ e _ i s
  · intro op depth l r v s₁ s₂ hl hv
    rcases hv with hv | hv
    · exact assign_of_applyBinary op.ofText?_assigning hl hv
    · exact assign_of_applyBinary op.ofText?_text hl hv
  · exact steppedAlike cfg .add 1 rfl (fun _ _ => rfl) depth i x s
  · exact steppedAlike cfg .sub (-1) rfl (fun _ _ => rfl) depth i x s

/-- The right operand binds the name anew before the left one is looked up. -/
theorem assigning_operators_rebound :
    let s : Store := { scopes := #[{ bindings := [("x", .integer 6)] }] }
    let step : Node Unit := .unary () "++" (.identifier () "x")
    let assigning : Node Unit := .binary () Arith.mul.assigning (.identifier () "x") step
    let update : Node Unit := .updateStmt () ⟨"x", ()⟩ (.binary () Arith.mul.text (.identifier () "x") step)
    (eval {} 3 assigning 0 s).1 = .ok (.integer 49) ∧
      Updates .mul 0 "x" (eval {} 3 assigning 0 s) (eval {} 9 update 0 s) := by
  intro s step assigning update
  have hassigning : (eval {} 3 assigning 0 s).1 = .ok (.integer 49) := by with_unfolding_all rfl
  have hupdate : (eval {} 9 update 0 s).1 = .ok .null := by with_unfolding_all rfl
  refine ⟨hassigning, ((assigning_operators {} "x" 0 s).1 .mul step).2 3 9 ?_ ?_⟩
  · rw [hassigning]
    nofun
  · rw [hupdate]
    nofun

end SepiaLang
