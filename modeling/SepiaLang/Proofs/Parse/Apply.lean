import SepiaLang.Parse.Program
import SepiaLang.Proofs.Computation
import SepiaLang.Proofs.Parse.Window

/-!
# Readers on one state

What the readers do that depend on the tokens in the window: which way they go from a state.

* `expect_of_eq`, `expect_of_ne`, `skip_of_eq`, `skip_of_ne`: the token ahead is of a kind or not.
* `statement_apply`, `primary_apply`, `extend_apply`: the current token tells which phrase it is.
* `entries_of_rbrace`, `statements_of_closing`, `programBody_of_eof`: a list is at its end.
* `programBody_succ`: a statement of a program and those after it.
-/

namespace SepiaLang.Parse

variable {sub : Sub}

/-! ## The token ahead -/

theorem expect_of_eq {kind : Kind} {s : State} (h : s.ahead.kind = kind) :
    expect kind s = (.ok (), s.consume) := by
  change (if s.ahead.kind = kind then consume else _) s = _
  rw [if_pos h]
  rfl

theorem expect_of_ne {kind : Kind} {s : State} (h : s.ahead.kind ≠ kind) :
    expect kind s = (.error .rejected, s.report (.expected kind s.ahead)) := by
  change (if s.ahead.kind = kind then _ else reject _) s = _
  rw [if_neg h]
  rfl

theorem skip_of_eq {kind : Kind} {s : State} (h : s.ahead.kind = kind) :
    skip kind s = (.ok (), s.consume) := by
  change (if s.ahead.kind = kind then consume else _) s = _
  rw [if_pos h]
  rfl

theorem skip_of_ne {kind : Kind} {s : State} (h : s.ahead.kind ≠ kind) : skip kind s = (.ok (), s) := by
  change (if s.ahead.kind = kind then _ else (pure () : Reader Unit)) s = _
  rw [if_neg h]
  rfl

/-! ## The current token -/

theorem statement_apply (s : State) : statement sub s = match s.current.kind with
    | .valueWord => valueStatement sub s
    | .updateWord => updateStatement sub s
    | .returnWord => returnStatement sub s
    | _ => expressionStatement sub s := by
  change (match s.current.kind with
    | .valueWord => valueStatement sub
    | .updateWord => updateStatement sub
    | .returnWord => returnStatement sub
    | _ => expressionStatement sub) s = _
  cases s.current.kind <;> rfl

theorem primary_apply (s : State) : primary sub s = match s.current.kind with
    | .ident => (.ok (.identifier s.current s.current.literal), s)
    | .int => integer s
    | .string => (.ok (.string s.current s.current.literal), s)
    | .trueWord => (.ok (.boolean s.current true), s)
    | .falseWord => (.ok (.boolean s.current false), s)
    | .bang | .minus | .increment | .decrement => unary sub s
    | .lparen => grouped sub s
    | .lbracket => array sub s
    | .lbrace => map sub s
    | .ifWord => conditional sub s
    | .fnWord => function sub s
    | kind => reject (.noExpression kind) s := by
  unfold primary
  change (match s.current.kind with
    | .ident => _ | .int => _ | .string => _ | .trueWord => _ | .falseWord => _
    | .bang | .minus | .increment | .decrement => _
    | .lparen => _ | .lbracket => _ | .lbrace => _ | .ifWord => _ | .fnWord => _
    | kind => reject (.noExpression kind)) s = _
  cases s.current.kind <;> rfl

theorem extend_apply (left : Node Token) (s : State) : extend sub left s = match s.current.kind with
    | .lparen => call sub left s
    | .lbracket => index sub left s
    | _ => binary sub left s := by
  change (match s.current.kind with
    | .lparen => call sub left
    | .lbracket => index sub left
    | _ => binary sub left) s = _
  cases s.current.kind <;> rfl

/-! ## The end of a list -/

theorem entries_of_rbrace {s : State} (h : s.ahead.kind = .rbrace) :
    ∀ n, entries sub n s = (.ok [], s)
  | 0 => rfl
  | n + 1 => by
    change (if s.ahead.kind = .rbrace ∨ _ then (pure [] : Reader _) else _) s = _
    rw [if_pos (.inl h)]
    rfl

theorem statements_of_closing {s : State} (h : s.current.kind = .closeBlock ∨ s.current.kind = .eof) :
    ∀ n, statements sub n s = (.ok [], s)
  | 0 => rfl
  | n + 1 => by
    change (if s.current.kind = .closeBlock ∨ _ then (pure [] : Reader _) else _) s = _
    rw [if_pos h]
    rfl

/-! ## Programs -/

theorem programBody_succ (sub : Sub) (n : Nat) (s : State) : programBody sub (n + 1) s =
    if s.current.kind = .eof then ([], s)
    else match statement sub s with
      | (.ok stmt, s₁) =>
        (stmt :: (programBody sub n s₁.consume).1, (programBody sub n s₁.consume).2)
      | (.error .rejected, s₁) => programBody sub n s₁.consume
      | (.error .tooDeep, s₁) => ([], s₁.report .tooDeep) := by
  change (if s.current.kind = .eof then (pure [] : StateM State _) else _) s = _
  split
  · rfl
  · have hbind : ∀ (m : StateM State (Except Halt (Node Token))) f,
        (m >>= f : StateM State (List (Node Token))) s = f (m s).1 (m s).2 := fun _ _ => rfl
    rw [hbind, ExceptT.run]
    rcases statement sub s with ⟨(_ | _) | stmt, s₁⟩ <;> rfl

theorem programBody_of_eof {s : State} (h : s.current.kind = .eof) (sub : Sub) :
    ∀ n, programBody sub n s = ([], s)
  | 0 => rfl
  | n + 1 => by rw [programBody_succ, if_pos h]

end SepiaLang.Parse
