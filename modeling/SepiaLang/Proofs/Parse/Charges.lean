import Mathlib.Algebra.Order.BigOperators.Group.List
import Mathlib.Algebra.Order.Ring.Nat
import SepiaLang.Proofs.Parse.Related
import SepiaLang.Proofs.Parse.Resume

/-!
# What problems are charged to

Every problem is charged to a token of its own. A statement that is given up has one problem more than
the blocks inside it, and that one is charged to the first token of the statement; a block without an
end is charged to the arrow that opens it. In the same way every expression inside another one is
charged to a token, so that expressions are not nested more deeply than there are tokens.

* `Tariff`: what tokens are worth, and what problems cost at most.
* `Tariff.weight`: what the problems of a state cost and the tokens ahead are worth. It never grows,
  except by the fee for giving up.
* `Tariff.Balanced`, `Tariff.Entered`: readers that keep to that, with a rule for each way to build them.
* **`entered_expression`**, **`settled_programBody`**: expressions and programs keep to it.
* **`problems_program`**: the problems of a program, by the number of its tokens.
* **`openBlock_not_mem`**: without arrows there are no blocks without an end.
-/

namespace SepiaLang.Parse

open SepiaLang.Computation

variable {α β : Type}

/-- What tokens are worth and what problems cost. To give up a statement may cost the `fee`, no more
than its first token is worth, and a block without an end costs no more than its arrow. -/
structure Tariff where
  worth : Kind → Nat
  cost : Problem → Nat
  fee : Nat
  worth_eof : worth .eof = 0
  fee_le : ∀ {kind : Kind}, kind ≠ .eof → fee ≤ worth kind
  cost_le_fee : ∀ {p : Problem}, p.isOpenBlock = false → p ≠ .tooDeep → cost p ≤ fee
  cost_openBlock : ∀ t : Token, cost (.openBlock t) ≤ worth .openBlock

namespace Tariff

variable (T : Tariff)

/-- What the problems found so far cost, and what the tokens ahead are worth. -/
def weight (s : State) : Nat :=
  (s.problems.toList.map T.cost).sum + ((s.ahead :: s.rest).map fun t => T.worth t.kind).sum

/-- What an outcome may cost. -/
def due : Except Halt α → Nat
  | .error .rejected => T.fee
  | _ => 0

variable {T}

/-- The token that the window moves on to is no longer ahead. -/
theorem weight_consume {s : State} (hs : s.Padded) :
    T.weight s.consume + T.worth s.consume.current.kind = T.weight s := by
  have hending : T.worth s.ending.kind = 0 := by
    rw [show s.ending.kind = .eof from hs]
    exact T.worth_eof
  rw [State.current_consume, weight, weight, State.problems_consume]
  unfold State.consume
  rcases s.rest with _ | ⟨t, rest⟩
  · simp [hending]
  · simp only [List.map_cons, List.sum_cons]
    omega

theorem weight_report (s : State) (p : Problem) : T.weight (s.report p) = T.weight s + T.cost p := by
  rw [weight, State.problems_report, Array.toList_push, List.map_append, List.sum_append]
  simp only [weight, State.report, List.map_cons, List.map_nil, List.sum_cons, List.sum_nil]
  omega

/-! ## Outcomes -/

/-- The outcome has cost no more than there was at the start, and the fee if a phrase was given up. It
was stopped by the limit only if that is no more than the room for expressions inside each other. -/
structure Pays (T : Tariff) (depth start room : Nat) (o : Except Halt α × State) : Prop where
  padded : o.2.Padded
  weight : T.weight o.2 ≤ start + T.due o.1
  deep : o.1 = .error .tooDeep → T.fee * depth ≤ room

variable {depth : Nat}

namespace Pays

variable {start room start' room' : Nat} {o : Except Halt α × State}

theorem mono (h : T.Pays depth start room o) (hstart : start ≤ start') (hroom : room ≤ room') :
    T.Pays depth start' room' o :=
  ⟨h.padded, h.weight.trans (Nat.add_le_add_right hstart _), fun hdeep => (h.deep hdeep).trans hroom⟩

theorem ok {a : α} {s : State} (hs : s.Padded) (h : T.weight s ≤ start) :
    T.Pays depth start room (.ok a, s) := ⟨hs, h, nofun⟩

theorem rejected {s : State} (hs : s.Padded) (h : T.weight s ≤ start + T.fee) :
    T.Pays depth start room ((.error .rejected, s) : Except Halt α × State) := ⟨hs, h, nofun⟩

theorem reject {s : State} {p : Problem} (hs : s.Padded) (h : T.weight s ≤ start)
    (hblock : p.isOpenBlock = false) (hdeep : p ≠ .tooDeep) :
    T.Pays depth start room (Parse.reject p s : Except Halt α × State) := by
  refine .rejected hs ?_
  rw [weight_report]
  exact Nat.add_le_add h (T.cost_le_fee hblock hdeep)

/-- **One reader after the other.** -/
theorem bind {r : Reader α} {f : α → Reader β} {s : State} (h : T.Pays depth start room (r s))
    (hf : ∀ a s', s'.Padded → T.weight s' ≤ start → T.Pays depth start room (f a s')) :
    T.Pays depth start room ((r >>= f) s) := by
  rw [bind_apply]
  rcases hx : r s with ⟨(_ | _) | a, s₁⟩ <;> rw [hx] at h
  · exact .rejected h.padded h.weight
  · exact ⟨h.padded, h.weight, fun _ => h.deep rfl⟩
  · exact hf a s₁ h.padded h.weight

/-- What is passed over after a phrase costs nothing. -/
theorem regardless {r : Reader α} {after : Reader Unit} {make : α → β} {s : State}
    (h : T.Pays depth start room (r s))
    (hafter : ∀ s : State, s.Padded → ∃ s', after s = (.ok (), s') ∧ s'.Padded ∧ T.weight s' ≤ T.weight s) :
    T.Pays depth start room (regardless r after make s) := by
  rw [Parse.regardless, bind_apply, Echo.attempt_apply]
  rcases hx : r s with ⟨(_ | _) | a, s₁⟩ <;> rw [hx] at h
  · obtain ⟨s₂, hs₂, hpadded, hweight⟩ := hafter s₁ h.padded
    change T.Pays depth start room ((after >>= fun _ => (throw .rejected : Reader β)) s₁)
    rw [bind_of_ok hs₂]
    exact .rejected hpadded (hweight.trans h.weight)
  · exact ⟨h.padded, h.weight, fun _ => h.deep rfl⟩
  · obtain ⟨s₂, hs₂, hpadded, hweight⟩ := hafter s₁ h.padded
    change T.Pays depth start room ((after >>= fun _ => (pure (make a) : Reader β)) s₁)
    rw [bind_of_ok hs₂]
    exact .ok hpadded (hweight.trans h.weight)

end Pays

/-! ## Readers -/

/-- From every state the reader pays with what is ahead. -/
def Balanced (T : Tariff) (depth : Nat) (r : Reader α) : Prop :=
  ∀ s : State, s.Padded → T.Pays depth (T.weight s) (T.weight s) (r s)

/-- From every state the reader pays with what is ahead, where the current token is room for one more
expression. -/
def Entered (T : Tariff) (depth : Nat) (r : Reader α) : Prop :=
  ∀ s : State, s.Padded → T.Pays depth (T.weight s) (T.weight s + T.worth s.current.kind) (r s)

theorem Balanced.entered {r : Reader α} (h : T.Balanced depth r) : T.Entered depth r :=
  fun s hs => (h s hs).mono (Nat.le_refl _) (Nat.le_add_right _ _)

namespace Entered

theorem bind {r : Reader α} {f : α → Reader β} (hr : T.Entered depth r)
    (hf : ∀ a, T.Balanced depth (f a)) : T.Entered depth (r >>= f) := fun s hs =>
  (hr s hs).bind fun a s' hs' hweight =>
    (hf a s' hs').mono hweight (hweight.trans (Nat.le_add_right _ _))

theorem traced {r : Reader α} (h : T.Entered depth r) (phrase : Phrase) :
    T.Entered depth (traced phrase r) := fun s hs =>
  have hinner := h (s.enter phrase) hs
  ⟨hinner.padded, hinner.weight, hinner.deep⟩

end Entered

namespace Balanced

theorem pure (a : α) : T.Balanced depth (Pure.pure a : Reader α) := fun _ hs => .ok hs (Nat.le_refl _)

theorem reject {p : Problem} (hblock : p.isOpenBlock = false) (hdeep : p ≠ .tooDeep) :
    T.Balanced depth (Parse.reject p : Reader α) := fun _ hs => .reject hs (Nat.le_refl _) hblock hdeep

theorem bind {r : Reader α} {f : α → Reader β} (hr : T.Balanced depth r)
    (hf : ∀ a, T.Balanced depth (f a)) : T.Balanced depth (r >>= f) := fun s hs =>
  (hr s hs).bind fun a s' hs' hweight => (hf a s' hs').mono hweight hweight

theorem ite {c : Prop} [Decidable c] {r r' : Reader α} (h : T.Balanced depth r) (h' : T.Balanced depth r') :
    T.Balanced depth (if c then r else r') := by
  split
  · exact h
  · exact h'

theorem current {f : Token → Reader α} (h : ∀ t, T.Balanced depth (f t)) :
    T.Balanced depth (current >>= f) := fun s hs => h s.current s hs

theorem ahead {f : Token → Reader α} (h : ∀ t, T.Balanced depth (f t)) :
    T.Balanced depth (ahead >>= f) := fun s hs => h s.ahead s hs

theorem budget {l : Nat → Reader α} (h : ∀ n, T.Balanced depth (l n)) :
    T.Balanced depth (budget >>= l) := fun s hs => h s.budget s hs

theorem traced {r : Reader α} (h : T.Balanced depth r) (phrase : Phrase) :
    T.Balanced depth (traced phrase r) := fun s hs =>
  have hinner := h (s.enter phrase) hs
  ⟨hinner.padded, hinner.weight, hinner.deep⟩

/-- The token that the window moves on to is room for one more expression. -/
theorem consume {f : Unit → Reader α} (h : T.Entered depth (f ())) : T.Balanced depth (consume >>= f) := by
  intro s hs
  have hweight := weight_consume (T := T) hs
  exact (h s.consume hs.consume).mono (by omega) (by omega)

/-- A token that is needed pays for what comes after it. -/
theorem expect_worth {kind : Kind} {f : Unit → Reader α}
    (h : ∀ s : State, s.Padded →
      T.Pays depth (T.weight s + T.worth kind) (T.weight s + T.worth kind) (f () s)) :
    T.Balanced depth (expect kind >>= f) := by
  intro s hs
  by_cases hkind : s.ahead.kind = kind
  · have hweight := weight_consume (T := T) hs
    rw [State.current_consume, hkind] at hweight
    rw [bind_of_ok (expect_of_eq hkind), ← hweight]
    exact h s.consume hs.consume
  · rw [bind_of_error (expect_of_ne hkind)]
    exact .reject hs (Nat.le_refl _) rfl nofun

theorem expect {kind : Kind} {f : Unit → Reader α} (h : T.Balanced depth (f ())) :
    T.Balanced depth (expect kind >>= f) :=
  expect_worth fun s hs => (h s hs).mono (Nat.le_add_right _ _) (Nat.le_add_right _ _)

end Balanced

/-! ## Lists -/

theorem balanced_moreParams : ∀ n : Nat, T.Balanced depth (moreParams n)
  | 0 => .pure _
  | n + 1 => by
    refine .ahead fun _ => .ite (.consume (Balanced.entered ?_)) (.pure _)
    exact .expect (.current fun _ => (balanced_moreParams n).bind fun _ => .pure _)

theorem balanced_params : T.Balanced depth params := by
  refine .ahead fun _ => .ite (.consume (Balanced.pure _).entered) (.expect (.current fun _ => ?_))
  exact .budget fun n => (balanced_moreParams n).bind fun _ => .expect (.pure _)

section Phrases

variable {sub : Sub} (hsub : ∀ level, T.Entered depth (sub level))
include hsub

theorem balanced_moreItems : ∀ n : Nat, T.Balanced depth (moreItems sub n)
  | 0 => .pure _
  | n + 1 => by
    refine .ahead fun _ => .ite (.consume (Balanced.entered (.consume ?_))) (.pure _)
    exact (hsub lowest).bind fun _ => (balanced_moreItems n).bind fun _ => .pure _

theorem balanced_items (closing : Kind) : T.Balanced depth (items sub closing) := by
  refine .ahead fun _ => .ite (.consume (Balanced.pure _).entered) (.consume ?_)
  refine (hsub lowest).bind fun _ => .budget fun n => ?_
  exact (balanced_moreItems hsub n).bind fun _ => .expect (.pure _)

theorem balanced_entries : ∀ n : Nat, T.Balanced depth (entries sub n)
  | 0 => .pure _
  | n + 1 => by
    have hrest (key value : Node Token) :
        T.Balanced depth (do return (key, value) :: (← entries sub n)) :=
      (balanced_entries n).bind fun _ => .pure _
    refine .ahead fun _ => .ite (.pure _) (.consume ((hsub lowest).bind fun key => ?_))
    refine .expect (.consume ((hsub lowest).bind fun value => .ahead fun _ => ?_))
    dsimp only
    exact .ite (.expect (hrest key value)) (hrest key value)

/-! ## Statements -/

theorem balanced_binding : T.Balanced depth (binding sub) := by
  refine .expect (.current fun _ => .expect (.consume ((hsub lowest).bind fun _ => ?_)))
  exact .bind (.ahead fun _ => .ite (.consume (Balanced.pure _).entered) (.pure _)) fun _ => .pure _

omit hsub in
theorem weight_consume_le {s : State} (hs : s.Padded) : T.weight s.consume ≤ T.weight s := by
  have := weight_consume (T := T) hs
  omega

omit hsub in
theorem skip_passes (kind : Kind) {s : State} (hs : s.Padded) :
    ∃ s', skip kind s = (.ok (), s') ∧ s'.Padded ∧ T.weight s' ≤ T.weight s := by
  by_cases h : s.ahead.kind = kind
  · exact ⟨_, skip_of_eq h, hs.consume, weight_consume_le hs⟩
  · exact ⟨_, skip_of_ne h, hs, Nat.le_refl _⟩

omit hsub in
theorem skipToSemicolon_passes : ∀ (n : Nat) {s : State}, s.Padded →
    ∃ s', skipToSemicolon n s = (.ok (), s') ∧ s'.Padded ∧ T.weight s' ≤ T.weight s
  | 0, s, hs => ⟨s, rfl, hs, Nat.le_refl _⟩
  | n + 1, s, hs => by
    change ∃ s', (if s.current.kind = .semicolon ∨ s.current.kind = .eof ∨ s.ahead.kind = .eof ∨
      s.ahead.kind = .closeBlock then pure () else do consume; skipToSemicolon n : Reader Unit) s = _ ∧ _
    split
    · exact ⟨s, rfl, hs, Nat.le_refl _⟩
    · obtain ⟨s', hs', hpadded, hweight⟩ := skipToSemicolon_passes n hs.consume
      exact ⟨s', hs', hpadded, hweight.trans (weight_consume_le hs)⟩

theorem entered_statement : T.Entered depth (statement sub) := by
  have hbinding (make : Token → Ident Token × Node Token → Node Token) (phrase : Phrase) :
      T.Balanced depth (traced phrase do
        let first ← current
        let parts ← binding sub
        return make first parts) :=
    (Balanced.current fun _ => (balanced_binding hsub).bind fun _ => .pure _).traced phrase
  intro s hs
  rw [statement_apply]
  split
  · exact (hbinding (fun first parts => .valueStmt first parts.1 parts.2) .valueStatement).entered s hs
  · exact (hbinding (fun first parts => .updateStmt first parts.1 parts.2) .updateStatement).entered s hs
  · rw [returnStatement_eq]
    refine (Balanced.traced (.current fun first => .consume fun s' hs' => ?_) _).entered s hs
    exact (hsub lowest s' hs').regardless fun s'' hs'' => skipToSemicolon_passes s''.budget hs''
  · rw [expressionStatement_eq]
    refine Entered.traced (fun s' hs' => ?_) _ s hs
    exact (hsub lowest s' hs').regardless fun s'' hs'' => skip_passes _ hs''

/-- **A statement and its first token**: whether it is given up or not, what follows has what the
token was worth. -/
theorem attempt_statement {s : State} (hs : s.Padded) (hkind : s.current.kind ≠ .eof) :
    T.Pays depth (T.weight s + T.worth s.current.kind) (T.weight s + T.worth s.current.kind)
      (attempt (statement sub) s) := by
  have hstatement := entered_statement hsub s hs
  have hfee := T.fee_le hkind
  rw [Echo.attempt_apply]
  rcases hx : statement sub s with ⟨(_ | _) | stmt, s₁⟩ <;> rw [hx] at hstatement
  · exact .ok hstatement.padded (hstatement.weight.trans (Nat.add_le_add_left hfee _))
  · exact ⟨hstatement.padded, hstatement.weight.trans (Nat.le_add_right _ _), fun _ => hstatement.deep rfl⟩
  · exact .ok hstatement.padded (hstatement.weight.trans (Nat.le_add_right _ _))

/-- The statements of a block, with what the current token is worth. -/
theorem pays_statements : ∀ (n : Nat) {s : State}, s.Padded →
    T.Pays depth (T.weight s + T.worth s.current.kind) (T.weight s + T.worth s.current.kind)
      (statements sub n s)
  | 0, _, hs => .ok hs (Nat.le_add_right _ _)
  | n + 1, s, hs => by
    by_cases hend : s.current.kind = .closeBlock ∨ s.current.kind = .eof
    · rw [statements_of_closing hend]
      exact .ok hs (Nat.le_add_right _ _)
    · have hfirst := attempt_statement hsub hs fun h => hend (.inr h)
      change T.Pays depth _ _ ((if s.current.kind = .closeBlock ∨ s.current.kind = .eof then
        (pure [] : Reader _) else _) s)
      rw [if_neg hend]
      refine hfirst.bind fun found s₁ hs₁ hweight => ?_
      have hconsume := weight_consume (T := T) hs₁
      have hrest := (pays_statements n hs₁.consume).mono (hconsume.le.trans hweight)
        (hconsume.le.trans hweight)
      change T.Pays depth _ _ ((statements sub n >>= fun ns => (pure (found.toList ++ ns) : Reader _))
        s₁.consume)
      exact hrest.bind fun _ _ hs₂ hweight₂ => .ok hs₂ hweight₂

/-- **A block is paid for by its arrow**, whether it has an end or not. -/
theorem pays_block {s : State} (hs : s.Padded) :
    T.Pays depth (T.weight s + T.worth .openBlock) (T.weight s + T.worth .openBlock) (block sub s) := by
  generalize hu : s.enter .blockStatement = u
  have hpadded : u.Padded := hu ▸ hs
  have hweight : T.weight u = T.weight s := hu ▸ rfl
  have hconsume := weight_consume (T := T) hpadded
  have hbody := pays_statements hsub u.consume.budget hpadded.consume
  rw [hconsume, hweight] at hbody
  have hblock : T.Pays depth (T.weight s + T.worth .openBlock) (T.weight s + T.worth .openBlock)
      ((do let body ← statements sub u.consume.budget
           if (← current).kind = .eof then report (.openBlock u.current)
           return .block u.current body : Reader (Node Token)) u.consume) := by
    rw [Echo.finishBlock_apply]
    rcases hx : statements sub u.consume.budget u.consume with ⟨(_ | _) | body, s₁⟩ <;> rw [hx] at hbody
    · exact .rejected hbody.padded (hbody.weight.trans (by simp only [due]; omega))
    · exact ⟨hbody.padded, hbody.weight.trans (Nat.le_add_right _ _),
        fun _ => (hbody.deep rfl).trans (Nat.le_add_right _ _)⟩
    · have hcost := T.cost_openBlock u.current
      have hle : T.weight s₁ ≤ T.weight s := hbody.weight
      dsimp only
      split
      · exact .ok hbody.padded (by rw [weight_report]; omega)
      · exact .ok hbody.padded (by omega)
  have heq : block sub s = traced .blockStatement (do
      let opening ← current
      consume
      let body ← statements sub (← budget)
      if (← current).kind = .eof then report (.openBlock opening)
      return .block opening body) s := rfl
  rw [heq, traced, hu]
  exact ⟨hblock.padded, hblock.weight, hblock.deep⟩

/-! ## Expressions -/

omit hsub in
theorem balanced_integer : T.Balanced depth integer := by
  refine .current fun t => ?_
  split
  · exact .ite (.pure _) (.reject rfl nofun)
  · exact .reject rfl nofun

theorem balanced_unary : T.Balanced depth (unary sub) :=
  (Balanced.current fun _ => .consume ((hsub tight).bind fun _ => .pure _)).traced _

/-- What follows a block has no more to pay with than its arrow leaves. -/
theorem balanced_expect_block {f : Node Token → Reader α} (hf : ∀ b, T.Balanced depth (f b)) :
    T.Balanced depth (expect .openBlock >>= fun _ => block sub >>= f) :=
  .expect_worth fun _ hs => (pays_block hsub hs).bind fun b s' hs' hweight =>
    (hf b s' hs').mono hweight hweight

theorem balanced_alternative : T.Balanced depth (alternative sub) := by
  have hblock : T.Balanced depth (expect .openBlock >>= fun _ => block sub) :=
    .expect_worth fun _ hs => pays_block hsub hs
  exact .ahead fun _ => .ite (.consume hblock.entered) (.pure _)

theorem balanced_conditional : T.Balanced depth (conditional sub) := by
  refine Balanced.traced (.current fun _ => .expect (.consume ((hsub lowest).bind fun _ => ?_))) _
  refine .expect (balanced_expect_block hsub fun _ => ?_)
  exact (balanced_alternative hsub).bind fun _ => .pure _

theorem balanced_function : T.Balanced depth (function sub) := by
  refine Balanced.traced (.current fun _ => .expect (balanced_params.bind fun _ => ?_)) _
  exact balanced_expect_block hsub fun _ => .pure _

theorem balanced_primary : T.Balanced depth (primary sub) := by
  refine .current fun _ => ?_
  split
  · exact .pure _
  · exact balanced_integer
  · exact .pure _
  · exact .pure _
  · exact .pure _
  · exact balanced_unary hsub
  · exact balanced_unary hsub
  · exact balanced_unary hsub
  · exact balanced_unary hsub
  · exact .consume ((hsub lowest).bind fun _ => .expect (.pure _))
  · exact .current fun _ => (balanced_items hsub _).bind fun _ => .pure _
  · exact .current fun _ => .budget fun n => (balanced_entries hsub n).bind fun _ => .expect (.pure _)
  · exact balanced_conditional hsub
  · exact balanced_function hsub
  · exact .reject rfl nofun

theorem balanced_extend (left : Node Token) : T.Balanced depth (extend sub left) := by
  refine .current fun _ => ?_
  split
  · exact (Balanced.current fun _ => (balanced_items hsub _).bind fun _ => .pure _).traced _
  · refine Balanced.traced (.current fun _ => .consume ((hsub lowest).bind fun _ => ?_)) _
    exact .expect (.pure _)
  · exact (Balanced.current fun t => .consume ((hsub (bindingPower t.kind)).bind fun _ => .pure _)).traced _

theorem balanced_climb (level : Nat) : ∀ (n : Nat) (left : Node Token),
    T.Balanced depth (climb sub level n left)
  | 0, _ => .pure _
  | n + 1, left => by
    refine .ahead fun _ => .ite (.consume (Balanced.entered ?_)) (.pure _)
    exact (balanced_extend hsub left).bind fun longer => balanced_climb level n longer

end Phrases

/-- **Expressions pay with their tokens**, and those inside each other with one token each. -/
theorem entered_expression : ∀ depth level : Nat, T.Entered depth (expression depth level)
  | 0, _ => fun _ hs => ⟨hs, Nat.le_add_right _ _, fun _ => by rw [Nat.mul_zero]; exact Nat.zero_le _⟩
  | depth + 1, level => by
    have hsub := entered_expression depth
    have hinner : T.Balanced depth (do
        let left ← primary (expression depth)
        climb (expression depth) level (← budget) left) :=
      (balanced_primary hsub).bind fun left => .budget fun n => balanced_climb hsub level n left
    refine Entered.traced (fun s hs => ?_) _
    have hpays := hinner s hs
    refine ⟨hpays.padded, hpays.weight, fun hdeep => ?_⟩
    by_cases hkind : s.current.kind = .eof
    · -- no expression starts at the end of the list
      have hreject : primary (expression depth) s = reject (.noExpression .eof) s := by
        rw [primary_apply, hkind]
      rw [bind_of_error hreject] at hdeep
      cases hdeep
    · rw [Nat.mul_succ]
      exact Nat.add_le_add (hpays.deep hdeep) (T.fee_le hkind)

/-! ## Programs -/

/-- The state of a program that was read to its end, or that was stopped by the limit, in a state that
was paid for either way. -/
def Settled (T : Tariff) (limit start : Nat) (s : State) : Prop :=
  T.weight s ≤ start ∨ ∃ s', s = s'.report .tooDeep ∧ T.weight s' ≤ start ∧ T.fee * limit ≤ start

/-- **Programs pay with their tokens.** -/
theorem settled_programBody (limit : Nat) : ∀ (n : Nat) {s : State}, s.Padded →
    T.Settled limit (T.weight s + T.worth s.current.kind) (programBody (expression limit) n s).2
  | 0, _, _ => .inl (Nat.le_add_right _ _)
  | n + 1, s, hs => by
    rw [programBody_succ]
    split
    · exact .inl (Nat.le_add_right _ _)
    next hkind =>
      have hfirst := attempt_statement (entered_expression limit) hs hkind (T := T)
      have hrest {s₁ : State} (hs₁ : s₁.Padded) (hweight : T.weight s₁ ≤ T.weight s + T.worth s.current.kind) :
          T.Settled limit (T.weight s + T.worth s.current.kind)
            (programBody (expression limit) n s₁.consume).2 := by
        have hle := (weight_consume (T := T) hs₁).le.trans hweight
        exact (settled_programBody limit n hs₁.consume).imp (·.trans hle) fun ⟨s', heq, hw, hdeep⟩ =>
          ⟨s', heq, hw.trans hle, hdeep.trans hle⟩
      rw [Echo.attempt_apply] at hfirst
      rcases hx : statement (expression limit) s with ⟨(_ | _) | stmt, s₁⟩ <;> rw [hx] at hfirst
      · exact hrest hfirst.padded hfirst.weight
      · exact .inr ⟨s₁, rfl, hfirst.weight, hfirst.deep rfl⟩
      · exact hrest hfirst.padded hfirst.weight

/-- At the start all tokens are ahead, but for the first one, which is the current one. -/
theorem weight_start (T : Tariff) (tokens : List Token) :
    T.weight (State.start tokens) + T.worth (State.start tokens).current.kind =
      (tokens.map fun t => T.worth t.kind).sum := by
  let ending : Token := { kind := .eof, literal := "" }
  let before : State := { current := ending, ahead := ending, rest := tokens, ending }
  have hbefore : before.Padded := rfl
  have hending : T.worth before.consume.current.kind = 0 := by
    rw [State.current_consume]
    exact T.worth_eof
  have hweight : T.weight before = (tokens.map fun t => T.worth t.kind).sum := by
    simp [weight, before, ending, T.worth_eof]
  rw [show State.start tokens = before.consume.consume from rfl, weight_consume hbefore.consume, ← hweight,
    ← weight_consume hbefore, hending, Nat.add_zero]

theorem settled_program (T : Tariff) (limit : Nat) (tokens : List Token) : ∃ s : State,
    (program limit tokens).problems = s.problems.toList ∧
      T.Settled limit (tokens.map fun t => T.worth t.kind).sum s := by
  refine ⟨(programBody (expression limit) (State.start tokens).budget (State.start tokens)).2, rfl, ?_⟩
  rw [← weight_start T tokens]
  exact settled_programBody limit _ (State.padded_start tokens)

theorem cost_le_weight (s : State) : (s.problems.toList.map T.cost).sum ≤ T.weight s :=
  Nat.le_add_right _ _

/-! ## Two tariffs -/

/-- A token is worth a problem. Being stopped by the limit costs more than `n` tokens. -/
def counting (n : Nat) : Tariff where
  worth kind := if kind = .eof then 0 else 1
  cost p := if p = .tooDeep then n + 1 else 1
  fee := 1
  worth_eof := rfl
  fee_le h := by rw [if_neg h]
  cost_le_fee _ h := by rw [if_neg h]
  cost_openBlock _ := Nat.le_refl 1

/-- An arrow is worth a block without an end, and nothing else costs anything. -/
def arrows : Tariff where
  worth kind := if kind = .openBlock then 1 else 0
  cost p := if p.isOpenBlock then 1 else 0
  fee := 0
  worth_eof := rfl
  fee_le _ := Nat.zero_le _
  cost_le_fee h _ := by simp [h]
  cost_openBlock _ := Nat.le_refl 1

theorem sum_counting_le (n : Nat) (tokens : List Token) :
    (tokens.map fun t => (counting n).worth t.kind).sum ≤ tokens.length := by
  have hworth : ∀ w ∈ tokens.map fun t => (counting n).worth t.kind, w ≤ 1 := by
    intro w hw
    obtain ⟨t, -, rfl⟩ := List.mem_map.1 hw
    dsimp only [counting]
    split <;> omega
  simpa using List.sum_le_card_nsmul _ 1 hworth

/-- Problems that `n` tokens can pay for are no more than `n`, and the limit is not among them. -/
theorem counting_bound {n : Nat} {s : State} (h : (counting n).weight s ≤ n) :
    s.problems.toList.length ≤ n ∧ .tooDeep ∉ s.problems.toList := by
  have hsum := (cost_le_weight s).trans h
  constructor
  · have hcost : ∀ c ∈ s.problems.toList.map (counting n).cost, 1 ≤ c := by
      intro c hc
      obtain ⟨p, -, rfl⟩ := List.mem_map.1 hc
      dsimp only [counting]
      split <;> omega
    have hlength := List.length_le_sum_of_one_le _ hcost
    rw [List.length_map] at hlength
    exact hlength.trans hsum
  · intro hmem
    have hcost : n + 1 ≤ _ := List.le_sum_of_mem (List.mem_map_of_mem (f := (counting n).cost) hmem)
    omega

end Tariff

/-- **The problems of a program.** There are no more than it has tokens, the one about the nesting
apart, which comes last. It comes only where the limit is no more than the number of tokens. -/
theorem problems_program (limit : Nat) (tokens : List Token) : ∃ found : List Problem,
    found.length ≤ tokens.length ∧ .tooDeep ∉ found ∧
      ((program limit tokens).problems = found ∨
        (program limit tokens).problems = found ++ [.tooDeep] ∧ limit ≤ tokens.length) := by
  obtain ⟨s, hproblems, hsettled⟩ := (Tariff.counting tokens.length).settled_program limit tokens
  have htokens := Tariff.sum_counting_le tokens.length tokens
  rw [hproblems]
  rcases hsettled with hweight | ⟨s', rfl, hweight, hdeep⟩
  · obtain ⟨hlength, hmem⟩ := Tariff.counting_bound (hweight.trans htokens)
    exact ⟨_, hlength, hmem, .inl rfl⟩
  · obtain ⟨hlength, hmem⟩ := Tariff.counting_bound (hweight.trans htokens)
    refine ⟨_, hlength, hmem, .inr ⟨?_, ?_⟩⟩
    · rw [State.problems_report, Array.toList_push]
    · have hfee : 1 * limit ≤ _ := hdeep.trans htokens
      rwa [Nat.one_mul] at hfee

/-- **Without arrows no block is without an end.** -/
theorem openBlock_not_mem (limit : Nat) {tokens : List Token} (h : ∀ t ∈ tokens, t.kind ≠ .openBlock)
    (opening : Token) : .openBlock opening ∉ (program limit tokens).problems := by
  have hzero : (tokens.map fun t => Tariff.arrows.worth t.kind).sum = 0 := by
    refine List.sum_eq_zero_iff_forall_eq_nat.2 fun w hw => ?_
    obtain ⟨t, ht, rfl⟩ := List.mem_map.1 hw
    exact if_neg (h t ht)
  obtain ⟨s, hproblems, hsettled⟩ := Tariff.arrows.settled_program limit tokens
  have hweight : Tariff.arrows.weight s = 0 := by
    rw [hzero] at hsettled
    rcases hsettled with hweight | ⟨s', rfl, hweight, -⟩
    · omega
    · rw [Tariff.weight_report, Nat.le_zero.1 hweight]
      rfl
  rw [hproblems]
  intro hmem
  have hcost : 1 ≤ _ := List.le_sum_of_mem (List.mem_map_of_mem (f := Tariff.arrows.cost) hmem)
  have := Tariff.cost_le_weight (T := Tariff.arrows) s
  omega

end SepiaLang.Parse
