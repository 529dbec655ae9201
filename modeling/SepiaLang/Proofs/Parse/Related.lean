import SepiaLang.Proofs.Parse.Echo
import SepiaLang.Proofs.Parse.Sound

/-!
# Relations that all phrases keep

A relation of readers that is kept by every way to build a reader is kept by every phrase: where the
readers of the expressions inside are related, so are the readers of the whole. The rounds of a loop
are the one thing that takes an argument, since they are counted by the tokens in the state: a loop
moves the window on in each round, so that it does the same for all counts that are large enough.

* `Forward`: the reader never moves the window back.
* `Steady`: the loop does the same, however many rounds it may take, as long as they are enough.
* `Compatible`: a relation with a rule for each way to build a reader.
* `related_statement`, `related_primary`, `related_climb`: the phrases.
* **`forward_expression`**: expressions never move the window back.
* **`related_expression`**: expressions are related, at two depths of nesting of which one may be larger.
-/

namespace SepiaLang.Parse

open SepiaLang.Computation

variable {α β : Type}

/-! ## Moving on -/

/-- Fewer than `k` tokens are to come. -/
def State.Within (k : Nat) (s : State) : Prop := s.Padded ∧ s.left < k

namespace State.Within

variable {k : Nat} {s : State}

theorem consume (h : s.Within k) : s.consume.Within k :=
  ⟨h.1.consume, Nat.lt_of_le_of_lt (left_consume_le h.1) h.2⟩

/-- A token that is passed over is no longer to come. -/
theorem consume_lt (h : s.Within (k + 1)) (hahead : s.ahead.kind ≠ .eof) : s.consume.Within k := by
  have := left_consume h.1 hahead
  exact ⟨h.1.consume, by have := h.2; omega⟩

end State.Within

/-- However many tokens are to come, after the reader there are not more. -/
def Forward (r : Reader α) : Prop :=
  ∀ k, Keeps (State.Within k) (fun _ => True) (fun _ => True) r

/-- The loop does the same for all numbers of rounds that exceed the tokens to come. -/
def Steady (loop : Nat → Reader α) : Prop :=
  ∀ k n m, k ≤ n → k ≤ m → EqOn (State.Within k) (loop n) (loop m)

theorem Forward.within {r : Reader α} (h : Forward r) {k : Nat} {s : State} (hs : s.Within k) :
    (r s).2.Within k := (h k s hs).1

/-- **One round more.** Loops are steady if their rounds are, where the next round may start from
states with fewer tokens only. -/
theorem Steady.of_round {ι : Type} {l : ι → Nat → Reader α}
    (h : ∀ k n m, (∀ i, EqOn (State.Within k) (l i n) (l i m)) →
      ∀ i, EqOn (State.Within (k + 1)) (l i (n + 1)) (l i (m + 1))) (i : ι) : Steady (l i) := by
  intro k
  induction k generalizing i with
  | zero => exact fun _ _ _ _ s hs => absurd hs.2 (Nat.not_lt_zero _)
  | succ k ih =>
    intro n m hn hm
    obtain ⟨n, rfl⟩ := Nat.exists_eq_add_one.2 (Nat.zero_lt_of_lt hn)
    obtain ⟨m, rfl⟩ := Nat.exists_eq_add_one.2 (Nat.zero_lt_of_lt hm)
    exact h k n m (fun i => ih i n m (by omega) (by omega)) i

theorem eqOn_bind_left {I : State → Prop} {r r' : Reader α} (h : EqOn I r r') (f : α → Reader β) :
    EqOn I (r >>= f) (r' >>= f) := fun s hs => by rw [bind_apply, bind_apply, h s hs]

theorem eqOn_ahead {I : State → Prop} {g g' : Token → Reader α} (h : ∀ s, I s → g s.ahead s = g' s.ahead s) :
    EqOn I (ahead >>= g) (ahead >>= g') := h

theorem Steady.bind {loop : Nat → Reader α} (h : Steady loop) (f : α → Reader β) :
    Steady fun n => loop n >>= f := fun k n m hn hm => eqOn_bind_left (h k n m hn hm) f

/-- The rounds that the state allows are enough. -/
theorem Steady.at_budget {loop : Nat → Reader α} (h : Steady loop) {s : State} (hs : s.Padded) {n : Nat}
    (hn : s.budget ≤ n) : (budget >>= loop) s = loop n s :=
  h s.budget s.budget n (Nat.le_refl _) hn s ⟨hs, s.left_lt_budget⟩

/-- What comes after a reader that moves on can be looked at by itself. -/
theorem Forward.eqOn_bind {r : Reader α} (hr : Forward r) {k : Nat} {f f' : α → Reader β}
    (hf : ∀ a, EqOn (State.Within k) (f a) (f' a)) : EqOn (State.Within k) (r >>= f) (r >>= f') :=
  EqOn.bind (.refl r) (hr k) fun a _ => hf a

/-! ## Relations -/

/-- Reads a phrase and passes over what stands after it, also if the phrase is given up. -/
def regardless (r : Reader α) (after : Reader Unit) (make : α → β) : Reader β := do
  let found ← attempt r
  after
  match found with
  | some a => return make a
  | none => throw .rejected

/-- The relation is kept by every way to build a reader. What a reader gives up it has reported, so
there is no rule for giving up by itself. -/
structure Compatible (R : (α : Type) → Reader α → Reader α → Prop) : Prop where
  pure : ∀ {α : Type} (a : α), R α (pure a) (pure a)
  bind : ∀ {α β : Type} {r r' : Reader α} {f f' : α → Reader β},
    R α r r' → (∀ a, R β (f a) (f' a)) → R β (r >>= f) (r' >>= f')
  current : R Token current current
  ahead : R Token ahead ahead
  consume : R Unit consume consume
  report : ∀ p, R Unit (report p) (report p)
  reject : ∀ {α : Type} p, R α (reject p) (reject p)
  budget : ∀ {α : Type} {l l' : Nat → Reader α}, Steady l → Steady l' → (∀ n, R α (l n) (l' n)) →
    R α (budget >>= l) (budget >>= l')
  traced : ∀ {α : Type} phrase {r r' : Reader α}, R α r r' → R α (traced phrase r) (traced phrase r')
  attempt : ∀ {α : Type} {r r' : Reader α}, R α r r' → R (Option α) (attempt r) (attempt r')
  regardless : ∀ {α β : Type} {r r' : Reader α} {a a' : Reader Unit} (make : α → β),
    R α r r' → R Unit a a' → R β (regardless r a make) (regardless r' a' make)

variable {R : (α : Type) → Reader α → Reader α → Prop}

/-- Both readers of expressions move on, and they are related, from the lowest level up. -/
structure Sub.Related (R : (α : Type) → Reader α → Reader α → Prop) (sub sub' : Sub) : Prop where
  forward : ∀ level, lowest ≤ level → Forward (sub level)
  forward' : ∀ level, lowest ≤ level → Forward (sub' level)
  related : ∀ level, lowest ≤ level → R (Node Token) (sub level) (sub' level)

theorem Sub.Related.lowest {sub sub' : Sub} (h : Sub.Related R sub sub') :
    R (Node Token) (sub Parse.lowest) (sub' Parse.lowest) := h.related _ (Nat.le_refl _)

/-! ## Rules for what is built -/

theorem related_ite {c : Prop} [Decidable c] {r₁ r₂ r₁' r₂' : Reader α} (h₁ : R α r₁ r₁')
    (h₂ : R α r₂ r₂') : R α (if c then r₁ else r₂) (if c then r₁' else r₂') := by
  split
  · exact h₁
  · exact h₂

theorem Compatible.expect (hR : Compatible R) (kind : Kind) : R Unit (expect kind) (expect kind) :=
  hR.bind hR.ahead fun _ => related_ite hR.consume (hR.reject _)

theorem Compatible.skip (hR : Compatible R) (kind : Kind) : R Unit (skip kind) (skip kind) :=
  hR.bind hR.ahead fun _ => related_ite hR.consume (hR.pure _)

theorem Forward.attempt {r : Reader α} (h : Forward r) : Forward (attempt r) := fun k s hs => by
  rw [Echo.attempt_apply]
  exact ⟨h.within hs, by split <;> trivial⟩

theorem Forward.traced {r : Reader α} (h : Forward r) (phrase : Phrase) : Forward (traced phrase r) :=
  fun k s hs => ⟨(h k (s.enter phrase) hs).1, by split <;> trivial⟩

/-- **Readers that move on**, taken twice. -/
theorem compatible_forward : Compatible fun _ r _ => Forward r where
  pure a _ := .pure trivial
  bind hr hf k := .bind (hr k) fun a _ => hf a k
  current _ := fun _ hs => ⟨hs, trivial⟩
  ahead _ := fun _ hs => ⟨hs, trivial⟩
  consume _ := fun _ hs => ⟨hs.consume, trivial⟩
  report _ _ := fun _ hs => ⟨hs, trivial⟩
  reject _ _ := fun _ hs => ⟨hs, trivial⟩
  budget _ _ h k := fun s hs => h s.budget k s hs
  traced phrase _ _ h := h.traced phrase
  attempt h := h.attempt
  regardless make hr ha k := by
    refine .bind (hr.attempt k) fun found _ => .bind (ha k) fun _ _ => ?_
    cases found with
    | some a => exact .pure trivial
    | none => exact .throw trivial

/-! ## Lists -/

theorem related_moreParams (hR : Compatible R) : ∀ n, R _ (moreParams n) (moreParams n)
  | 0 => hR.pure _
  | n + 1 => by
    refine hR.bind hR.ahead fun _ => related_ite (hR.bind hR.consume fun _ => ?_) (hR.pure _)
    refine hR.bind (hR.expect _) fun _ => hR.bind hR.current fun _ => ?_
    exact hR.bind (related_moreParams hR n) fun _ => hR.pure _

theorem steady_moreParams : Steady moreParams := by
  refine Steady.of_round (l := fun (_ : Unit) => moreParams) ?_ ()
  intro k n m ih _
  refine eqOn_ahead fun s hs => ?_
  split
  next hcomma =>
    -- the comma is off the list when the next round starts
    refine (Forward.eqOn_bind (compatible_forward.expect _) fun _ => ?_) s.consume
      (hs.consume_lt (by simp [hcomma]))
    exact compatible_forward.current.eqOn_bind fun _ => eqOn_bind_left (ih ()) _
  next => rfl

theorem related_params (hR : Compatible R) : R _ params params := by
  refine hR.bind hR.ahead fun _ => related_ite (hR.bind hR.consume fun _ => hR.pure _) ?_
  refine hR.bind (hR.expect _) fun _ => hR.bind hR.current fun name => ?_
  refine hR.budget ?_ ?_ fun n => ?_
  · exact steady_moreParams.bind _
  · exact steady_moreParams.bind _
  · exact hR.bind (related_moreParams hR n) fun _ => hR.bind (hR.expect _) fun _ => hR.pure _

variable {sub sub' : Sub}

theorem steady_moreItems (hsub : Forward (sub lowest)) : Steady (moreItems sub) := by
  refine Steady.of_round (l := fun (_ : Unit) => moreItems sub) ?_ ()
  intro k n m ih _
  refine eqOn_ahead fun s hs => ?_
  split
  next hcomma =>
    refine (hsub.eqOn_bind fun _ => ?_) s.consume.consume (hs.consume_lt (by simp [hcomma])).consume
    exact eqOn_bind_left (ih ()) _
  next => rfl

theorem steady_entries (hsub : Forward (sub lowest)) : Steady (entries sub) := by
  have hexpect := compatible_forward.expect
  refine Steady.of_round (l := fun (_ : Unit) => entries sub) ?_ ()
  intro k n m ih _
  refine eqOn_ahead fun s hs => ?_
  split
  next => rfl
  next hopen =>
    refine (hsub.eqOn_bind fun key => ?_) s.consume (hs.consume_lt fun h => hopen (.inr h))
    refine (hexpect _).eqOn_bind fun _ => compatible_forward.consume.eqOn_bind fun _ => ?_
    refine hsub.eqOn_bind fun value => eqOn_ahead fun s' hs' => ?_
    dsimp only
    split
    · exact (hexpect _).eqOn_bind (fun _ => eqOn_bind_left (ih ()) _) s' hs'
    · exact eqOn_bind_left (ih ()) _ s' hs'

theorem steady_skipToSemicolon : Steady skipToSemicolon := by
  refine Steady.of_round (l := fun (_ : Unit) => skipToSemicolon) ?_ ()
  intro k n m ih _
  refine compatible_forward.current.eqOn_bind fun here => eqOn_ahead fun s hs => ?_
  split
  next => rfl
  next hopen => exact ih () s.consume (hs.consume_lt fun h => hopen (.inr (.inr (.inl h))))

section Phrases

variable (hR : Compatible R) (hsub : Sub.Related R sub sub')
include hR hsub

theorem related_moreItems : ∀ n, R _ (moreItems sub n) (moreItems sub' n)
  | 0 => hR.pure _
  | n + 1 => by
    refine hR.bind hR.ahead fun _ => related_ite (hR.bind hR.consume fun _ => ?_) (hR.pure _)
    refine hR.bind hR.consume fun _ => hR.bind hsub.lowest fun _ => ?_
    exact hR.bind (related_moreItems n) fun _ => hR.pure _

theorem related_items (closing : Kind) : R _ (items sub closing) (items sub' closing) := by
  refine hR.bind hR.ahead fun _ => related_ite (hR.bind hR.consume fun _ => hR.pure _) ?_
  refine hR.bind hR.consume fun _ => hR.bind hsub.lowest fun item => hR.budget ?_ ?_ fun n => ?_
  · exact (steady_moreItems (hsub.forward _ (Nat.le_refl _))).bind _
  · exact (steady_moreItems (hsub.forward' _ (Nat.le_refl _))).bind _
  · exact hR.bind (related_moreItems hR hsub n) fun _ => hR.bind (hR.expect _) fun _ => hR.pure _

theorem related_entries : ∀ n, R _ (entries sub n) (entries sub' n)
  | 0 => hR.pure _
  | n + 1 => by
    have hrest (key value : Node Token) : R _ (do return (key, value) :: (← entries sub n))
        (do return (key, value) :: (← entries sub' n)) :=
      hR.bind (related_entries n) fun _ => hR.pure _
    refine hR.bind hR.ahead fun _ => related_ite (hR.pure _) (hR.bind hR.consume fun _ => ?_)
    refine hR.bind hsub.lowest fun key => hR.bind (hR.expect _) fun _ => hR.bind hR.consume fun _ => ?_
    refine hR.bind hsub.lowest fun value => hR.bind hR.ahead fun _ => ?_
    dsimp only
    exact related_ite (hR.bind (hR.expect _) fun _ => hrest key value) (hrest key value)

/-! ## Statements -/

theorem related_binding : R _ (binding sub) (binding sub') := by
  refine hR.bind (hR.expect _) fun _ => hR.bind hR.current fun _ => hR.bind (hR.expect _) fun _ => ?_
  refine hR.bind hR.consume fun _ => hR.bind hsub.lowest fun _ => hR.bind (hR.skip _) fun _ => ?_
  exact hR.pure _

omit hsub in
theorem related_skipToSemicolon : ∀ n, R _ (skipToSemicolon n) (skipToSemicolon n)
  | 0 => hR.pure _
  | n + 1 => hR.bind hR.current fun _ => hR.bind hR.ahead fun _ => related_ite (hR.pure _)
      (hR.bind hR.consume fun _ => related_skipToSemicolon n)

omit hR hsub in
theorem returnStatement_eq : returnStatement sub = traced .returnStatement (do
    let first ← current
    consume
    regardless (sub lowest) (budget >>= skipToSemicolon) (.returnStmt first)) := by
  refine congrArg (traced _) (bind_congr fun first => bind_congr fun _ => bind_congr fun found => ?_)
  rw [bind_assoc]
  refine bind_congr fun n => bind_congr fun _ => ?_
  cases found <;> rfl

omit hR hsub in
theorem expressionStatement_eq : expressionStatement sub = traced .expressionStatement (do
    regardless (sub lowest) (skip .semicolon) (.expressionStmt (← current))) := by
  refine congrArg (traced _) (bind_congr fun first => bind_congr fun found => bind_congr fun _ => ?_)
  cases found <;> rfl

theorem related_returnStatement : R _ (returnStatement sub) (returnStatement sub') := by
  have hafter : R _ (budget >>= skipToSemicolon) (budget >>= skipToSemicolon) :=
    hR.budget steady_skipToSemicolon steady_skipToSemicolon (related_skipToSemicolon hR)
  rw [returnStatement_eq, returnStatement_eq]
  refine hR.traced _ (hR.bind hR.current fun _ => hR.bind hR.consume fun _ => ?_)
  exact hR.regardless _ hsub.lowest hafter

theorem related_expressionStatement : R _ (expressionStatement sub) (expressionStatement sub') := by
  rw [expressionStatement_eq, expressionStatement_eq]
  exact hR.traced _ (hR.bind hR.current fun _ => hR.regardless _ hsub.lowest (hR.skip _))

theorem related_statement : R _ (statement sub) (statement sub') := by
  refine hR.bind hR.current fun _ => ?_
  split
  · exact hR.traced _ (hR.bind hR.current fun _ => hR.bind (related_binding hR hsub) fun _ => hR.pure _)
  · exact hR.traced _ (hR.bind hR.current fun _ => hR.bind (related_binding hR hsub) fun _ => hR.pure _)
  · exact related_returnStatement hR hsub
  · exact related_expressionStatement hR hsub

theorem related_statements : ∀ n, R _ (statements sub n) (statements sub' n)
  | 0 => hR.pure _
  | n + 1 => by
    refine hR.bind hR.current fun _ => related_ite (hR.pure _) ?_
    refine hR.bind (hR.attempt (related_statement hR hsub)) fun _ => hR.bind hR.consume fun _ => ?_
    exact hR.bind (related_statements n) fun _ => hR.pure _

end Phrases

/-- Expressions from the lowest level up move on. -/
def Sub.Forward (sub : Sub) : Prop := ∀ level, lowest ≤ level → Parse.Forward (sub level)

theorem Sub.Forward.related (h : sub.Forward) : Sub.Related (fun _ r _ => Parse.Forward r) sub sub :=
  ⟨h, h, h⟩

/-- A block ends where the list does, and otherwise every statement takes a token off it. -/
theorem steady_statements (hsub : sub.Forward) : Steady (statements sub) := by
  have hstatement := related_statement compatible_forward hsub.related
  refine Steady.of_round (l := fun (_ : Unit) => statements sub) ?_ ()
  intro k n m ih _
  refine compatible_forward.current.eqOn_bind fun here => ?_
  split
  next => exact .refl _
  next =>
    refine hstatement.attempt.eqOn_bind fun found s hs => ?_
    by_cases heof : s.ahead.kind = .eof
    · have hclosed : ∀ n, statements sub n s.consume = (.ok [], s.consume) :=
        statements_of_closing (.inr (by simpa using heof))
      change (statements sub n >>= _) s.consume = (statements sub m >>= _) s.consume
      rw [bind_of_ok (hclosed n), bind_of_ok (hclosed m)]
    · exact eqOn_bind_left (ih ()) _ s.consume (hs.consume_lt heof)

/-! ## Expressions -/

section Expressions

variable (hR : Compatible R) (hsub : Sub.Related R sub sub')
include hR hsub

theorem related_block : R _ (block sub) (block sub') := by
  refine hR.traced _ (hR.bind hR.current fun _ => hR.bind hR.consume fun _ => hR.budget ?_ ?_ fun n => ?_)
  · exact (steady_statements hsub.forward).bind _
  · exact (steady_statements hsub.forward').bind _
  · refine hR.bind (related_statements hR hsub n) fun _ => hR.bind hR.current fun _ => ?_
    exact related_ite (hR.bind (hR.report _) fun _ => hR.pure _) (hR.pure _)

omit hsub in
theorem related_integer : R _ integer integer := by
  refine hR.bind hR.current fun _ => ?_
  split
  · exact related_ite (hR.pure _) (hR.reject _)
  · exact hR.reject _

theorem related_unary : R _ (unary sub) (unary sub') := by
  refine hR.traced _ (hR.bind hR.current fun _ => hR.bind hR.consume fun _ => ?_)
  exact hR.bind (hsub.related _ (by decide)) fun _ => hR.pure _

theorem related_alternative : R _ (alternative sub) (alternative sub') := by
  refine hR.bind hR.ahead fun _ => related_ite (hR.bind hR.consume fun _ => ?_) (hR.pure _)
  exact hR.bind (hR.expect _) fun _ => related_block hR hsub

theorem related_conditional : R _ (conditional sub) (conditional sub') := by
  refine hR.traced _ (hR.bind hR.current fun _ => hR.bind (hR.expect _) fun _ => ?_)
  refine hR.bind hR.consume fun _ => hR.bind hsub.lowest fun _ => hR.bind (hR.expect _) fun _ => ?_
  refine hR.bind (hR.expect _) fun _ => hR.bind (related_block hR hsub) fun _ => ?_
  exact hR.bind (related_alternative hR hsub) fun _ => hR.pure _

theorem related_function : R _ (function sub) (function sub') := by
  refine hR.traced _ (hR.bind hR.current fun _ => hR.bind (hR.expect _) fun _ => ?_)
  refine hR.bind (related_params hR) fun _ => hR.bind (hR.expect _) fun _ => ?_
  exact hR.bind (related_block hR hsub) fun _ => hR.pure _

theorem related_map : R _ (map sub) (map sub') := by
  refine hR.bind hR.current fun _ => hR.budget ?_ ?_ fun n => ?_
  · exact (steady_entries (hsub.forward _ (Nat.le_refl _))).bind _
  · exact (steady_entries (hsub.forward' _ (Nat.le_refl _))).bind _
  · exact hR.bind (related_entries hR hsub n) fun _ => hR.bind (hR.expect _) fun _ => hR.pure _

theorem related_primary : R _ (primary sub) (primary sub') := by
  refine hR.bind hR.current fun _ => ?_
  split
  · exact hR.pure _
  · exact related_integer hR
  · exact hR.pure _
  · exact hR.pure _
  · exact hR.pure _
  · exact related_unary hR hsub
  · exact related_unary hR hsub
  · exact related_unary hR hsub
  · exact related_unary hR hsub
  · refine hR.bind hR.consume fun _ => hR.bind hsub.lowest fun _ => ?_
    exact hR.bind (hR.expect _) fun _ => hR.pure _
  · exact hR.bind hR.current fun _ => hR.bind (related_items hR hsub _) fun _ => hR.pure _
  · exact related_map hR hsub
  · exact related_conditional hR hsub
  · exact related_function hR hsub
  · exact hR.reject _

theorem related_extend (left : Node Token) : R _ (extend sub left) (extend sub' left) := by
  refine hR.bind hR.current fun _ => ?_
  split
  · refine hR.traced _ (hR.bind hR.current fun _ => ?_)
    exact hR.bind (related_items hR hsub _) fun _ => hR.pure _
  · refine hR.traced _ (hR.bind hR.current fun _ => hR.bind hR.consume fun _ => ?_)
    exact hR.bind hsub.lowest fun _ => hR.bind (hR.expect _) fun _ => hR.pure _
  · refine hR.traced _ (hR.bind hR.current fun _ => hR.bind hR.consume fun _ => ?_)
    exact hR.bind (hsub.related _ (lowest_le_bindingPower _)) fun _ => hR.pure _

theorem related_climb (level : Nat) :
    ∀ (n : Nat) (left : Node Token), R _ (climb sub level n left) (climb sub' level n left)
  | 0, _ => hR.pure _
  | n + 1, left => hR.bind hR.ahead fun _ => related_ite
      (hR.bind hR.consume fun _ => hR.bind (related_extend hR hsub left) fun longer =>
        related_climb level n longer) (hR.pure _)

end Expressions

/-- Above the lowest level no token but an operator goes on with an expression. -/
theorem steady_climb (hsub : sub.Forward) {level : Nat} (hlevel : lowest ≤ level) :
    ∀ left, Steady fun n => climb sub level n left := by
  refine Steady.of_round fun k n m ih left => eqOn_ahead fun s hs => ?_
  split
  next hbinds =>
    have hahead : s.ahead.kind ≠ .eof := by
      intro heof
      rw [heof] at hbinds
      exact Nat.not_lt.2 hlevel hbinds
    have hextend := related_extend compatible_forward hsub.related left
    exact (hextend.eqOn_bind fun longer => ih longer) s.consume (hs.consume_lt hahead)
  next => rfl

/-- **One expression around others.** Expressions are related if those inside are. -/
theorem related_deeper (hR : Compatible R) {depth depth' : Nat}
    (hsub : Sub.Related R (expression depth) (expression depth')) {level : Nat} (hlevel : lowest ≤ level) :
    R _ (expression (depth + 1) level) (expression (depth' + 1) level) := by
  refine hR.traced _ (hR.bind (related_primary hR hsub) fun left => hR.budget ?_ ?_ fun n => ?_)
  · exact steady_climb hsub.forward hlevel left
  · exact steady_climb hsub.forward' hlevel left
  · exact related_climb hR hsub level n left

/-- **Expressions move on**, at every depth of nesting. -/
theorem forward_expression : ∀ depth : Nat, Sub.Forward (expression depth)
  | 0, _, _ => fun _ _ hs => ⟨hs, trivial⟩
  | depth + 1, _, hlevel => related_deeper compatible_forward (forward_expression depth).related hlevel

/-- **Expressions are related** at two depths of nesting, if they are where the first one allows of
none. -/
theorem related_expression (hR : Compatible R) (more : Nat)
    (hzero : ∀ level, lowest ≤ level → R _ (expression 0 level) (expression more level)) :
    ∀ depth : Nat, Sub.Related R (expression depth) (expression (more + depth))
  | 0 => ⟨forward_expression 0, forward_expression more, hzero⟩
  | depth + 1 => ⟨forward_expression _, forward_expression _, fun _ hlevel =>
      related_deeper hR (related_expression hR more hzero depth) hlevel⟩

/-- **Expressions are related to themselves**, if giving up at the limit is. -/
theorem related_itself (hR : Compatible R) (hstop : R (Node Token) (throw .tooDeep) (throw .tooDeep))
    (depth : Nat) : Sub.Related R (expression depth) (expression depth) := by
  have := related_expression hR 0 (fun _ _ => hstop) depth
  rwa [Nat.zero_add] at this

end SepiaLang.Parse
