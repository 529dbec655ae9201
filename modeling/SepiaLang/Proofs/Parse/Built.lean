import SepiaLang.Proofs.Numeral
import SepiaLang.Proofs.Parse.Sound
import SepiaLang.Proofs.Scan.Partition
import SepiaLang.Syntax.Depth

/-!
# Trees from tokens

Whether or not there are problems, the trees that are read are sensible ones: no part is missing but
an `else` branch, and every name, literal and operator is what is written in a token of the right kind
from the list.

* `Built`: a tree whose names, literals and operators come from tokens with a property.
* `Builds`: a reader of such trees, from one state.
* `builds_expression`: so are expressions, at every depth of nesting.
* **`built_program`**: and whole programs. `built_parseSource`: from a text, they are built from lexemes.
-/

namespace SepiaLang.Parse

open SepiaLang.Computation

/-- The name is written in a token that satisfies `P`. -/
def Named (P : Token → Prop) (x : Ident Token) : Prop :=
  ∃ t : Token, P t ∧ t.kind = .ident ∧ x = ⟨t.literal, t⟩

/-- The tree lacks no part but perhaps `else` branches, and what is in it is written in tokens that
satisfy `P`. -/
inductive Built (P : Token → Prop) : Node Token → Prop
  | program {ns : List (Node Token)} (h : ∀ n ∈ ns, Built P n) : Built P (.program ns)
  | expressionStmt {t : Token} {n : Node Token} (h : Built P n) : Built P (.expressionStmt t n)
  | valueStmt {t : Token} {x : Ident Token} {n : Node Token} (hx : Named P x) (h : Built P n) :
      Built P (.valueStmt t x n)
  | updateStmt {t : Token} {x : Ident Token} {n : Node Token} (hx : Named P x) (h : Built P n) :
      Built P (.updateStmt t x n)
  | returnStmt {t : Token} {n : Node Token} (h : Built P n) : Built P (.returnStmt t n)
  | block {t : Token} {ns : List (Node Token)} (h : ∀ n ∈ ns, Built P n) : Built P (.block t ns)
  | integer {t : Token} {n : Int} (ht : P t) (hk : t.kind = .int)
      (hn : Text.readInt t.literal = .ok n) (hle : n ≤ Word64.greatest) : Built P (.integer t n)
  | boolean {t : Token} {b : Bool} : Built P (.boolean t b)
  | string {t : Token} (ht : P t) (hk : t.kind = .string) : Built P (.string t t.literal)
  | identifier {t : Token} (ht : P t) (hk : t.kind = .ident) : Built P (.identifier t t.literal)
  | unary {t : Token} {n : Node Token} (ht : P t) (hk : t.kind ∈ prefixKinds) (h : Built P n) :
      Built P (.unary t t.literal n)
  | binary {t : Token} {l r : Node Token} (ht : P t) (hk : t.kind ∈ infixKinds) (hl : Built P l)
      (hr : Built P r) : Built P (.binary t t.literal l r)
  | conditional {t : Token} {c b e : Node Token} (hc : Built P c) (hb : Built P b)
      (he : e ≠ .absent → Built P e) : Built P (.conditional t c b e)
  | function {t : Token} {xs : List (Ident Token)} {b : Node Token} (hxs : ∀ x ∈ xs, Named P x)
      (hb : Built P b) : Built P (.function t xs b)
  | call {t : Token} {f : Node Token} {args : List (Node Token)} (hf : Built P f)
      (hargs : ∀ n ∈ args, Built P n) : Built P (.call t f args)
  | array {t : Token} {ns : List (Node Token)} (h : ∀ n ∈ ns, Built P n) : Built P (.array t ns)
  | index {t : Token} {l i : Node Token} (hl : Built P l) (hi : Built P i) : Built P (.index t l i)
  | map {t : Token} {ps : List (Node Token × Node Token)} (hks : ∀ p ∈ ps, Built P p.1)
      (hvs : ∀ p ∈ ps, Built P p.2) : Built P (.map t ps)

theorem Built.ne_absent {P : Token → Prop} {n : Node Token} (h : Built P n) : n ≠ .absent := by
  rintro rfl
  cases h

/-- The parts that such a tree needs are such trees. -/
theorem Built.part {P : Token → Prop} {n m : Node Token} (h : Built P n) (hm : m ∈ n.needed) :
    Built P m := by
  cases h with
  | integer | boolean | string | identifier => cases hm
  | program h | block h | array h => exact h m hm
  | expressionStmt h | valueStmt _ h | updateStmt _ h | returnStmt h | unary _ _ h | function _ h =>
    rw [List.mem_singleton.1 hm]
    exact h
  | binary _ _ hl hr | index hl hr | conditional hl hr =>
    rcases List.mem_cons.1 hm with rfl | hm
    · exact hl
    · rw [List.mem_singleton.1 hm]
      exact hr
  | call hf hargs =>
    rcases List.mem_cons.1 hm with rfl | hm
    · exact hf
    · exact hargs m hm
  | map hks hvs =>
    obtain ⟨p, hp, hm⟩ := List.mem_flatMap.1 hm
    rcases List.mem_cons.1 hm with rfl | hm
    · exact hks p hp
    · rw [List.mem_singleton.1 hm]
      exact hvs p hp

/-- The parts of such a tree are such trees, unless they are missing. -/
theorem Built.child {P : Token → Prop} {n m : Node Token} (h : Built P n) (hm : m ∈ n.children)
    (hne : m ≠ .absent) : Built P m := by
  rcases Node.mem_needed_or_alternative hm with hm | ⟨t, c, b, rfl⟩
  · exact h.part hm
  · cases h with
    | conditional _ _ he => exact he hne

/-! ## Readers -/

/-- All tokens that the state has at hand. -/
def State.tokens (s : State) : List Token := s.current :: s.ahead :: s.ending :: s.rest

theorem State.mem_tokens_of_consume {s : State} {t : Token} (h : t ∈ s.consume.tokens) :
    t ∈ s.tokens := by
  unfold consume at h
  split at h
  · simp only [tokens, List.mem_cons] at h ⊢
    grind
  · next u rest hrest =>
    simp only [tokens, List.mem_cons] at h ⊢
    rw [hrest]
    grind

theorem State.mem_tokens_of_start {tokens : List Token} {t : Token} (h : t ∈ (start tokens).tokens) :
    t.kind = .eof ∨ t ∈ tokens := by
  have h := mem_tokens_of_consume (mem_tokens_of_consume h)
  simp only [State.tokens, List.mem_cons] at h
  grind

/-- The outcome of a reader from the state `s`. If the tokens at hand satisfy `P` they still do, and a
result satisfies `V`. -/
def Builds {α : Type} (P : Token → Prop) (V : α → Prop) (s : State)
    (outcome : Except Halt α × State) : Prop :=
  (∀ t ∈ s.tokens, P t) → (∀ t ∈ outcome.2.tokens, P t) ∧ ∀ a, outcome.1 = .ok a → V a

namespace Builds

variable {α β : Type} {P : Token → Prop} {s : State} {V : α → Prop} {W : β → Prop}

theorem pure {a : α} (h : V a) : Builds P V s ((Pure.pure a : Reader α) s) :=
  fun hs => ⟨hs, fun _ heq => by cases heq; exact h⟩

theorem throw (e : Halt) : Builds P V s ((throw e : Reader α) s) := fun hs => ⟨hs, nofun⟩

theorem reject (p : Problem) : Builds P V s ((Parse.reject p : Reader α) s) := fun hs => ⟨hs, nofun⟩

theorem mono {V' : α → Prop} {outcome : Except Halt α × State} (h : Builds P V s outcome)
    (hV : ∀ a, V a → V' a) : Builds P V' s outcome :=
  fun hs => ⟨(h hs).1, fun a ha => hV a ((h hs).2 a ha)⟩

/-- **One reader after the other.** -/
theorem bind {r : Reader α} {f : α → Reader β} (hr : Builds P V s (r s))
    (hf : ∀ a s', V a → Builds P W s' (f a s')) : Builds P W s ((r >>= f) s) := by
  intro hs
  obtain ⟨h1, h2⟩ := hr hs
  rw [bind_apply]
  rcases hx : r s with ⟨e | a, s'⟩ <;> rw [hx] at h1 h2
  · exact ⟨h1, nofun⟩
  · exact hf a s' (h2 a rfl) h1

variable {f : Unit → Reader β} {g : Token → Reader β} {k : Nat → Reader β}

/-- The current token is as it should be. -/
theorem known {outcome : Except Halt α × State} (h : P s.current → Builds P V s outcome) :
    Builds P V s outcome := fun hs => h (hs _ List.mem_cons_self) hs

theorem current (h : P s.current → Builds P W s (g s.current s)) :
    Builds P W s ((Parse.current >>= g) s) := known h

theorem ahead (h : Builds P W s (g s.ahead s)) : Builds P W s ((Parse.ahead >>= g) s) := h

theorem budget (h : Builds P W s (k s.budget s)) : Builds P W s ((Parse.budget >>= k) s) := h

theorem of_consume {outcome : Except Halt α × State} (h : Builds P V s.consume outcome) :
    Builds P V s outcome := fun hs => h fun t ht => hs t (State.mem_tokens_of_consume ht)

theorem consume (h : Builds P W s.consume (f () s.consume)) :
    Builds P W s ((Parse.consume >>= f) s) := of_consume h

theorem expect {kind : Kind} (h : s.ahead.kind = kind → Builds P W s.consume (f () s.consume)) :
    Builds P W s ((Parse.expect kind >>= f) s) := by
  by_cases hk : s.ahead.kind = kind
  · rw [bind_of_ok (expect_of_eq hk)]
    exact of_consume (h hk)
  · rw [bind_of_error (expect_of_ne hk)]
    exact fun hs => ⟨hs, nofun⟩

theorem skip {kind : Kind} (h : ∀ s', Builds P W s' (f () s')) :
    Builds P W s ((Parse.skip kind >>= f) s) := by
  by_cases hk : s.ahead.kind = kind
  · rw [bind_of_ok (skip_of_eq hk)]
    exact of_consume (h _)
  · rw [bind_of_ok (skip_of_ne hk)]
    exact h s

theorem attempt {r : Reader α} (h : Builds P V s (r s)) :
    Builds P (fun a? => ∀ a, a? = some a → V a) s (Parse.attempt r s) := by
  intro hs
  obtain ⟨h1, h2⟩ := h hs
  unfold Parse.attempt
  rcases hx : r s with ⟨(_ | _) | a, s'⟩ <;> rw [hx] at h1 h2
  · exact ⟨h1, fun a? ha a ha' => by cases ha; cases ha'⟩
  · exact ⟨h1, nofun⟩
  · refine ⟨h1, fun a? ha a ha' => ?_⟩
    cases ha
    cases ha'
    exact h2 a rfl

theorem traced {r : Reader α} {phrase : Phrase} (h : Builds P V (s.enter phrase) (r (s.enter phrase))) :
    Builds P V s (Parse.traced phrase r s) := h

end Builds

/-- The reader of expressions above a level builds trees. -/
def Sub.Builds (P : Token → Prop) (sub : Sub) : Prop :=
  ∀ (level : Nat) (s : State), lowest ≤ level → Parse.Builds P (Built P) s (sub level s)

theorem Sub.Builds.lowest {P : Token → Prop} {sub : Sub} (h : sub.Builds P) (s : State) :
    Parse.Builds P (Built P) s (sub Parse.lowest s) := h _ s (Nat.le_refl _)

section Phrases

variable {P : Token → Prop} {sub : Sub}

/-! ### Lists -/

theorem builds_moreParams : ∀ (n : Nat) (s : State),
    Builds P (fun xs => ∀ x ∈ xs, Named P x) s (moreParams n s)
  | 0, _ => .pure nofun
  | n + 1, s => by
    refine .ahead ?_
    split
    next =>
      refine .consume (.expect fun hk => .current fun ht => ?_)
      rw [State.current_consume] at ht ⊢
      refine .bind (builds_moreParams n _) fun xs _ hxs => .pure ?_
      exact List.forall_mem_cons.2 ⟨⟨_, ht, hk, rfl⟩, hxs⟩
    next => exact .pure nofun

theorem builds_params (s : State) : Builds P (fun xs => ∀ x ∈ xs, Named P x) s (params s) := by
  refine .ahead ?_
  split
  next => exact .consume (.pure nofun)
  next =>
    refine .expect fun hk => .current fun ht => .budget ?_
    rw [State.current_consume] at ht ⊢
    refine .bind (builds_moreParams _ _) fun xs _ hxs => .expect fun _ => .pure ?_
    exact List.forall_mem_cons.2 ⟨⟨_, ht, hk, rfl⟩, hxs⟩

variable (hsub : sub.Builds P)
include hsub

theorem builds_moreItems : ∀ (n : Nat) (s : State),
    Builds P (fun ns => ∀ n ∈ ns, Built P n) s (moreItems sub n s)
  | 0, _ => .pure nofun
  | n + 1, s => by
    refine .ahead ?_
    split
    next =>
      refine .consume (.consume (.bind (hsub.lowest _) fun e s₁ he => ?_))
      exact .bind (builds_moreItems n s₁) fun ns _ hns => .pure (List.forall_mem_cons.2 ⟨he, hns⟩)
    next => exact .pure nofun

theorem builds_items (closing : Kind) (s : State) :
    Builds P (fun ns => ∀ n ∈ ns, Built P n) s (items sub closing s) := by
  refine .ahead ?_
  split
  next => exact .consume (.pure nofun)
  next =>
    refine .consume (.bind (hsub.lowest _) fun e s₁ he => .budget ?_)
    refine .bind (builds_moreItems hsub _ s₁) fun ns s₂ hns => .expect fun _ => .pure ?_
    exact List.forall_mem_cons.2 ⟨he, hns⟩

theorem builds_entries : ∀ (n : Nat) (s : State),
    Builds P (fun ps => ∀ p ∈ ps, Built P p.1 ∧ Built P p.2) s (entries sub n s)
  | 0, _ => .pure nofun
  | n + 1, s => by
    refine .ahead ?_
    split
    next => exact .pure nofun
    next =>
      refine .consume (.bind (hsub.lowest _) fun k s₁ hk => .expect fun _ => .consume ?_)
      refine .bind (hsub.lowest _) fun v s₂ hv => .ahead ?_
      have hmore (s : State) : Builds P (fun ps => ∀ p ∈ ps, Built P p.1 ∧ Built P p.2) s
          ((entries sub n >>= fun ps => Pure.pure ((k, v) :: ps) : Reader _) s) :=
        .bind (builds_entries n s) fun ps _ hps => .pure (List.forall_mem_cons.2 ⟨⟨hk, hv⟩, hps⟩)
      dsimp only
      split
      next => exact .expect fun _ => hmore _
      next => exact hmore _

/-! ### Statements -/

theorem builds_binding (s : State) :
    Builds P (fun p => Named P p.1 ∧ Built P p.2) s (binding sub s) := by
  refine .expect fun hk => .current fun ht => ?_
  rw [State.current_consume] at ht ⊢
  refine .expect fun _ => .consume (.bind (hsub.lowest _) fun n s₁ hn => ?_)
  exact .skip fun s₂ => .pure ⟨⟨_, ht, hk, rfl⟩, hn⟩

omit hsub in
theorem builds_skipToSemicolon : ∀ (n : Nat) (s : State),
    Builds P (fun _ => True) s (skipToSemicolon n s)
  | 0, _ => .pure trivial
  | n + 1, s => by
    refine .current fun _ => .ahead ?_
    split
    next => exact .pure trivial
    next => exact .consume (builds_skipToSemicolon n _)

theorem builds_statement (s : State) : Builds P (Built P) s (statement sub s) := by
  rw [statement_apply]
  split
  next =>
    exact .traced (.current fun _ => .bind (builds_binding hsub _) fun p _ hp =>
      .pure (.valueStmt hp.1 hp.2))
  next =>
    exact .traced (.current fun _ => .bind (builds_binding hsub _) fun p _ hp =>
      .pure (.updateStmt hp.1 hp.2))
  next =>
    refine .traced (.current fun _ => .consume ?_)
    refine .bind (.attempt (hsub.lowest _)) fun value? s₁ hvalue => .budget ?_
    refine .bind (builds_skipToSemicolon _ s₁) fun _ s₂ _ => ?_
    cases value? with
    | none => exact .throw _
    | some n => exact .pure (.returnStmt (hvalue n rfl))
  next =>
    refine .traced (.current fun _ => .bind (.attempt (hsub.lowest _)) fun n? s₁ hn => ?_)
    refine .skip fun s₂ => ?_
    cases n? with
    | none => exact .throw _
    | some n => exact .pure (.expressionStmt (hn n rfl))

theorem builds_statements : ∀ (n : Nat) (s : State),
    Builds P (fun ns => ∀ n ∈ ns, Built P n) s (statements sub n s)
  | 0, _ => .pure nofun
  | n + 1, s => by
    refine .current fun _ => ?_
    split
    next => exact .pure nofun
    next =>
      refine .bind (.attempt (builds_statement hsub s)) fun found s₁ hfound => .consume ?_
      refine .bind (builds_statements n _) fun ns _ hns => .pure fun m hm => ?_
      rcases List.mem_append.1 hm with hm | hm
      · exact hfound m (Option.mem_toList.1 hm)
      · exact hns m hm

theorem builds_block (s : State) : Builds P (Built P) s (block sub s) := by
  refine .traced (.current fun _ => .consume (.budget ?_))
  refine .bind (builds_statements hsub _ _) fun ns s' hns => .current fun _ => ?_
  dsimp only
  split
  -- a block that is not closed is a block all the same
  next => exact fun hs => ⟨hs, fun n hn => by cases hn; exact .block hns⟩
  next => exact .pure (.block hns)

/-! ### Expressions -/

omit hsub in
theorem builds_integer {s : State} (hs : s.current.kind = .int) :
    Builds P (Built P) s (integer s) := by
  refine .current fun ht => ?_
  cases hn : Text.readInt s.current.literal with
  | error e => exact .reject _
  | ok n =>
    dsimp only
    split
    next hle => exact .pure (.integer ht hs hn hle)
    next => exact .reject _

theorem builds_unary {s : State} (hs : s.current.kind ∈ prefixKinds) :
    Builds P (Built P) s (unary sub s) := by
  refine .traced (.current fun ht => .consume ?_)
  exact .bind (hsub _ _ (by decide)) fun n _ hn => .pure (.unary ht hs hn)

theorem builds_alternative (s : State) :
    Builds P (fun n => n ≠ .absent → Built P n) s (alternative sub s) := by
  refine .ahead ?_
  split
  next => exact .consume (.expect fun _ => (builds_block hsub _).mono fun _ h _ => h)
  next => exact .pure fun h => absurd rfl h

theorem builds_conditional (s : State) : Builds P (Built P) s (conditional sub s) := by
  refine .traced (.current fun _ => .expect fun _ => .consume ?_)
  refine .bind (hsub.lowest _) fun c s₁ hc => .expect fun _ => .expect fun _ => ?_
  refine .bind (builds_block hsub _) fun b s₂ hb => ?_
  exact .bind (builds_alternative hsub s₂) fun e _ he => .pure (.conditional hc hb he)

theorem builds_function (s : State) : Builds P (Built P) s (function sub s) := by
  refine .traced (.current fun _ => .expect fun _ => ?_)
  refine .bind (builds_params _) fun xs s₁ hxs => .expect fun _ => ?_
  exact .bind (builds_block hsub _) fun b _ hb => .pure (.function hxs hb)

theorem builds_primary (s : State) : Builds P (Built P) s (primary sub s) := by
  have hunary (hs : s.current.kind ∈ prefixKinds) := builds_unary hsub hs
  rw [primary_apply]
  split
  next hs => exact .known fun ht => .pure (.identifier ht hs)
  next hs => exact builds_integer hs
  next hs => exact .known fun ht => .pure (.string ht hs)
  next => exact .pure .boolean
  next => exact .pure .boolean
  iterate 4
    next hs => exact hunary (by simp [hs, prefixKinds])
  next => exact .consume (.bind (hsub.lowest _) fun n s₁ hn => .expect fun _ => .pure hn)
  next =>
    exact .current fun _ => .bind (builds_items hsub _ _) fun ns _ hns => .pure (.array hns)
  next =>
    refine .current fun _ => .budget (.bind (builds_entries hsub _ _) fun ps _ hps => ?_)
    exact .expect fun _ => .pure (.map (fun p hp => (hps p hp).1) fun p hp => (hps p hp).2)
  next => exact builds_conditional hsub s
  next => exact builds_function hsub s
  next => exact .reject _

theorem builds_extend {s : State} (hs : lowest < bindingPower s.current.kind) {left : Node Token}
    (hleft : Built P left) : Builds P (Built P) s (extend sub left s) := by
  rw [extend_apply]
  split
  next =>
    refine .traced (.current fun _ => ?_)
    exact .bind (builds_items hsub _ _) fun ns _ hns => .pure (.call hleft hns)
  next =>
    refine .traced (.current fun _ => .consume ?_)
    exact .bind (hsub.lowest _) fun i _ hi => .expect fun _ => .pure (.index hleft hi)
  next h₁ h₂ =>
    refine .traced (.current fun ht => .consume ?_)
    refine .bind (hsub _ _ (lowest_le_bindingPower _)) fun n _ hn => .pure ?_
    exact .binary ht (mem_infixKinds hs h₁ h₂) hleft hn

theorem builds_climb {level : Nat} (hlevel : lowest ≤ level) : ∀ (n : Nat) {left : Node Token}
    (s : State), Built P left → Builds P (Built P) s (climb sub level n left s)
  | 0, _, _, hleft => .pure hleft
  | n + 1, left, s, hleft => by
    refine .ahead ?_
    split
    next h =>
      refine .consume (.bind (builds_extend hsub ?_ hleft) fun longer s₁ hlonger => ?_)
      · rw [State.current_consume]
        exact Nat.lt_of_le_of_lt hlevel h
      · exact builds_climb hlevel n s₁ hlonger
    next => exact .pure hleft

end Phrases

variable {P : Token → Prop}

/-- **Expressions**, however deeply they are nested. -/
theorem builds_expression : ∀ depth : Nat, (expression depth).Builds P
  | 0, _, _, _ => .throw _
  | depth + 1, level, s, hlevel => by
    have hsub := builds_expression depth
    refine .traced (.bind (builds_primary hsub _) fun left s₁ hleft => .budget ?_)
    exact builds_climb hsub hlevel _ s₁ hleft

/-! ## Programs -/

theorem built_programBody {sub : Sub} (hsub : sub.Builds P) : ∀ (n : Nat) (s : State),
    (∀ t ∈ s.tokens, P t) → ∀ m ∈ (programBody sub n s).1, Built P m
  | 0, _, _ => nofun
  | n + 1, s, hs => by
    rw [programBody_succ]
    split
    next => exact nofun
    next =>
      obtain ⟨htokens, hstmt⟩ := builds_statement hsub s hs
      rcases hx : statement sub s with ⟨(_ | _) | stmt, s₁⟩ <;> rw [hx] at htokens hstmt
      all_goals
        have hrest := built_programBody hsub n s₁.consume fun t ht =>
          htokens t (State.mem_tokens_of_consume ht)
      · exact hrest
      · exact nofun
      · exact List.forall_mem_cons.2 ⟨hstmt stmt rfl, hrest⟩

/-- **Programs.** Whatever problems there are, what is read is built from the tokens of the list. -/
theorem built_program (limit : Nat) {tokens : List Token} (heof : ∀ t : Token, t.kind = .eof → P t)
    (h : ∀ t ∈ tokens, P t) : Built P (program limit tokens).program := by
  have hstart : ∀ t ∈ (State.start tokens).tokens, P t := fun t ht =>
    (State.mem_tokens_of_start ht).elim (heof t) (h t)
  exact .program (built_programBody (builds_expression limit) (State.start tokens).budget _ hstart)

/-- The token is written somewhere in a text, or is the end of one. -/
def Lexed (t : Token) : Prop := t.kind ≠ .eof → ∃ written after, Writes t.kind t.literal written after

/-- A number that is written in a text has no sign. -/
theorem Lexed.nonneg {t : Token} (ht : Lexed t) (hk : t.kind = .int) {n : Int}
    (hn : Text.readInt t.literal = .ok n) : 0 ≤ n := by
  refine Text.readInt_nonneg (fun hminus => ?_) hn
  obtain ⟨written, after, hwrites⟩ := ht (by rw [hk]; decide)
  rw [hk] at hwrites
  rcases hwrites.kind_cases (by decide) with ⟨h, -⟩ | ⟨-, hdigits, hliteral⟩ | ⟨h, -⟩
  · cases h
  · rw [hliteral, String.toList_ofList] at hminus
    exact absurd (hdigits '-' hminus) (by decide)
  · cases h

theorem built_parseSource (source : String) : Built Lexed (parseSource source).program :=
  built_program nestingLimit (fun _ ht hne => absurd ht hne) fun _ => lexeme_of_mem_scan

end SepiaLang.Parse
