import SepiaLang.Proofs.Parse.Apply
import SepiaLang.Proofs.Parse.Yield

/-!
# Readers that succeed

The rules for showing that a list of tokens is read without a problem, one for each phrase. What a
phrase is made of is said by the kinds and the texts of its tokens; their places do not matter, and
neither do the notes of the tree.

* `Lexeme`, `State.At`: the tokens from the current one on, without their places.
* `Gives`: a reader gives a result and leaves the window on the last token of its phrase
  (`Gives.bind`).
* `Sub.Accepts`: the lexemes are read as an expression, whatever follows them.
* `Sub.AcceptsBefore`, `Sub.AcceptsBlock`: they are read as a statement, or as the statements of a block,
  before what follows them.
* `accepts_expression`: an operand and the operators after it.
* `program_of_acceptsBody`: statements one after the other.
-/

namespace SepiaLang

/-- The kind and the text of a token. -/
abbrev Lexeme := Kind × String

/-- A token without its place. -/
def Token.bare (t : Token) : Lexeme := (t.kind, t.literal)

namespace Parse

open SepiaLang.Computation

/-- The kind of the first lexeme, or `eof` where there is none. -/
def nextKind : List Lexeme → Kind
  | [] => .eof
  | l :: _ => l.1

/-! ## Where the window stands -/

/-- From the current token on the list holds these lexemes. -/
def State.At (s : State) (ls : List Lexeme) : Prop := s.Padded ∧ s.pending.map Token.bare = ls

namespace State.At

variable {s : State} {l : Lexeme} {ls : List Lexeme}

theorem current_kind (h : s.At ls) : s.current.kind = nextKind ls := by
  obtain ⟨-, rfl⟩ := h
  by_cases hc : s.current.kind = .eof
  · rw [State.pending_eq_nil hc, hc]
    rfl
  · rw [State.pending_eq_cons hc]
    rfl

theorem pending_eq (h : s.At (l :: ls)) : s.pending = s.current :: s.coming := by
  refine State.pending_eq_cons fun hc => ?_
  have := h.2
  rw [State.pending_eq_nil hc] at this
  cases this

theorem current (h : s.At (l :: ls)) : s.current.bare = l := by
  have := h.2
  rw [h.pending_eq, List.map_cons] at this
  exact (List.cons.inj this).1

theorem coming (h : s.At (l :: ls)) : s.coming.map Token.bare = ls := by
  have := h.2
  rw [h.pending_eq, List.map_cons] at this
  exact (List.cons.inj this).2

theorem consume (h : s.At (l :: ls)) : s.consume.At ls := by
  refine ⟨h.1.consume, ?_⟩
  rw [State.pending_consume h.1]
  exact h.coming

theorem ahead_kind (h : s.At (l :: ls)) : s.ahead.kind = nextKind ls := by
  rw [← h.consume.current_kind, State.current_consume]

theorem length_le_budget {more : List Lexeme} (h : s.At (ls ++ more)) : ls.length ≤ s.budget := by
  have hlength := congrArg List.length h.2
  rw [List.length_map, List.length_append] at hlength
  have := s.length_pending_le_budget
  omega

theorem length_tail_le_budget {more : List Lexeme} (h : s.At (l :: (ls ++ more))) :
    ls.length ≤ s.budget := by
  have h' : s.At (l :: ls ++ more) := h
  exact Nat.le_of_succ_le h'.length_le_budget

theorem enter (h : s.At ls) (phrase : Phrase) : (s.enter phrase).At ls := h

theorem leave (h : s.At ls) (phrase : Phrase) : (s.leave phrase).At ls := h

end State.At

/-! ## Results -/

/-- The reader has a result with `Q`, which is also said of the kind of the last token, has found no
problem, and has left the window on the last token, before `more`. -/
def Gives {α : Type} (s : State) (more : List Lexeme) (Q : α → Kind → Prop)
    (outcome : Except Halt α × State) : Prop :=
  ∃ a s' l, outcome = (.ok a, s') ∧ s'.At (l :: more) ∧ s'.problems = s.problems ∧ Q a l.1

namespace Gives

variable {α β : Type} {s : State} {l : Lexeme} {ls more more' : List Lexeme}
  {P : α → Kind → Prop} {Q : β → Kind → Prop}

theorem pure {a : α} (hs : s.At (l :: more)) (h : P a l.1) :
    Gives s more P ((Pure.pure a : Reader α) s) := ⟨a, s, l, rfl, hs, rfl, h⟩

theorem mono {P' : α → Kind → Prop} {outcome : Except Halt α × State} (h : Gives s more P outcome)
    (hP : ∀ a k, P a k → P' a k) : Gives s more P' outcome := by
  obtain ⟨a, s', l, heq, hs', hp, ha⟩ := h
  exact ⟨a, s', l, heq, hs', hp, hP a _ ha⟩

/-- **One reader after the other.** -/
theorem bind {r : Reader α} {f : α → Reader β} (hr : Gives s more' P (r s))
    (hf : ∀ a s' l, s'.At (l :: more') → P a l.1 → Gives s' more Q (f a s')) :
    Gives s more Q ((r >>= f) s) := by
  obtain ⟨a, s₁, l, heq, hs₁, hp, ha⟩ := hr
  rw [bind_of_ok heq]
  obtain ⟨b, s₂, l', heq', hs₂, hp', hb⟩ := hf a s₁ l hs₁ ha
  exact ⟨b, s₂, l', heq', hs₂, hp'.trans hp, hb⟩

theorem traced {r : Reader α} {phrase : Phrase} (h : Gives (s.enter phrase) more P (r (s.enter phrase))) :
    Gives s more P (Parse.traced phrase r s) := by
  obtain ⟨a, s', l, heq, hs', hp, ha⟩ := h
  refine ⟨a, s'.leave phrase, l, ?_, hs'.leave phrase, hp, ha⟩
  unfold Parse.traced
  rw [heq]

theorem attempt {r : Reader α} (h : Gives s more P (r s)) :
    Gives s more (fun a? k => ∃ a, a? = some a ∧ P a k) (Parse.attempt r s) := by
  obtain ⟨a, s', l, heq, hs', hp, ha⟩ := h
  refine ⟨some a, s', l, ?_, hs', hp, a, rfl, ha⟩
  unfold Parse.attempt
  rw [heq]

/-! ### The window -/

variable {f : Unit → Reader β} {g : Token → Reader β} {k : Nat → Reader β}

theorem current (h : Gives s more Q (g s.current s)) : Gives s more Q ((Parse.current >>= g) s) := h

theorem ahead (h : Gives s more Q (g s.ahead s)) : Gives s more Q ((Parse.ahead >>= g) s) := h

theorem budget (h : Gives s more Q (k s.budget s)) : Gives s more Q ((Parse.budget >>= k) s) := h

theorem of_consume {outcome : Except Halt α × State} (h : Gives s.consume more P outcome) :
    Gives s more P outcome := by
  obtain ⟨a, s', l, heq, hs', hp, ha⟩ := h
  exact ⟨a, s', l, heq, hs', hp.trans s.problems_consume, ha⟩

theorem consume (h : Gives s.consume more Q (f () s.consume)) :
    Gives s more Q ((Parse.consume >>= f) s) := of_consume h

theorem expect {kind : Kind} (hs : s.At (l :: ls)) (hk : nextKind ls = kind)
    (h : Gives s.consume more Q (f () s.consume)) :
    Gives s more Q ((Parse.expect kind >>= f) s) := by
  rw [bind_of_ok (expect_of_eq (hs.ahead_kind.trans hk))]
  exact of_consume h

theorem skip {kind : Kind} (hs : s.At (l :: ls)) (hk : nextKind ls = kind)
    (h : Gives s.consume more Q (f () s.consume)) :
    Gives s more Q ((Parse.skip kind >>= f) s) := by
  rw [bind_of_ok (skip_of_eq (hs.ahead_kind.trans hk))]
  exact of_consume h

end Gives

/-! ## What may follow -/

/-- The kinds of the tokens that start an expression. -/
def startKinds : List Kind :=
  [.ident, .int, .string, .trueWord, .falseWord, .bang, .minus, .increment, .decrement, .lparen,
   .lbracket, .lbrace, .ifWord, .fnWord]

/-- What follows an expression does not belong to it: it is no operator that binds tighter than the
level, and no `else`. -/
def Follows (level : Nat) (more : List Lexeme) : Prop :=
  bindingPower (nextKind more) ≤ level ∧ nextKind more ≠ .elseWord

theorem follows_cons {level : Nat} {l : Lexeme} (h : bindingPower l.1 ≤ level ∧ l.1 ≠ .elseWord)
    (more : List Lexeme) : Follows level (l :: more) := h

/-- A statement does not end with a token of the kind. -/
def GoesOn (k : Kind) : Prop := k ≠ .semicolon ∧ k ≠ .eof

/-- The tree is the one without notes, and the statement does not end with it. -/
def Finds (e : Node Unit) (n : Node Token) (k : Kind) : Prop := n.strip = e ∧ GoesOn k

/-- The lexemes are read as the expression above the level, whatever follows them. -/
structure Sub.Accepts (sub : Sub) (level : Nat) (ls : List Lexeme) (e : Node Unit) : Prop where
  starts : nextKind ls ∈ startKinds
  gives : ∀ (s : State) (more : List Lexeme), s.At (ls ++ more) → Follows level more →
    Gives s more (Finds e) (sub level s)

theorem ne_of_start {k k' : Kind} (h : k ∈ startKinds) (h' : k' ∉ startKinds) : k ≠ k' := by
  rintro rfl
  exact h' h

theorem nextKind_append {ls : List Lexeme} (h : nextKind ls ∈ startKinds) (ms : List Lexeme) :
    nextKind (ls ++ ms) = nextKind ls := by
  cases ls with
  | nil => exact absurd h (by decide)
  | cons => rfl

/-! ## Lists -/

/-- The lexemes of the further elements of a list. -/
def further (lss : List (List Lexeme)) : List Lexeme := lss.flatMap fun ls => (.comma, ",") :: ls

/-- The lexemes of the elements of a list. -/
def joined : List (List Lexeme) → List Lexeme
  | [] => []
  | ls :: lss => ls ++ further lss

theorem further_cons (ls : List Lexeme) (lss : List (List Lexeme)) :
    further (ls :: lss) = (.comma, ",") :: joined (ls :: lss) := by
  simp [further, joined]

/-- What follows an element of a list does not belong to it. -/
theorem follows_further {more : List Lexeme} (h : Follows lowest more) (lss : List (List Lexeme)) :
    Follows lowest (further lss ++ more) := by
  cases lss with
  | nil => exact h
  | cons => exact ⟨Nat.le_refl 1, nofun⟩

/-- The lexemes of a name. -/
def name (x : Ident Unit) : List Lexeme := [(.ident, x.text)]

theorem map_ident {t : Token} {x : Ident Unit} (h : t.bare = (.ident, x.text)) :
    Ident.map (fun _ => ()) ⟨t.literal, t⟩ = x := by
  have : t.literal = x.text := congrArg Prod.snd h
  rw [Ident.map, this]

theorem gives_moreParams : ∀ (xs : List (Ident Unit)) (n : Nat) {s : State} {l : Lexeme}
    {more : List Lexeme}, s.At (l :: further (xs.map name) ++ more) → nextKind more ≠ .comma →
    (further (xs.map name)).length ≤ n →
    Gives s more (fun ys _ => ys.map (·.map fun _ => ()) = xs) (moreParams n s)
  | [], 0, _, _, _, hs, _, _ => .pure hs rfl
  | [], n + 1, s, l, more, hs, hmore, _ => by
    refine .ahead ?_
    rw [if_neg (by rwa [hs.ahead_kind])]
    exact .pure hs rfl
  | x :: xs, 0, _, _, _, _, _, hn => by simp [further] at hn
  | x :: xs, n + 1, s, l, more, hs, hmore, hn => by
    rw [List.map_cons, further_cons, joined, List.length_cons, List.length_append] at hn
    rw [List.map_cons, further_cons, joined] at hs
    have hk : s.ahead.kind = .comma := hs.ahead_kind
    refine .ahead ?_
    rw [if_pos hk]
    refine .consume (.expect hs.consume rfl (.current ?_))
    refine .bind (gives_moreParams xs n hs.consume.consume hmore (by omega)) fun ys s' l' hs' hys => ?_
    refine .pure hs' ?_
    rw [List.map_cons, map_ident hs.consume.consume.current, hys]

theorem gives_params (xs : List (Ident Unit)) {s : State} {l : Lexeme} {more : List Lexeme}
    (hs : s.At (l :: joined (xs.map name) ++ (.rparen, ")") :: more)) :
    Gives s more (fun ys _ => ys.map (·.map fun _ => ()) = xs) (params s) := by
  refine .ahead ?_
  cases xs with
  | nil =>
    have hk : s.ahead.kind = .rparen := hs.ahead_kind
    rw [if_pos hk]
    exact .consume (.pure hs.consume rfl)
  | cons x xs =>
    have hk : s.ahead.kind = .ident := hs.ahead_kind
    rw [if_neg (by rw [hk]; decide)]
    refine .expect hs rfl (.current (.budget ?_))
    have hs₁ : s.consume.At ((.ident, x.text) :: (further (xs.map name) ++ (.rparen, ")") :: more)) :=
      hs.consume
    refine .bind (gives_moreParams xs _ hs₁ nofun hs₁.length_tail_le_budget) ?_
    intro ys s' l' hs' hys
    refine .expect hs' rfl (.pure hs'.consume ?_)
    rw [List.map_cons, map_ident hs₁.current, hys]

variable {sub : Sub}

theorem gives_moreItems : ∀ (ps : List (List Lexeme × Node Unit)) (n : Nat) {s : State} {l : Lexeme}
    {more : List Lexeme}, (∀ p ∈ ps, sub.Accepts lowest p.1 p.2) →
    s.At (l :: further (ps.map Prod.fst) ++ more) → nextKind more ≠ .comma → Follows lowest more →
    (further (ps.map Prod.fst)).length ≤ n →
    Gives s more (fun ns _ => Node.mapNotesAll (fun _ => ()) ns = ps.map Prod.snd) (moreItems sub n s)
  | [], 0, _, _, _, _, hs, _, _, _ => .pure hs rfl
  | [], n + 1, s, l, more, _, hs, hmore, _, _ => by
    refine .ahead ?_
    rw [if_neg (by rwa [hs.ahead_kind])]
    exact .pure hs rfl
  | p :: ps, 0, _, _, _, _, _, _, _, hn => by simp [further] at hn
  | p :: ps, n + 1, s, l, more, hps, hs, hmore, hfollows, hn => by
    rw [List.map_cons, further_cons, joined, List.length_cons, List.length_append] at hn
    rw [List.map_cons, further_cons, joined] at hs
    have hk : s.ahead.kind = .comma := hs.ahead_kind
    have hsub := hps p (List.mem_cons_self ..)
    refine .ahead ?_
    rw [if_pos hk]
    have hs₂ : s.consume.consume.At (p.1 ++ (further (ps.map Prod.fst) ++ more)) := by
      rw [← List.append_assoc]
      exact hs.consume.consume
    refine .consume (.consume (.bind (hsub.gives _ _ hs₂ (follows_further hfollows _)) ?_))
    intro e s' l' hs' he
    refine .bind (gives_moreItems ps n (fun q hq => hps q (List.mem_cons_of_mem _ hq)) hs' hmore
      hfollows (by omega)) fun ns s'' l'' hs'' hns => .pure hs'' ?_
    rw [Node.mapNotesAll, hns]
    exact congrArg (· :: _) he.1

/-- The tokens that close a list of expressions neither start an expression nor go on with one. -/
theorem closing_kind {closing : Lexeme} (h : closing.1 = .rparen ∨ closing.1 = .rbracket)
    (more : List Lexeme) :
    closing.1 ∉ startKinds ∧ nextKind (closing :: more) ≠ .comma ∧ Follows lowest (closing :: more) := by
  change closing.1 ∉ startKinds ∧ closing.1 ≠ .comma ∧ bindingPower closing.1 ≤ lowest ∧
    closing.1 ≠ .elseWord
  rcases h with h | h <;> rw [h] <;> decide

theorem gives_items {closing : Lexeme} (hclosing : closing.1 = .rparen ∨ closing.1 = .rbracket)
    {ps : List (List Lexeme × Node Unit)} (hps : ∀ p ∈ ps, sub.Accepts lowest p.1 p.2)
    {s : State} {l : Lexeme} {more : List Lexeme}
    (hs : s.At (l :: joined (ps.map Prod.fst) ++ closing :: more)) :
    Gives s more (fun ns k => Node.mapNotesAll (fun _ => ()) ns = ps.map Prod.snd ∧ k = closing.1)
      (items sub closing.1 s) := by
  obtain ⟨hstart, hcomma, hfollows⟩ := closing_kind hclosing more
  refine .ahead ?_
  cases ps with
  | nil =>
    have hk : s.ahead.kind = closing.1 := hs.ahead_kind
    rw [if_pos hk]
    exact .consume (.pure hs.consume ⟨rfl, rfl⟩)
  | cons p ps =>
    have hsub := hps p (List.mem_cons_self ..)
    rw [List.map_cons, joined, List.cons_append, List.append_assoc] at hs
    have hk : s.ahead.kind ≠ closing.1 := by
      rw [hs.ahead_kind, nextKind_append hsub.starts]
      exact ne_of_start hsub.starts hstart
    rw [if_neg hk]
    refine .consume (.bind (hsub.gives _ _ hs.consume (follows_further hfollows _)) ?_)
    intro e s' l' hs' he
    refine .budget (.bind (gives_moreItems ps _ (fun q hq => hps q (List.mem_cons_of_mem _ hq)) hs'
      hcomma hfollows hs'.length_tail_le_budget) fun ns s'' l'' hs'' hns => ?_)
    refine .expect hs'' rfl (.pure hs''.consume ⟨?_, rfl⟩)
    rw [Node.mapNotesAll, hns]
    exact congrArg (· :: _) he.1

/-- The lexemes of an entry of a map, and the entry. -/
abbrev EntryLexemes := (List Lexeme × Node Unit) × (List Lexeme × Node Unit)

/-- The lexemes of an entry of a map. -/
def entry (p : EntryLexemes) : List Lexeme := p.1.1 ++ (.colon, ":") :: p.2.1

theorem gives_entries : ∀ (ps : List EntryLexemes) (n : Nat) {s : State} {l : Lexeme}
    {more : List Lexeme}, (∀ p ∈ ps, sub.Accepts lowest p.1.1 p.1.2 ∧ sub.Accepts lowest p.2.1 p.2.2) →
    s.At (l :: (joined (ps.map entry) ++ (.rbrace, "\x7d") :: more)) →
    (joined (ps.map entry)).length ≤ n →
    Gives s ((.rbrace, "\x7d") :: more)
      (fun qs _ => Node.mapNotesPairs (fun _ => ()) qs = ps.map fun p => (p.1.2, p.2.2))
      (entries sub n s)
  | [], n, s, l, more, _, hs, _ => by
    rw [entries_of_rbrace hs.ahead_kind]
    exact .pure hs rfl
  | p :: ps, 0, _, _, _, _, _, hn => by
    simp [joined, entry] at hn
  | p :: ps, n + 1, s, l, more, hps, hs, hn => by
    obtain ⟨hkey, hvalue⟩ := hps p (List.mem_cons_self ..)
    rw [List.map_cons, joined, entry, List.append_assoc, List.append_assoc] at hs
    have hk : ¬ (s.ahead.kind = .rbrace ∨ s.ahead.kind = .eof) := by
      rw [hs.ahead_kind, nextKind_append hkey.starts, not_or]
      exact ⟨ne_of_start hkey.starts (by decide), ne_of_start hkey.starts (by decide)⟩
    refine .ahead ?_
    rw [if_neg hk]
    refine .consume (.bind (hkey.gives _ _ hs.consume (follows_cons (by decide) _)) ?_)
    intro key s₁ l₁ hs₁ hkey'
    refine .expect hs₁ rfl (.consume ?_)
    have hs₂ := hs₁.consume.consume
    have hfollows : Follows lowest (further (ps.map entry) ++ (.rbrace, "\x7d") :: more) :=
      follows_further (follows_cons (by decide) _) _
    refine .bind (hvalue.gives _ _ hs₂ hfollows) fun value s₃ l₃ hs₃ hvalue' => .ahead ?_
    have hresult : ∀ {qs}, Node.mapNotesPairs (fun _ => ()) qs = ps.map (fun p => (p.1.2, p.2.2)) →
        Node.mapNotesPairs (fun _ => ()) ((key, value) :: qs) =
          (p :: ps).map fun p => (p.1.2, p.2.2) := by
      intro qs hqs
      rw [Node.mapNotesPairs, hqs, List.map_cons]
      exact congrArg (· :: _) (Prod.ext hkey'.1 hvalue'.1)
    dsimp only
    cases ps with
    | nil =>
      have hend : s₃.ahead.kind = .rbrace := hs₃.ahead_kind
      rw [if_neg (by simp [hend]), bind_of_ok (entries_of_rbrace hend n)]
      exact .pure hs₃ (hresult rfl)
    | cons q qs =>
      rw [List.map_cons, further_cons] at hs₃
      have hend : s₃.ahead.kind = .comma := hs₃.ahead_kind
      rw [if_pos (by simp [hend])]
      refine .expect hs₃ rfl (.bind (gives_entries (q :: qs) n
        (fun r hr => hps r (List.mem_cons_of_mem _ hr)) hs₃.consume ?_) ?_)
      · rw [List.map_cons, joined, List.map_cons, further_cons, List.length_append,
          List.length_cons] at hn
        rw [List.map_cons]
        omega
      · intro rs s₄ l₄ hs₄ hrs
        exact .pure hs₄ (hresult hrs)

/-! ## Statements -/

/-- The lexeme that ends a statement. -/
def semicolon : Lexeme := (.semicolon, ";")

/-- The lexemes, the last of which is a semicolon, are read as the statement, whatever follows
them. -/
structure Sub.AcceptsStatement (sub : Sub) (ls : List Lexeme) (e : Node Unit) : Prop where
  starts : nextKind ls ≠ .closeBlock ∧ nextKind ls ≠ .eof
  gives : ∀ (s : State) (more : List Lexeme), s.At (ls ++ more) →
    Gives s more (fun n _ => n.strip = e) (statement sub s)

theorem gives_binding {ls : List Lexeme} {e : Node Unit} (h : sub.Accepts lowest ls e)
    {x : Ident Unit} {s : State} {l : Lexeme} {more : List Lexeme}
    (hs : s.At (l :: (.ident, x.text) :: (.assign, "=") :: (ls ++ semicolon :: more))) :
    Gives s more (fun p _ => p.1.map (fun _ => ()) = x ∧ p.2.strip = e) (binding sub s) := by
  refine .expect hs rfl (.current (.expect hs.consume rfl (.consume ?_)))
  refine .bind (h.gives _ _ hs.consume.consume.consume (follows_cons (by decide) _)) ?_
  intro n s' l' hs' hn
  exact .skip hs' rfl (.pure hs'.consume ⟨map_ident hs.consume.current, hn.1⟩)

/-- The lexemes of a statement that binds a name. -/
def bindingLexemes (word : Lexeme) (x : Ident Unit) (ls : List Lexeme) : List Lexeme :=
  word :: (.ident, x.text) :: (.assign, "=") :: (ls ++ [semicolon])

theorem bindingLexemes_append (word : Lexeme) (x : Ident Unit) (ls more : List Lexeme) :
    bindingLexemes word x ls ++ more =
      word :: (.ident, x.text) :: (.assign, "=") :: (ls ++ semicolon :: more) := by
  simp [bindingLexemes]

theorem accepts_valueStmt {ls : List Lexeme} {e : Node Unit} (h : sub.Accepts lowest ls e)
    (x : Ident Unit) :
    sub.AcceptsStatement (bindingLexemes (.valueWord, "value") x ls) (.valueStmt () x e) := by
  refine ⟨⟨nofun, nofun⟩, fun s more hs => ?_⟩
  rw [bindingLexemes_append] at hs
  rw [statement_apply, hs.current_kind]
  refine .traced (.current (.bind (gives_binding h (hs.enter _)) fun p s' l hs' hp => .pure hs' ?_))
  rw [Node.strip, Node.mapNotes, hp.1, ← hp.2, Node.strip]

theorem accepts_updateStmt {ls : List Lexeme} {e : Node Unit} (h : sub.Accepts lowest ls e)
    (x : Ident Unit) :
    sub.AcceptsStatement (bindingLexemes (.updateWord, "update") x ls) (.updateStmt () x e) := by
  refine ⟨⟨nofun, nofun⟩, fun s more hs => ?_⟩
  rw [bindingLexemes_append] at hs
  rw [statement_apply, hs.current_kind]
  refine .traced (.current (.bind (gives_binding h (hs.enter _)) fun p s' l hs' hp => .pure hs' ?_))
  rw [Node.strip, Node.mapNotes, hp.1, ← hp.2, Node.strip]

theorem skipToSemicolon_of_semicolon {s : State} (hc : GoesOn s.current.kind)
    (ha : s.ahead.kind = .semicolon) (n : Nat) :
    skipToSemicolon (n + 1) s = (.ok (), s.consume) := by
  have hstay : ∀ n, skipToSemicolon n s.consume = (.ok (), s.consume)
    | 0 => rfl
    | n + 1 => by
      change (if s.consume.current.kind = .semicolon ∨ _ then (pure () : Reader Unit) else _) _ = _
      rw [if_pos (.inl (by rw [State.current_consume, ha]))]
      rfl
  change (if s.current.kind = .semicolon ∨ s.current.kind = .eof ∨ s.ahead.kind = .eof ∨
    s.ahead.kind = .closeBlock then (pure () : Reader Unit) else _) s = _
  rw [if_neg (by simp [hc.1, hc.2, ha])]
  exact hstay n

theorem accepts_returnStmt {ls : List Lexeme} {e : Node Unit} (h : sub.Accepts lowest ls e) :
    sub.AcceptsStatement ((.returnWord, "return") :: (ls ++ [semicolon])) (.returnStmt () e) := by
  refine ⟨⟨nofun, nofun⟩, fun s more hs => ?_⟩
  rw [List.cons_append, List.append_assoc] at hs
  rw [statement_apply, hs.current_kind]
  refine .traced (.current (.consume ?_))
  refine .bind (.attempt (h.gives _ _ (hs.enter _).consume (follows_cons (by decide) _))) ?_
  rintro n? s' l hs' ⟨n, rfl, hn⟩
  have hc : GoesOn s'.current.kind := by
    rw [hs'.current_kind]
    exact hn.2
  refine .budget ?_
  rw [State.budget, bind_of_ok (skipToSemicolon_of_semicolon hc hs'.ahead_kind _)]
  refine .of_consume (.pure hs'.consume ?_)
  rw [Node.strip, Node.mapNotes, ← hn.1, Node.strip]

theorem statement_of_start {s : State} (h : s.current.kind ∈ startKinds) :
    statement sub s = expressionStatement sub s := by
  rw [statement_apply]
  split
  iterate 3
    next hw =>
      rw [hw] at h
      exact absurd h (by decide)
  rfl

theorem accepts_expressionStmt {ls : List Lexeme} {e : Node Unit} (h : sub.Accepts lowest ls e) :
    sub.AcceptsStatement (ls ++ [semicolon]) (.expressionStmt () e) := by
  refine ⟨?_, fun s more hs => ?_⟩
  · rw [nextKind_append h.starts]
    exact ⟨ne_of_start h.starts (by decide), ne_of_start h.starts (by decide)⟩
  · rw [List.append_assoc] at hs
    rw [statement_of_start (by rw [hs.current_kind, nextKind_append h.starts]; exact h.starts)]
    refine .traced (.current (.bind (.attempt (h.gives _ _ (hs.enter _) (follows_cons (by decide) _))) ?_))
    rintro n? s' l hs' ⟨n, rfl, hn⟩
    refine .skip hs' rfl (.pure hs'.consume ?_)
    rw [Node.strip, Node.mapNotes, ← hn.1, Node.strip]

/-- Before `more` the lexemes are read as the statement. -/
structure Sub.AcceptsBefore (sub : Sub) (more : List Lexeme) (ls : List Lexeme) (e : Node Unit) :
    Prop where
  starts : nextKind ls ≠ .eof
  gives : ∀ s : State, s.At (ls ++ more) → Gives s more (fun n _ => n.strip = e) (statement sub s)

theorem Sub.AcceptsStatement.before {ls : List Lexeme} {e : Node Unit} (h : sub.AcceptsStatement ls e)
    (more : List Lexeme) : sub.AcceptsBefore more ls e := ⟨h.starts.2, fun s => h.gives s more⟩

/-- Before what does not belong to it an expression needs no semicolon. -/
theorem accepts_openExpression {ls more : List Lexeme} {e : Node Unit} (h : sub.Accepts lowest ls e)
    (hmore : Follows lowest more) (hend : nextKind more ≠ .semicolon) :
    sub.AcceptsBefore more ls (.expressionStmt () e) := by
  refine ⟨ne_of_start h.starts (by decide), fun s hs => ?_⟩
  have hstart : s.current.kind ∈ startKinds := by
    rw [hs.current_kind, nextKind_append h.starts]
    exact h.starts
  rw [statement_of_start hstart]
  refine .traced (.current (.bind (.attempt (h.gives _ _ (hs.enter _) hmore)) ?_))
  rintro n? s' l hs' ⟨n, rfl, hn⟩
  rw [bind_of_ok (skip_of_ne (by rwa [hs'.ahead_kind]))]
  refine .pure hs' ?_
  rw [Node.strip, Node.mapNotes, ← hn.1, Node.strip]

/-- An expression at the end of a program needs no semicolon. -/
theorem accepts_lastExpression {ls : List Lexeme} {e : Node Unit} (h : sub.Accepts lowest ls e) :
    sub.AcceptsBefore [] ls (.expressionStmt () e) :=
  accepts_openExpression h ⟨by decide, by decide⟩ (by decide)

namespace Sub.AcceptsBefore

variable {ls more : List Lexeme} {e : Node Unit}

theorem length_pos (h : sub.AcceptsBefore more ls e) : 0 < ls.length := by
  cases ls with
  | nil => exact absurd rfl h.starts
  | cons l ls => exact Nat.succ_pos _

theorem current_kind {s : State} (h : sub.AcceptsBefore more ls e) (hs : s.At (ls ++ more)) :
    s.current.kind = nextKind ls := by
  cases ls with
  | nil => exact absurd rfl h.starts
  | cons l ls => exact hs.current_kind

end Sub.AcceptsBefore

/-- Each of the statements is read before those that follow it and the word that closes the block. -/
def Sub.AcceptsBlock (sub : Sub) : List (List Lexeme × Node Unit) → Prop
  | [] => True
  | p :: ps => nextKind p.1 ≠ .closeBlock ∧
      (∀ more, sub.AcceptsBefore (ps.flatMap Prod.fst ++ (.closeBlock, "end") :: more) p.1 p.2) ∧
      sub.AcceptsBlock ps

/-- Statements that are read whatever follows them. -/
theorem acceptsBlock_of_statements : ∀ {ps : List (List Lexeme × Node Unit)},
    (∀ p ∈ ps, sub.AcceptsStatement p.1 p.2) → sub.AcceptsBlock ps
  | [], _ => trivial
  | p :: ps, hps => by
    rw [List.forall_mem_cons] at hps
    exact ⟨hps.1.starts.1, fun more => hps.1.before _, acceptsBlock_of_statements hps.2⟩

theorem gives_statements : ∀ (ps : List (List Lexeme × Node Unit)) (n : Nat) {s : State}
    {more : List Lexeme}, sub.AcceptsBlock ps →
    s.At (ps.flatMap Prod.fst ++ (.closeBlock, "end") :: more) → (ps.flatMap Prod.fst).length ≤ n →
    Gives s more
      (fun ns k => Node.mapNotesAll (fun _ => ()) ns = ps.map Prod.snd ∧ k = .closeBlock)
      (statements sub n s)
  | [], n, s, more, _, hs, _ => by
    rw [statements_of_closing (.inl hs.current_kind)]
    exact .pure hs ⟨rfl, rfl⟩
  | p :: ps, n, s, more, ⟨hclose, hp, hps⟩, hs, hn => by
    have hfirst := hp more
    have hpos := hfirst.length_pos
    rw [List.flatMap_cons, List.length_append] at hn
    obtain ⟨n, rfl⟩ : ∃ m, n = m + 1 := ⟨n - 1, by omega⟩
    rw [List.flatMap_cons, List.append_assoc] at hs
    have hcurrent : ¬ (s.current.kind = .closeBlock ∨ s.current.kind = .eof) := by
      rw [hfirst.current_kind hs, not_or]
      exact ⟨hclose, hfirst.starts⟩
    refine .current ?_
    rw [if_neg hcurrent]
    refine .bind (.attempt (hfirst.gives _ hs)) ?_
    rintro stmt? s₁ l₁ hs₁ ⟨stmt, rfl, hstmt⟩
    refine .consume (.bind (gives_statements ps n hps hs₁.consume (by omega))
      fun ns s₂ l₂ hs₂ hns => .pure hs₂ ⟨?_, hns.2⟩)
    rw [Option.toList_some, List.singleton_append, Node.mapNotesAll, hns.1]
    exact congrArg (· :: _) hstmt

/-- The lexemes of a block. -/
def blockLexemes (ps : List (List Lexeme × Node Unit)) : List Lexeme :=
  (.openBlock, "->") :: (ps.flatMap Prod.fst ++ [(.closeBlock, "end")])

theorem gives_block {ps : List (List Lexeme × Node Unit)} (hps : sub.AcceptsBlock ps)
    {s : State} {more : List Lexeme} (hs : s.At (blockLexemes ps ++ more)) :
    Gives s more (fun n k => n.strip = .block () (ps.map Prod.snd) ∧ k = .closeBlock) (block sub s) := by
  rw [blockLexemes, List.cons_append, List.append_assoc] at hs
  refine .traced (.current (.consume (.budget ?_)))
  refine .bind (gives_statements ps _ hps (hs.enter _).consume ?_) fun ns s' l hs' hns => ?_
  · exact (hs.enter _).consume.length_le_budget
  · have hk : s'.current.kind = .closeBlock := hs'.current_kind.trans hns.2
    refine .current ?_
    dsimp only
    rw [if_neg (by simp [hk])]
    refine .pure hs' ⟨?_, hns.2⟩
    rw [Node.strip, Node.mapNotes, hns.1]

/-! ## Expressions up to the first operator -/

/-- The lexemes are read as the expression, which ends before the first operator, if that binds no
tighter than the level `top`. -/
structure Sub.AcceptsPrimary (sub : Sub) (top : Nat) (ls : List Lexeme) (e : Node Unit) : Prop where
  starts : nextKind ls ∈ startKinds
  gives : ∀ (s : State) (more : List Lexeme), s.At (ls ++ more) → Follows top more →
    Gives s more (Finds e) (primary sub s)

section Primary

variable {top : Nat}

theorem accepts_integer {literal : String} {n : Int} (hn : Text.readInt literal = .ok n)
    (hle : n ≤ Word64.greatest) : sub.AcceptsPrimary top [(.int, literal)] (.integer () n) := by
  refine ⟨show Kind.int ∈ startKinds by decide, fun s more hs _ => ?_⟩
  have hliteral : s.current.literal = literal := congrArg Prod.snd hs.current
  rw [primary_apply, hs.current_kind]
  refine .current ?_
  rw [hliteral, hn]
  dsimp only
  rw [if_pos hle]
  exact .pure hs ⟨rfl, nofun, nofun⟩

theorem accepts_boolean (b : Bool) : sub.AcceptsPrimary top
    [if b then (.trueWord, "true") else (.falseWord, "false")] (.boolean () b) := by
  refine ⟨by cases b <;> decide, fun s more hs _ => ?_⟩
  rw [primary_apply, hs.current_kind]
  cases b <;> exact .pure hs ⟨rfl, nofun, nofun⟩

theorem accepts_string (text : String) :
    sub.AcceptsPrimary top [(.string, text)] (.string () text) := by
  refine ⟨show Kind.string ∈ startKinds by decide, fun s more hs _ => ?_⟩
  have hliteral : s.current.literal = text := congrArg Prod.snd hs.current
  rw [primary_apply, hs.current_kind]
  refine .pure hs ⟨?_, nofun, nofun⟩
  rw [Node.strip, Node.mapNotes, hliteral]

theorem accepts_identifier (x : String) :
    sub.AcceptsPrimary top [(.ident, x)] (.identifier () x) := by
  refine ⟨show Kind.ident ∈ startKinds by decide, fun s more hs _ => ?_⟩
  have hliteral : s.current.literal = x := congrArg Prod.snd hs.current
  rw [primary_apply, hs.current_kind]
  refine .pure hs ⟨?_, nofun, nofun⟩
  rw [Node.strip, Node.mapNotes, hliteral]

/-- The lexemes in parentheses. -/
def enclosed (ls : List Lexeme) : List Lexeme := (.lparen, "(") :: (ls ++ [(.rparen, ")")])

theorem accepts_enclosed {ls : List Lexeme} {e : Node Unit} (h : sub.Accepts lowest ls e) :
    sub.AcceptsPrimary top (enclosed ls) e := by
  refine ⟨show Kind.lparen ∈ startKinds by decide, fun s more hs _ => ?_⟩
  rw [enclosed, List.cons_append, List.append_assoc] at hs
  rw [primary_apply, hs.current_kind]
  refine .consume (.bind (h.gives _ _ hs.consume (follows_cons (by decide) _)) ?_)
  intro n s' l hs' hn
  exact .expect hs' rfl (.pure hs'.consume ⟨hn.1, nofun, nofun⟩)

theorem primary_of_sign {s : State} (h : s.current.kind ∈ prefixKinds) :
    primary sub s = unary sub s := by
  rw [primary_apply]
  simp only [prefixKinds, List.mem_cons, List.not_mem_nil, or_false] at h
  rcases h with h | h | h | h <;> rw [h]

/-- An operator before its operand. A call or a subscript after it belongs to the operand. -/
theorem accepts_unary {kind : Kind} (hkind : kind ∈ prefixKinds) (op : String) {ls : List Lexeme}
    {e : Node Unit} (h : sub.Accepts tight ls e) :
    sub.AcceptsPrimary tight ((kind, op) :: ls) (.unary () op e) := by
  have hstart : ∀ k ∈ prefixKinds, k ∈ startKinds := by decide
  refine ⟨hstart kind hkind, fun s more hs hmore => ?_⟩
  have hliteral : s.current.literal = op := congrArg Prod.snd hs.current
  rw [primary_of_sign (hs.current_kind ▸ hkind)]
  refine .traced (.current (.consume (.bind (h.gives _ _ (hs.enter _).consume hmore) ?_)))
  intro n s' l hs' hn
  refine .pure hs' ⟨?_, hn.2⟩
  rw [Node.strip, Node.mapNotes, ← hn.1, ← hliteral]
  rfl

theorem accepts_array {ps : List (List Lexeme × Node Unit)}
    (hps : ∀ p ∈ ps, sub.Accepts lowest p.1 p.2) :
    sub.AcceptsPrimary top ((.lbracket, "[") :: (joined (ps.map Prod.fst) ++ [(.rbracket, "]")]))
      (.array () (ps.map Prod.snd)) := by
  refine ⟨show Kind.lbracket ∈ startKinds by decide, fun s more hs _ => ?_⟩
  rw [List.cons_append, List.append_assoc] at hs
  rw [primary_apply, hs.current_kind]
  refine .current (.bind (gives_items (.inr rfl) hps hs) fun ns s' l hs' hns => .pure hs' ⟨?_, ?_⟩)
  · rw [Node.strip, Node.mapNotes, hns.1]
  · rw [hns.2]
    exact ⟨by decide, by decide⟩

theorem accepts_map {ps : List EntryLexemes}
    (hps : ∀ p ∈ ps, sub.Accepts lowest p.1.1 p.1.2 ∧ sub.Accepts lowest p.2.1 p.2.2) :
    sub.AcceptsPrimary top ((.lbrace, "\x7b") :: (joined (ps.map entry) ++ [(.rbrace, "\x7d")]))
      (.map () (ps.map fun p => (p.1.2, p.2.2))) := by
  refine ⟨show Kind.lbrace ∈ startKinds by decide, fun s more hs _ => ?_⟩
  rw [List.cons_append, List.append_assoc] at hs
  rw [primary_apply, hs.current_kind]
  refine .current (.budget (.bind (gives_entries ps _ hps hs hs.length_tail_le_budget) ?_))
  intro qs s' l hs' hqs
  refine .expect hs' rfl (.pure hs'.consume ⟨?_, nofun, nofun⟩)
  rw [Node.strip, Node.mapNotes, hqs]

/-- The lexemes of the `else` branch of a choice, or none. -/
def alternativeLexemes : Option (List (List Lexeme × Node Unit)) → List Lexeme
  | none => []
  | some ps => (.elseWord, "else") :: blockLexemes ps

/-- The `else` branch of a choice. -/
def alternativeNode : Option (List (List Lexeme × Node Unit)) → Node Unit
  | none => .absent
  | some ps => .block () (ps.map Prod.snd)

theorem gives_alternative {ps? : Option (List (List Lexeme × Node Unit))}
    (hps : ∀ ps ∈ ps?, sub.AcceptsBlock ps) {s : State} {l : Lexeme}
    {more : List Lexeme} (hl : GoesOn l.1) (hs : s.At (l :: (alternativeLexemes ps? ++ more)))
    (hmore : nextKind more ≠ .elseWord) :
    Gives s more (Finds (alternativeNode ps?)) (alternative sub s) := by
  refine .ahead ?_
  cases ps? with
  | none =>
    rw [if_neg (by rwa [hs.ahead_kind])]
    exact .pure hs ⟨rfl, hl⟩
  | some ps =>
    have hk : s.ahead.kind = .elseWord := hs.ahead_kind
    rw [if_pos hk]
    refine .consume (.expect hs.consume rfl ((gives_block (hps ps rfl) hs.consume.consume).mono ?_))
    rintro n k ⟨hn, rfl⟩
    exact ⟨hn, nofun, nofun⟩

theorem accepts_conditional {ls : List Lexeme} {c : Node Unit} (hc : sub.Accepts lowest ls c)
    {ps : List (List Lexeme × Node Unit)} (hps : sub.AcceptsBlock ps)
    {qs? : Option (List (List Lexeme × Node Unit))} (hqs : ∀ qs ∈ qs?, sub.AcceptsBlock qs) :
    sub.AcceptsPrimary top
      ((.ifWord, "if") :: (enclosed ls ++ (blockLexemes ps ++ alternativeLexemes qs?)))
      (.conditional () c (.block () (ps.map Prod.snd)) (alternativeNode qs?)) := by
  refine ⟨show Kind.ifWord ∈ startKinds by decide, fun s more hs hmore => ?_⟩
  simp only [enclosed, List.cons_append, List.append_assoc] at hs
  rw [primary_apply, hs.current_kind]
  have hs₁ := (hs.enter .conditional).consume.consume
  refine .traced (.current (.expect (hs.enter _) rfl (.consume ?_)))
  refine .bind (hc.gives _ _ hs₁ (follows_cons (by decide) _)) fun n s₂ l₂ hs₂ hn => ?_
  refine .expect hs₂ rfl (.expect hs₂.consume rfl ?_)
  refine .bind (gives_block hps hs₂.consume.consume) fun b s₃ l₃ hs₃ hb => ?_
  have hl₃ : GoesOn l₃.1 := by
    rw [hb.2]
    exact ⟨nofun, nofun⟩
  refine .bind (gives_alternative hqs hl₃ hs₃ hmore.2) fun e s₄ l₄ hs₄ he => .pure hs₄ ⟨?_, he.2⟩
  rw [Node.strip, Node.mapNotes, ← hn.1, ← hb.1, ← he.1]
  rfl

theorem accepts_function (xs : List (Ident Unit)) {ps : List (List Lexeme × Node Unit)}
    (hps : sub.AcceptsBlock ps) :
    sub.AcceptsPrimary top ((.fnWord, "fn") :: (enclosed (joined (xs.map name)) ++ blockLexemes ps))
      (.function () xs (.block () (ps.map Prod.snd))) := by
  refine ⟨show Kind.fnWord ∈ startKinds by decide, fun s more hs _ => ?_⟩
  simp only [enclosed, List.cons_append, List.append_assoc] at hs
  rw [primary_apply, hs.current_kind]
  refine .traced (.current (.expect (hs.enter _) rfl ?_))
  refine .bind (gives_params xs (hs.enter .function).consume) fun ys s₁ l₁ hs₁ hys => ?_
  refine .expect hs₁ rfl (.bind (gives_block hps hs₁.consume) fun b s₂ l₂ hs₂ hb => ?_)
  refine .pure hs₂ ⟨?_, ?_⟩
  · rw [Node.strip, Node.mapNotes, hys, ← hb.1]
    rfl
  · rw [hb.2]
    exact ⟨by decide, by decide⟩

end Primary

/-! ## Operators after an expression -/

/-- After the expression `e` the lexemes are read as operators that bind tighter than the level,
which makes it the expression `e'`. -/
def Sub.Climbs (sub : Sub) (level : Nat) (e : Node Unit) (ls : List Lexeme) (e' : Node Unit) : Prop :=
  ∀ (n : Nat) (left : Node Token) (s : State) (l : Lexeme) (more : List Lexeme),
    left.strip = e → GoesOn l.1 → s.At (l :: (ls ++ more)) → Follows level more → ls.length ≤ n →
      Gives s more (Finds e') (climb sub level n left s)

section Climb

variable {level : Nat} {e e' : Node Unit}

theorem climbs_nil : sub.Climbs level e [] e := by
  intro n left s l more hleft hl hs hmore _
  cases n with
  | zero => exact .pure hs ⟨hleft, hl⟩
  | succ n =>
    refine .ahead ?_
    rw [if_neg (by rw [hs.ahead_kind]; exact Nat.not_lt.2 hmore.1)]
    exact .pure hs ⟨hleft, hl⟩

/-- One operator, and those after it. -/
theorem climbs_cons {op : Lexeme} {ls ms : List Lexeme} {e₁ : Node Unit}
    (hlevel : level < bindingPower op.1)
    (hextend : ∀ (left : Node Token) (s : State) (more : List Lexeme), left.strip = e →
      s.At (op :: (ls ++ (ms ++ more))) → Follows level more →
      Gives s (ms ++ more) (Finds e₁) (extend sub left s))
    (hms : sub.Climbs level e₁ ms e') : sub.Climbs level e (op :: (ls ++ ms)) e' := by
  intro n left s l more hleft _ hs hmore hn
  rw [List.length_cons, List.length_append] at hn
  obtain ⟨n, rfl⟩ : ∃ m, n = m + 1 := ⟨n - 1, by omega⟩
  rw [List.cons_append, List.append_assoc] at hs
  refine .ahead ?_
  rw [if_pos (by rw [hs.ahead_kind]; exact hlevel)]
  refine .consume (.bind (hextend left _ more hleft hs.consume hmore) ?_)
  intro longer s' l' hs' hlonger
  exact hms n longer s' l' more hlonger.1 hlonger.2 hs' hmore (by omega)

theorem extend_of_operator {s : State} (h : s.current.kind ∈ infixKinds) (left : Node Token) :
    extend sub left s = binary sub left s := by
  rw [extend_apply]
  split
  iterate 2
    next hk =>
      rw [hk] at h
      exact absurd h (by decide)
  rfl

theorem climbs_binary {kind : Kind} {op : String} {ls ms : List Lexeme} {r : Node Unit}
    (hkind : kind ∈ infixKinds) (hlevel : level < bindingPower kind)
    (hr : sub.Accepts (bindingPower kind) ls r)
    (hnext : ∀ more, Follows level more → Follows (bindingPower kind) (ms ++ more))
    (hms : sub.Climbs level (.binary () op e r) ms e') :
    sub.Climbs level e ((kind, op) :: (ls ++ ms)) e' := by
  refine climbs_cons hlevel (fun left s more hleft hs hmore => ?_) hms
  have hk : s.current.kind = kind := hs.current_kind
  have hliteral : s.current.literal = op := congrArg Prod.snd hs.current
  rw [extend_of_operator (by rwa [hk])]
  refine .traced (.current (.consume ?_))
  change Gives _ _ _ ((sub (bindingPower s.current.kind) >>= _) _)
  rw [hk]
  refine .bind (hr.gives _ _ (hs.enter _).consume (hnext more hmore)) ?_
  intro n s' l hs' hn
  refine .pure hs' ⟨?_, hn.2⟩
  rw [Node.strip, Node.mapNotes, ← hleft, ← hn.1, ← hliteral]
  rfl

theorem climbs_call {ps : List (List Lexeme × Node Unit)} {ms : List Lexeme}
    (hlevel : level < bindingPower .lparen) (hps : ∀ p ∈ ps, sub.Accepts lowest p.1 p.2)
    (hms : sub.Climbs level (.call () e (ps.map Prod.snd)) ms e') :
    sub.Climbs level e (enclosed (joined (ps.map Prod.fst)) ++ ms) e' := by
  refine climbs_cons hlevel (fun left s more hleft hs _ => ?_) hms
  rw [List.append_assoc] at hs
  rw [extend_apply, hs.current_kind]
  refine .traced (.current (.bind (gives_items (.inl rfl) hps (hs.enter _)) ?_))
  intro ns s' l hs' hns
  refine .pure hs' ⟨?_, ?_⟩
  · rw [Node.strip, Node.mapNotes, hns.1, ← hleft]
    rfl
  · rw [hns.2]
    exact ⟨by decide, by decide⟩

theorem climbs_index {ls ms : List Lexeme} {i : Node Unit} (hlevel : level < bindingPower .lbracket)
    (hi : sub.Accepts lowest ls i) (hms : sub.Climbs level (.index () e i) ms e') :
    sub.Climbs level e ((.lbracket, "[") :: (ls ++ [(.rbracket, "]")] ++ ms)) e' := by
  refine climbs_cons hlevel (fun left s more hleft hs _ => ?_) hms
  rw [List.append_assoc] at hs
  rw [extend_apply, hs.current_kind]
  refine .traced (.current (.consume ?_))
  refine .bind (hi.gives _ _ (hs.enter _).consume (follows_cons (by decide) _)) fun n s' l hs' hn => ?_
  refine .expect hs' rfl (.pure hs'.consume ⟨?_, nofun, nofun⟩)
  rw [Node.strip, Node.mapNotes, ← hleft, ← hn.1]
  rfl

end Climb

/-- **Expressions.** What stands before the first operator, and the operators. -/
theorem accepts_expression {depth level top : Nat} {ls ms : List Lexeme} {e e' : Node Unit}
    (hls : (expression depth).AcceptsPrimary top ls e)
    (hnext : ∀ more, Follows level more → Follows top (ms ++ more))
    (hms : (expression depth).Climbs level e ms e') :
    (expression (depth + 1)).Accepts level (ls ++ ms) e' := by
  refine ⟨by rw [nextKind_append hls.starts]; exact hls.starts, fun s more hs hmore => ?_⟩
  rw [List.append_assoc] at hs
  refine .traced (.bind (hls.gives _ _ (hs.enter _) (hnext more hmore)) ?_)
  intro left s' l hs' hleft
  exact .budget (hms _ left s' l more hleft.1 hleft.2 hs' hmore hs'.length_tail_le_budget)

/-- An expression that ends before its first operator. -/
theorem accepts_of_primary {depth level top : Nat} {ls : List Lexeme} {e : Node Unit}
    (h : (expression depth).AcceptsPrimary top ls e) (hlevel : level ≤ top) :
    (expression (depth + 1)).Accepts level ls e := by
  have hnext : ∀ more, Follows level more → Follows top ([] ++ more) := fun _ hmore =>
    ⟨Nat.le_trans hmore.1 hlevel, hmore.2⟩
  have := accepts_expression h hnext climbs_nil
  rwa [List.append_nil] at this

/-! ## Programs -/

/-- Each of the statements is read before those that follow it. -/
def Sub.AcceptsBody (sub : Sub) : List (List Lexeme × Node Unit) → Prop
  | [] => True
  | p :: ps => sub.AcceptsBefore (ps.flatMap Prod.fst) p.1 p.2 ∧ sub.AcceptsBody ps

/-- Statements that are read whatever follows them, before others. -/
theorem acceptsBody_append : ∀ {ps qs : List (List Lexeme × Node Unit)},
    (∀ p ∈ ps, sub.AcceptsStatement p.1 p.2) → sub.AcceptsBody qs → sub.AcceptsBody (ps ++ qs)
  | [], _, _, hqs => hqs
  | p :: ps, _, hps, hqs => by
    rw [List.forall_mem_cons] at hps
    exact ⟨hps.1.before _, acceptsBody_append hps.2 hqs⟩

/-- Statements that are read one after the other. -/
theorem programBody_of_acceptsBody : ∀ (ps : List (List Lexeme × Node Unit)) (n : Nat) {s : State},
    sub.AcceptsBody ps → s.At (ps.flatMap Prod.fst) → (ps.flatMap Prod.fst).length ≤ n →
    Node.mapNotesAll (fun _ => ()) (programBody sub n s).1 = ps.map Prod.snd ∧
      (programBody sub n s).2.problems = s.problems
  | [], n, s, _, hs, _ => by
    rw [programBody_of_eof hs.current_kind]
    exact ⟨rfl, rfl⟩
  | p :: ps, n, s, ⟨hp, hps⟩, hs, hn => by
    have hpos := hp.length_pos
    rw [List.flatMap_cons, List.length_append] at hn
    obtain ⟨n, rfl⟩ : ∃ m, n = m + 1 := ⟨n - 1, by omega⟩
    rw [List.flatMap_cons] at hs
    have hcurrent : s.current.kind ≠ .eof := by
      rw [hp.current_kind hs]
      exact hp.starts
    obtain ⟨stmt, s', l, heq, hs', hproblems, hstmt⟩ := hp.gives _ hs
    obtain ⟨hbody, hmore⟩ := programBody_of_acceptsBody ps n hps hs'.consume (by omega)
    rw [programBody_succ, if_neg hcurrent, heq]
    refine ⟨?_, hmore.trans (s'.problems_consume.trans hproblems)⟩
    rw [Node.mapNotesAll, hbody]
    exact congrArg (· :: _) hstmt

/-- **Programs.** Whatever the places of the tokens are and whatever follows their end. -/
theorem program_of_acceptsBody {limit : Nat} {tokens : List Token} {ps : List (List Lexeme × Node Unit)}
    (hps : (expression limit).AcceptsBody ps)
    (htokens : (upToEnd tokens).map Token.bare = ps.flatMap Prod.fst) :
    (program limit tokens).problems = [] ∧
      (program limit tokens).program.strip = .program (ps.map Prod.snd) := by
  have hs : (State.start tokens).At (ps.flatMap Prod.fst) :=
    ⟨State.padded_start tokens, by rw [State.pending_start, htokens]⟩
  have hlength := (State.start tokens).length_pending_le_budget
  rw [State.pending_start, ← List.length_map, htokens] at hlength
  obtain ⟨hbody, hproblems⟩ := programBody_of_acceptsBody ps _ hps hs hlength
  rw [State.problems_start] at hproblems
  exact ⟨congrArg Array.toList hproblems, congrArg Node.program hbody⟩

end Parse

end SepiaLang
