import SepiaLang.Proofs.Parse.Accept
import SepiaLang.Proofs.Parse.NestingLimit

/-!
# Readers that give up

The rules for showing that a list of tokens is given up with a certain problem. The problem is in one part
of a phrase: the parts before it are read without a problem, and what follows it does not matter.

* `GivesUp`: a reader gives up, and the problem is the only one it has found.
* `Refuses`: the lexemes are given up, whatever follows them.
* `refuses_integer`, `refuses_unary`, `refuses_array`, `refuses_map`: one rule for each phrase.
* **`program_of_refuses`**: a program that starts with such lexemes has that problem first.
-/

namespace SepiaLang.Parse

open SepiaLang.Computation

/-! ## Giving up -/

/-- The reader has given up, and has found the one problem. -/
def GivesUp {α : Type} (s : State) (p : Problem) (outcome : Except Halt α × State) : Prop :=
  ∃ s', outcome = (.error .rejected, s') ∧ s'.problems = s.problems.push p

namespace GivesUp

variable {α β : Type} {s : State} {p : Problem} {l : Lexeme} {ls more : List Lexeme}

theorem reject (s : State) (p : Problem) : GivesUp s p ((Parse.reject p : Reader α) s) := ⟨_, rfl, rfl⟩

/-- What would have been read after it is not read. -/
theorem first {r : Reader α} {f : α → Reader β} (h : GivesUp s p (r s)) : GivesUp s p ((r >>= f) s) := by
  obtain ⟨s', heq, hs'⟩ := h
  exact ⟨s', bind_of_error heq f, hs'⟩

/-- **One reader after the other.** The first one has a result. -/
theorem bind {P : α → Kind → Prop} {r : Reader α} {f : α → Reader β} (hr : Gives s more P (r s))
    (hf : ∀ a s' l, s'.At (l :: more) → P a l.1 → GivesUp s' p (f a s')) :
    GivesUp s p ((r >>= f) s) := by
  obtain ⟨a, s₁, l, heq, hs₁, hproblems, ha⟩ := hr
  obtain ⟨s₂, heq', hs₂⟩ := hf a s₁ l hs₁ ha
  exact ⟨s₂, (bind_of_ok heq f).trans heq', by rw [hs₂, hproblems]⟩

theorem traced {r : Reader α} {phrase : Phrase} (h : GivesUp (s.enter phrase) p (r (s.enter phrase))) :
    GivesUp s p (Parse.traced phrase r s) := by
  obtain ⟨s', heq, hs'⟩ := h
  refine ⟨s'.leave phrase, ?_, hs'⟩
  unfold Parse.traced
  rw [heq]

/-! ### The window -/

variable {f : Unit → Reader β} {g : Token → Reader β} {k : Nat → Reader β}

theorem current (h : GivesUp s p (g s.current s)) : GivesUp s p ((Parse.current >>= g) s) := h

theorem ahead (h : GivesUp s p (g s.ahead s)) : GivesUp s p ((Parse.ahead >>= g) s) := h

theorem budget (h : GivesUp s p (k s.budget s)) : GivesUp s p ((Parse.budget >>= k) s) := h

theorem of_consume {outcome : Except Halt α × State} (h : GivesUp s.consume p outcome) :
    GivesUp s p outcome := by
  obtain ⟨s', heq, hs'⟩ := h
  exact ⟨s', heq, by rw [hs', State.problems_consume]⟩

theorem consume (h : GivesUp s.consume p (f () s.consume)) : GivesUp s p ((Parse.consume >>= f) s) :=
  of_consume h

theorem expect {kind : Kind} (hs : s.At (l :: ls)) (hk : nextKind ls = kind)
    (h : GivesUp s.consume p (f () s.consume)) : GivesUp s p ((Parse.expect kind >>= f) s) := by
  rw [bind_of_ok (expect_of_eq (hs.ahead_kind.trans hk))]
  exact of_consume h

end GivesUp

/-- The reader gives up the lexemes, whatever follows them. -/
structure Refuses (r : Reader (Node Token)) (ls : List Lexeme) (p : Problem) : Prop where
  starts : nextKind ls ∈ startKinds
  givesUp : ∀ (s : State) (more : List Lexeme), s.At (ls ++ more) → GivesUp s p (r s)

variable {sub : Sub} {p : Problem} {ls bad : List Lexeme} {back : List (List Lexeme)}

/-! ## Lists -/

/-- A list of expressions goes on with one. -/
theorem State.At.ahead_ne {s : State} {l : Lexeme} {more : List Lexeme} (hs : s.At (l :: (ls ++ more)))
    (hstarts : nextKind ls ∈ startKinds) {kind : Kind} (hkind : kind ∉ startKinds) : s.ahead.kind ≠ kind := by
  rw [hs.ahead_kind, nextKind_append hstarts]
  exact ne_of_start hstarts hkind

/-- What follows an element of a list that is not the last one. -/
theorem follows_further_append (lss : List (List Lexeme)) (more : List Lexeme) :
    Follows lowest (further (lss ++ bad :: back) ++ more) := by
  obtain ⟨first, rest, hfirst⟩ : ∃ first rest, lss ++ bad :: back = first :: rest :=
    List.exists_cons_of_ne_nil (by simp)
  rw [hfirst, further_cons]
  exact ⟨Nat.le_refl 1, nofun⟩

theorem givesUp_moreItems (hbad : Refuses (sub lowest) bad p) : ∀ (ps : List (List Lexeme × Node Unit))
    (n : Nat) {s : State} {l : Lexeme} {more : List Lexeme}, (∀ q ∈ ps, sub.Accepts lowest q.1 q.2) →
    s.At (l :: (further (ps.map Prod.fst ++ bad :: back) ++ more)) →
    (further (ps.map Prod.fst ++ bad :: back)).length ≤ n → GivesUp s p (moreItems sub n s)
  | [], 0, _, _, _, _, _, hn | _ :: _, 0, _, _, _, _, _, hn => by simp [further] at hn
  | [], n + 1, s, l, more, _, hs, _ => by
    rw [List.map_nil, List.nil_append, further_cons, joined, List.cons_append, List.append_assoc] at hs
    have hcomma : s.ahead.kind = .comma := hs.ahead_kind
    refine .ahead ?_
    rw [if_pos hcomma]
    exact .consume (.consume (.first (hbad.givesUp _ _ hs.consume.consume)))
  | q :: ps, n + 1, s, l, more, hps, hs, hn => by
    rw [List.map_cons, List.cons_append, further_cons, joined, List.length_cons, List.length_append] at hn
    rw [List.map_cons, List.cons_append, further_cons, joined, List.cons_append, List.append_assoc] at hs
    rw [List.forall_mem_cons] at hps
    have hcomma : s.ahead.kind = .comma := hs.ahead_kind
    refine .ahead ?_
    rw [if_pos hcomma]
    have hfirst := hps.1.gives _ _ hs.consume.consume (follows_further_append _ _)
    refine .consume (.consume (.bind hfirst fun e s' l' hs' _ => .first ?_))
    exact givesUp_moreItems hbad ps n hps.2 hs' (by omega)

theorem givesUp_items {closing : Kind} (hclosing : closing ∉ startKinds) (hbad : Refuses (sub lowest) bad p)
    {ps : List (List Lexeme × Node Unit)} (hps : ∀ q ∈ ps, sub.Accepts lowest q.1 q.2)
    {s : State} {l : Lexeme} {more : List Lexeme}
    (hs : s.At (l :: (joined (ps.map Prod.fst ++ bad :: back) ++ more))) :
    GivesUp s p (items sub closing s) := by
  refine .ahead ?_
  cases ps with
  | nil =>
    rw [List.map_nil, List.nil_append, joined, List.append_assoc] at hs
    rw [if_neg (hs.ahead_ne hbad.starts hclosing)]
    exact .consume (.first (hbad.givesUp _ _ hs.consume))
  | cons q ps =>
    rw [List.forall_mem_cons] at hps
    rw [List.map_cons, List.cons_append, joined, List.append_assoc] at hs
    rw [if_neg (hs.ahead_ne hps.1.starts hclosing)]
    have hfirst := hps.1.gives _ _ hs.consume (follows_further_append _ _)
    refine .consume (.bind hfirst fun e s' l' hs' _ => .budget (.first ?_))
    exact givesUp_moreItems hbad ps _ hps.2 hs' hs'.length_tail_le_budget

/-- In the entry of a map the key is given up, or it is read and the value is given up. -/
inductive Sub.RefusesEntry (sub : Sub) (p : Problem) : List Lexeme → Prop
  | key {ks vs : List Lexeme} (h : Refuses (sub lowest) ks p) : RefusesEntry sub p (ks ++ (.colon, ":") :: vs)
  | value {ks vs : List Lexeme} {k : Node Unit} (hk : sub.Accepts lowest ks k)
      (h : Refuses (sub lowest) vs p) : RefusesEntry sub p (ks ++ (.colon, ":") :: vs)

theorem Sub.RefusesEntry.starts (h : sub.RefusesEntry p bad) : nextKind bad ∈ startKinds := by
  cases h with
  | key h =>
    rw [nextKind_append h.starts]
    exact h.starts
  | value hk =>
    rw [nextKind_append hk.starts]
    exact hk.starts

theorem givesUp_entries (hbad : sub.RefusesEntry p bad) : ∀ (ps : List EntryLexemes) (n : Nat) {s : State}
    {l : Lexeme} {more : List Lexeme},
    (∀ q ∈ ps, sub.Accepts lowest q.1.1 q.1.2 ∧ sub.Accepts lowest q.2.1 q.2.2) →
    s.At (l :: (joined (ps.map entry ++ bad :: back) ++ more)) →
    (joined (ps.map entry ++ bad :: back)).length ≤ n → GivesUp s p (entries sub n s)
  | [], 0, _, _, _, _, _, hn => by
    cases hbad <;> simp [joined] at hn
  | q :: ps, 0, _, _, _, _, _, hn => by simp [joined, entry] at hn
  | [], n + 1, s, l, more, _, hs, _ => by
    rw [List.map_nil, List.nil_append, joined, List.append_assoc] at hs
    refine .ahead ?_
    rw [if_neg (not_or.2 ⟨hs.ahead_ne hbad.starts (by decide), hs.ahead_ne hbad.starts (by decide)⟩)]
    cases hbad with
    | key h =>
      rw [List.append_assoc] at hs
      exact .consume (.first (h.givesUp _ _ hs.consume))
    | value hk h =>
      rw [List.append_assoc] at hs
      refine .consume (.bind (hk.gives _ _ hs.consume (follows_cons (by decide) _)) fun k s₁ l₁ hs₁ _ => ?_)
      exact .expect hs₁ rfl (.consume (.first (h.givesUp _ _ hs₁.consume.consume)))
  | q :: ps, n + 1, s, l, more, hps, hs, hn => by
    rw [List.map_cons, List.cons_append, joined, entry, List.append_assoc, List.append_assoc] at hs
    rw [List.map_cons, List.cons_append, joined, List.length_append] at hn
    rw [List.forall_mem_cons] at hps
    obtain ⟨⟨hkey, hvalue⟩, hps⟩ := hps
    refine .ahead ?_
    rw [if_neg (not_or.2 ⟨hs.ahead_ne hkey.starts (by decide), hs.ahead_ne hkey.starts (by decide)⟩)]
    refine .consume (.bind (hkey.gives _ _ hs.consume (follows_cons (by decide) _)) fun k s₁ l₁ hs₁ _ => ?_)
    refine .expect hs₁ rfl (.consume ?_)
    have hs₂ := hs₁.consume.consume
    refine .bind (hvalue.gives _ _ hs₂ (follows_further_append _ _)) fun v s₃ l₃ hs₃ _ => .ahead ?_
    -- a further entry follows, so there is a comma
    obtain ⟨ms, lss, hfurther⟩ : ∃ ms lss, ps.map entry ++ bad :: back = ms :: lss :=
      List.exists_cons_of_ne_nil (by simp)
    rw [hfurther, further_cons, ← hfurther] at hs₃
    rw [hfurther, further_cons, ← hfurther, List.length_cons] at hn
    have hcomma : s₃.ahead.kind = .comma := hs₃.ahead_kind
    dsimp only
    rw [if_pos (by simp [hcomma])]
    exact .expect hs₃ rfl (.first (givesUp_entries hbad ps n hps hs₃.consume (by omega)))

/-! ## Expressions -/

/-- A number that cannot be read, or that is too large. -/
theorem refuses_integer {literal : String}
    (h : ∀ n, Text.readInt literal = .ok n → Word64.greatest < n) :
    Refuses (primary sub) [(.int, literal)] (.badInteger literal) := by
  refine ⟨show Kind.int ∈ startKinds by decide, fun s more hs => ?_⟩
  have hliteral : s.current.literal = literal := congrArg Prod.snd hs.current
  rw [primary_apply, hs.current_kind]
  refine .current ?_
  rw [hliteral]
  cases hread : Text.readInt literal with
  | error e => exact .reject s _
  | ok n =>
    dsimp only
    rw [if_neg (Int.not_le.2 (h n hread))]
    exact .reject s _

theorem refuses_unary {kind : Kind} (hkind : kind ∈ prefixKinds) (op : String)
    (h : Refuses (sub tight) ls p) : Refuses (primary sub) ((kind, op) :: ls) p := by
  have hstart : ∀ k ∈ prefixKinds, k ∈ startKinds := by decide
  refine ⟨hstart kind hkind, fun s more hs => ?_⟩
  rw [primary_of_sign (hs.current_kind ▸ hkind)]
  exact .traced (.current (.consume (.first (h.givesUp _ _ (hs.enter _).consume))))

/-- An array with an element that is given up. -/
theorem refuses_array {ps : List (List Lexeme × Node Unit)} (hps : ∀ q ∈ ps, sub.Accepts lowest q.1 q.2)
    (hbad : Refuses (sub lowest) bad p) (back : List (List Lexeme)) :
    Refuses (primary sub)
      ((.lbracket, "[") :: (joined (ps.map Prod.fst ++ bad :: back) ++ [(.rbracket, "]")])) p := by
  refine ⟨show Kind.lbracket ∈ startKinds by decide, fun s more hs => ?_⟩
  rw [List.cons_append, List.append_assoc] at hs
  rw [primary_apply, hs.current_kind]
  exact .current (.first (givesUp_items (by decide) hbad hps hs))

/-- A map with an entry that is given up. -/
theorem refuses_map {ps : List EntryLexemes}
    (hps : ∀ q ∈ ps, sub.Accepts lowest q.1.1 q.1.2 ∧ sub.Accepts lowest q.2.1 q.2.2)
    (hbad : sub.RefusesEntry p bad) (back : List (List Lexeme)) :
    Refuses (primary sub)
      ((.lbrace, "\x7b") :: (joined (ps.map entry ++ bad :: back) ++ [(.rbrace, "\x7d")])) p := by
  refine ⟨show Kind.lbrace ∈ startKinds by decide, fun s more hs => ?_⟩
  rw [List.cons_append, List.append_assoc] at hs
  rw [primary_apply, hs.current_kind]
  exact .current (.budget (.first (givesUp_entries hbad ps _ hps hs hs.length_tail_le_budget)))

/-- An expression is given up before its first operator. -/
theorem refuses_of_primary {depth : Nat} (h : Refuses (primary (expression depth)) ls p) (level : Nat) :
    Refuses (expression (depth + 1) level) ls p :=
  ⟨h.starts, fun _ _ hs => .traced (.first (h.givesUp _ _ (hs.enter _)))⟩

/-! ## Programs -/

theorem givesUp_statement (h : Refuses (sub lowest) ls p) {s : State} {more : List Lexeme}
    (hs : s.At (ls ++ more)) : GivesUp s p (statement sub s) := by
  rw [statement_of_start (by rw [hs.current_kind, nextKind_append h.starts]; exact h.starts)]
  obtain ⟨s', heq, hs'⟩ := h.givesUp _ _ (hs.enter .expressionStatement)
  have hattempt : attempt (sub lowest) (s.enter .expressionStatement) = (.ok none, s') := by
    unfold attempt
    rw [heq]
  obtain ⟨s'', hskip, hs''⟩ : ∃ s'', skip .semicolon s' = (.ok (), s'') ∧ s''.problems = s'.problems := by
    by_cases hsemicolon : s'.ahead.kind = .semicolon
    · exact ⟨_, skip_of_eq hsemicolon, s'.problems_consume⟩
    · exact ⟨_, skip_of_ne hsemicolon, rfl⟩
  refine .traced (.current ?_)
  rw [bind_of_ok hattempt, bind_of_ok hskip]
  exact ⟨s'', rfl, hs''.trans hs'⟩

/-- **Programs.** The problem of the expression that a program starts with is its first one. -/
theorem program_of_refuses {limit : Nat} {tokens : List Token} {more : List Lexeme}
    (h : Refuses (expression limit lowest) ls p)
    (htokens : (upToEnd tokens).map Token.bare = ls ++ more) :
    (program limit tokens).problems.head? = some p := by
  have hs : (State.start tokens).At (ls ++ more) :=
    ⟨State.padded_start tokens, by rw [State.pending_start, htokens]⟩
  have heof : (State.start tokens).current.kind ≠ .eof := by
    rw [hs.current_kind, nextKind_append h.starts]
    exact ne_of_start h.starts (by decide)
  obtain ⟨s', heq, hs'⟩ := givesUp_statement h hs
  have hkept := keptBy_statement_then (outlasts_itself limit) ((State.start tokens).rest.length + 1) heof
  rw [State.KeptBy, heq, hs', State.problems_start] at hkept
  obtain ⟨rest, hrest⟩ := hkept
  exact congrArg List.head? hrest.symm

end SepiaLang.Parse
