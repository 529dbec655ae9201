import SepiaLang.Proofs.Parse.Apply
import SepiaLang.Proofs.Parse.Yield

/-!
# Readers that find no problem

A reader that finds no problem has read exactly the tokens of the tree that it gives, from the first
one, on which the window rested, to the last one, on which the window rests then.

* `Sound`: what a reader gives from one state, if it has found no problem (`Sound.bind`).
* `sound_expression`: so do expressions, at every depth of nesting.
* `yields_upToEnd`: a program without problems yields the tokens up to the end.
* **`tokens_written_down`**: no token is lost, and the blocks are those that were closed.
-/

namespace SepiaLang.Parse

open SepiaLang.Computation

/-! ## Outcomes without problems -/

/-- The outcome of a reader from the state `s`. Problems are never forgotten. If there are none, and
if what is known of the state (`C`) holds, then a result satisfies `Q`, and there is one unless
expressions are nested too deeply. -/
structure Sound {α : Type} (C : Prop) (s : State) (Q : α → State → Prop)
    (outcome : Except Halt α × State) : Prop where
  problems : s.problems ≠ #[] → outcome.2.problems ≠ #[]
  padded : s.Padded → outcome.2.Padded
  result : C → s.Padded → outcome.2.problems = #[] →
    match outcome.1 with
    | .ok a => Q a outcome.2
    | .error h => h = .tooDeep

namespace Sound

variable {α β : Type} {C : Prop} {s : State} {P : α → State → Prop} {Q : β → State → Prop}

theorem pure {a : α} (h : C → s.Padded → P a s) : Sound C s P ((Pure.pure a : Reader α) s) :=
  ⟨id, id, fun hC hs _ => h hC hs⟩

theorem tooDeep : Sound C s P ((throw .tooDeep : Reader α) s) := ⟨id, id, fun _ _ _ => rfl⟩

/-- A reader gives up only where that cannot be, or with a problem. -/
theorem rejected (h : ¬ C) : Sound C s P ((throw .rejected : Reader α) s) :=
  ⟨id, id, fun hC => absurd hC h⟩

theorem reported {outcome : Except Halt α × State} {p : Problem} (h : outcome.2 = s.report p) :
    Sound C s P outcome := by
  have hne : outcome.2.problems ≠ #[] := by simp [h]
  refine ⟨fun _ => hne, fun hs => ?_, fun _ _ hp => absurd hp hne⟩
  rw [h]
  exact hs

theorem reject (p : Problem) : Sound C s P ((Parse.reject p : Reader α) s) := reported rfl

theorem mono {P' : α → State → Prop} {outcome : Except Halt α × State} (h : Sound C s P outcome)
    (hP : ∀ a s', C → P a s' → P' a s') : Sound C s P' outcome := by
  refine ⟨h.problems, h.padded, fun hC hs hp => ?_⟩
  have := h.result hC hs hp
  rcases outcome with ⟨e | a, s'⟩
  · exact this
  · exact hP a s' hC this

/-- **One reader after the other.** What the first one gives is known when the second one starts. -/
theorem bind {r : Reader α} {f : α → Reader β} (hr : Sound C s P (r s))
    (hf : ∀ a s', Sound (C ∧ P a s') s' Q (f a s')) : Sound C s Q ((r >>= f) s) := by
  rw [bind_apply]
  rcases hx : r s with ⟨e | a, s'⟩
  · rw [hx] at hr
    exact ⟨hr.problems, hr.padded, hr.result⟩
  · rw [hx] at hr
    have hf := hf a s'
    refine ⟨hf.problems ∘ hr.problems, hf.padded ∘ hr.padded, fun hC hs hp => ?_⟩
    have hs' : s'.problems = #[] := Classical.byContradiction fun h => hf.problems h hp
    exact hf.result ⟨hC, hr.result hC hs hs'⟩ (hr.padded hs) hp

/-- Once a problem is found, only that it stays matters. -/
theorem report {p : Problem} {f : Unit → Reader β}
    (h : Sound False (s.report p) Q (f () (s.report p))) : Sound C s Q ((Parse.report p >>= f) s) := by
  have hne : (f () (s.report p)).2.problems ≠ #[] := h.problems (by simp)
  exact ⟨fun _ => hne, h.padded, fun _ _ hp => absurd hp hne⟩

theorem known {outcome : Except Halt α × State} (h : Sound (C ∧ s.Padded) s P outcome) :
    Sound C s P outcome :=
  ⟨h.problems, h.padded, fun hC hs hp => h.result ⟨hC, hs⟩ hs hp⟩

/-! ### The window -/

variable {f : Unit → Reader β} {g : Token → Reader β} {k : Nat → Reader β}

theorem current (h : Sound C s Q (g s.current s)) : Sound C s Q ((Parse.current >>= g) s) := h

theorem ahead (h : Sound C s Q (g s.ahead s)) : Sound C s Q ((Parse.ahead >>= g) s) := h

theorem budget (h : Sound C s Q (k s.budget s)) : Sound C s Q ((Parse.budget >>= k) s) := h

theorem of_consume {outcome : Except Halt α × State} (h : Sound C s.consume P outcome) :
    Sound C s P outcome :=
  ⟨fun hp => h.problems (by rwa [State.problems_consume]), fun hs => h.padded hs.consume,
    fun hC hs hp => h.result hC hs.consume hp⟩

theorem consume (h : Sound C s.consume Q (f () s.consume)) :
    Sound C s Q ((Parse.consume >>= f) s) := of_consume h

/-- The token ahead is of the kind that is expected, or there is a problem. -/
theorem expect {kind : Kind}
    (h : s.ahead.kind = kind → Sound C s.consume Q (f () s.consume)) :
    Sound C s Q ((Parse.expect kind >>= f) s) := by
  by_cases hk : s.ahead.kind = kind
  · rw [bind_of_ok (expect_of_eq hk)]
    exact of_consume (h hk)
  · rw [bind_of_error (expect_of_ne hk)]
    exact reported rfl

/-- The token ahead is passed over if it is of the given kind. -/
theorem skip {kind : Kind}
    (h : ∀ us s', Optional kind us → Moves s us s' → Sound C s' Q (f () s')) :
    Sound C s Q ((Parse.skip kind >>= f) s) := by
  by_cases hk : s.ahead.kind = kind
  · rw [bind_of_ok (skip_of_eq hk)]
    exact of_consume (h [s.ahead] _ (.inr ⟨_, hk, rfl⟩) (.one s))
  · rw [bind_of_ok (skip_of_ne hk)]
    exact h [] s (.inl rfl) (.refl s)

/-- A reader that gives up finds a problem. -/
theorem attempt {r : Reader α} (h : Sound C s P (r s)) :
    Sound C s (fun a? s' => ∃ a, a? = some a ∧ P a s') (Parse.attempt r s) := by
  unfold Parse.attempt
  rcases hx : r s with ⟨(_ | _) | a, s'⟩ <;> rw [hx] at h
  · exact ⟨h.problems, h.padded, fun hC hs hp => nomatch h.result hC hs hp⟩
  · exact ⟨h.problems, h.padded, h.result⟩
  · exact ⟨h.problems, h.padded, fun hC hs hp => ⟨a, rfl, h.result hC hs hp⟩⟩

end Sound

/-! ## What is read -/

/-- Between the states the tokens of the form are read, the first of which is the current one of the
first state. -/
def Reads (s : State) (f : Form) (s' : State) : Prop :=
  ∃ ts, Moves s ts s' ∧ Yields f (s.current :: ts)

/-- Between the states the tokens of the form are read, all of them after the current one of the
first state. -/
def Takes (s : State) (f : Form) (s' : State) : Prop := ∃ ts, Moves s ts s' ∧ Yields f ts

theorem Reads.of_consume {s s' : State} {f : Form} (h : Reads s.consume f s') : Takes s f s' := by
  obtain ⟨ts, hm, hy⟩ := h
  rw [State.current_consume] at hy
  exact ⟨_, .some hm, hy⟩

theorem Reads.traced {s s' : State} {f : Form} {phrase : Phrase} (h : Reads (s.enter phrase) f s') :
    Reads s f (s'.leave phrase) := by
  obtain ⟨ts, hm, hy⟩ := h
  exact ⟨ts, hm.enter.leave phrase, hy⟩

/-- The window rests on the last token of an expression. -/
theorem Reads.current_kind {s s' : State} {n : Node Token} (h : Reads s (.expression n) s') :
    s'.current.kind ≠ .eof ∧ s'.current.kind ≠ .semicolon := by
  obtain ⟨ts, hm, hy⟩ := h
  have hlast : (s.current :: ts).getLast? = some s'.current := by
    rw [hm.current_eq, List.getLast?_cons, List.getLastD_eq_getLast?]
  exact ⟨hy.kind_ne_eof _ (List.mem_of_getLast? hlast), hy.endsWell rfl _ hlast⟩

/-- What is read comes off the list. -/
theorem Reads.coming_eq {s s' : State} {f : Form} (h : Reads s f s') (hs : s.Padded) :
    ∃ ts, Yields f (s.current :: ts) ∧ s.coming = ts ++ s'.coming := by
  obtain ⟨ts, hm, hy⟩ := h
  exact ⟨ts, hy, hm.coming_eq hs fun t ht => hy.kind_ne_eof t (List.mem_cons_of_mem _ ht)⟩

/-- A record of the reading does not change what is read. -/
theorem Sound.traced {α : Type} {C : Prop} {s : State} {r : Reader α} {phrase : Phrase}
    {P P' : α → State → Prop} (h : Sound C (s.enter phrase) P (r (s.enter phrase)))
    (hP : ∀ a s', P a s' → P' a (s'.leave phrase)) : Sound C s P' (traced phrase r s) := by
  change Sound C s _ ((r (s.enter phrase)).1, (r (s.enter phrase)).2.leave phrase)
  rcases hx : r (s.enter phrase) with ⟨x, s'⟩
  rw [hx] at h
  refine ⟨h.problems, h.padded, fun hC hs hp => ?_⟩
  have := h.result hC hs hp
  rcases x with e | a
  · exact this
  · exact hP a s' this

theorem Sound.traced_reads {α : Type} {C : Prop} {s : State} {r : Reader α} {phrase : Phrase}
    {F : α → Form}
    (h : Sound C (s.enter phrase) (fun a => Reads (s.enter phrase) (F a)) (r (s.enter phrase))) :
    Sound C s (fun a => Reads s (F a)) (Parse.traced phrase r s) :=
  h.traced fun _ _ => Reads.traced

/-- The reader of expressions above a level finds expressions. -/
def Sub.Sound (sub : Sub) : Prop :=
  ∀ (C : Prop) (level : Nat) (s : State), lowest ≤ level →
    Parse.Sound C s (fun n => Reads s (.expression n)) (sub level s)

theorem Sub.Sound.lowest {sub : Sub} (h : sub.Sound) (C : Prop) (s : State) :
    Parse.Sound C s (fun n => Reads s (.expression n)) (sub Parse.lowest s) :=
  h C _ s (Nat.le_refl _)

section Phrases

variable {sub : Sub} {C : Prop}

/-! ## Lists -/

theorem sound_moreParams : ∀ (n : Nat) (s : State),
    Sound C s (fun xs => Takes s (.moreNames xs)) (moreParams n s)
  | 0, s => .pure fun _ _ => ⟨[], .refl s, .noMoreNames⟩
  | n + 1, s => by
    refine .ahead ?_
    split
    next hc =>
      refine .consume (.expect fun ht => .current ?_)
      rw [State.current_consume]
      refine .bind (sound_moreParams n _) fun xs s' => .pure fun ⟨_, ts, hm, hy⟩ _ => ?_
      exact ⟨_, .some (.some hm), .moreNames hc ht hy⟩
    next => exact .pure fun _ _ => ⟨[], .refl s, .noMoreNames⟩

/-- Between the states the tokens of the form are read, and one of the given kind that closes it. -/
def Closes (s : State) (f : Form) (kind : Kind) (s' : State) : Prop :=
  ∃ ts t, Moves s (ts ++ [t]) s' ∧ Yields f ts ∧ t.kind = kind

theorem Takes.closes {s s' : State} {f : Form} {kind : Kind} (h : Takes s f s')
    (hk : s'.ahead.kind = kind) : Closes s f kind s'.consume := by
  obtain ⟨ts, hm, hy⟩ := h
  exact ⟨ts, s'.ahead, hm.trans (.one s'), hy, hk⟩

theorem sound_params (s : State) :
    Sound C s (fun xs => Closes s (.names xs) .rparen) (params s) := by
  refine .ahead ?_
  split
  next hc =>
    refine .consume (.pure fun _ _ => ?_)
    exact Takes.closes ⟨[], .refl s, .noNames⟩ hc
  next =>
    refine .expect fun ht => .current ?_
    rw [State.current_consume]
    refine .budget (.bind (sound_moreParams _ _) fun xs s' => .expect fun hc => ?_)
    refine .pure fun ⟨_, ts, hm, hy⟩ _ => ?_
    exact Takes.closes ⟨_, .some hm, .names ht hy⟩ hc

variable (hsub : sub.Sound)
include hsub

theorem sound_moreItems : ∀ {C : Prop} (n : Nat) (s : State),
    Sound C s (fun ns => Takes s (.moreItems ns)) (moreItems sub n s)
  | _, 0, s => .pure fun _ _ => ⟨[], .refl s, .noMoreItems⟩
  | _, n + 1, s => by
    refine .ahead ?_
    split
    next hc =>
      refine .consume (.consume (.bind (hsub.lowest _ _) fun e s₁ => ?_))
      refine .bind (sound_moreItems n s₁) fun ns s₂ => .pure fun ⟨⟨_, he⟩, us, hm', hus⟩ _ => ?_
      obtain ⟨ts, hm, hts⟩ := he.of_consume
      exact ⟨_, .some (hm.trans hm'), .moreItems hc hts hus⟩
    next => exact .pure fun _ _ => ⟨[], .refl s, .noMoreItems⟩

theorem sound_items (closing : Kind) (s : State) :
    Sound C s (fun ns => Closes s (.items ns) closing) (items sub closing s) := by
  refine .ahead ?_
  split
  next hc =>
    refine .consume (.pure fun _ _ => ?_)
    exact Takes.closes ⟨[], .refl s, .noItems⟩ hc
  next =>
    refine .consume (.bind (hsub.lowest _ _) fun e s₁ => .budget ?_)
    refine .bind (sound_moreItems hsub _ s₁) fun ns s₂ => .expect fun hc => ?_
    refine .pure fun ⟨⟨_, he⟩, us, hm', hus⟩ _ => ?_
    obtain ⟨ts, hm, hts⟩ := he.of_consume
    exact Takes.closes ⟨_, hm.trans hm', .items hts hus⟩ hc

theorem sound_entries : ∀ {C : Prop} (n : Nat) (s : State),
    Sound C s (fun ps => Takes s (.entries ps)) (entries sub n s)
  | _, 0, s => .pure fun _ _ => ⟨[], .refl s, .noEntries⟩
  | _, n + 1, s => by
    refine .ahead ?_
    split
    next => exact .pure fun _ _ => ⟨[], .refl s, .noEntries⟩
    next =>
      refine .consume (.bind (hsub.lowest _ _) fun k s₁ => .expect fun hc => .consume ?_)
      refine .bind (hsub.lowest _ _) fun v s₂ => .ahead ?_
      dsimp only
      split
      next =>
        refine .expect fun hcomma => .bind (sound_entries n _) fun ps s₃ => ?_
        refine .pure fun ⟨⟨⟨_, hk⟩, hv⟩, vs, hm₃, hvs⟩ _ => ?_
        obtain ⟨ts, hm₁, hts⟩ := hk.of_consume
        obtain ⟨us, hm₂, hus⟩ := hv.of_consume
        exact ⟨_, (hm₁.trans (.some hm₂)).trans (.some hm₃), .entry hts hc hus hcomma hvs⟩
      next hbrace =>
        rw [Decidable.not_not] at hbrace
        rw [bind_of_ok (entries_of_rbrace hbrace n)]
        refine .pure fun ⟨⟨_, hk⟩, hv⟩ _ => ?_
        obtain ⟨ts, hm₁, hts⟩ := hk.of_consume
        obtain ⟨us, hm₂, hus⟩ := hv.of_consume
        exact ⟨_, hm₁.trans (.some hm₂), .lastEntry hts hc hus⟩

/-! ## Statements -/

/-- Between the states the rest of a statement that binds a name is read. -/
def Binds (s : State) (x : Ident Token) (n : Node Token) (s' : State) : Prop :=
  ∃ t sign ts us, Moves s (t :: sign :: ts ++ us) s' ∧ x = ⟨t.literal, t⟩ ∧ t.kind = .ident ∧
    sign.kind = .assign ∧ Yields (.expression n) ts ∧ Optional .semicolon us

theorem sound_binding (s : State) : Sound C s (fun p => Binds s p.1 p.2) (binding sub s) := by
  refine .expect fun ht => .current ?_
  rw [State.current_consume]
  refine .expect fun hsign => .consume (.bind (hsub.lowest _ _) fun n s₁ => ?_)
  refine .skip fun us s₂ hend hm₂ => .pure fun ⟨_, hn⟩ _ => ?_
  obtain ⟨ts, hm₁, hts⟩ := hn.of_consume
  exact ⟨_, _, ts, us, .some (.some (hm₁.trans hm₂)), rfl, ht, hsign, hts, hend⟩

/-- A return without a semicolon ends where the block or the list ends. -/
def AtEnd (s : State) : Prop := s.ahead.kind = .eof ∨ s.ahead.kind = .closeBlock

/-- The tokens end a return: there is a semicolon, or nothing follows it. -/
def EndsReturn (ts : List Token) (s : State) : Prop :=
  (∃ run t, ts = run ++ [t] ∧ Loose run ∧ t.kind = .semicolon) ∨ Loose ts ∧ AtEnd s

omit hsub in
theorem EndsReturn.cons {t : Token} {ts : List Token} {s : State} (heof : t.kind ≠ .eof)
    (hclose : t.kind ≠ .closeBlock) (hsemi : t.kind ≠ .semicolon) (h : EndsReturn ts s) :
    EndsReturn (t :: ts) s := by
  have hcons : ∀ {run : List Token}, Loose run → Loose (t :: run) := fun hrun =>
    List.forall_mem_cons.2 ⟨⟨hsemi, hclose, heof⟩, hrun⟩
  rcases h with ⟨run, u, rfl, hrun, hu⟩ | ⟨hrun, hat⟩
  · exact .inl ⟨t :: run, u, rfl, hcons hrun, hu⟩
  · exact .inr ⟨hcons hrun, hat⟩

omit hsub in
/-- The window stays on a semicolon. From any other token it moves to the end of the return. -/
theorem sound_skipToSemicolon : ∀ {C : Prop} (n : Nat) (s : State), (C → s.coming.length < n) →
    Sound C s (fun _ s' => s.current.kind ≠ .eof → ∃ ts, Moves s ts s' ∧
      (s.current.kind = .semicolon → ts = []) ∧ (s.current.kind ≠ .semicolon → EndsReturn ts s'))
      (skipToSemicolon n s)
  | _, 0, s, hn => .pure fun hC => absurd (hn hC) (by omega)
  | C, n + 1, s, hn => by
    refine .current (.ahead ?_)
    split
    next hend =>
      refine .pure fun _ _ hs => ⟨[], .refl s, fun _ => rfl, fun hsemi => ?_⟩
      rw [or_iff_right hsemi, or_iff_right hs] at hend
      exact .inr ⟨by simp [Loose], hend⟩
    next hend =>
      obtain ⟨hsemi, -, heof, hclose⟩ : s.current.kind ≠ .semicolon ∧ s.current.kind ≠ .eof ∧
          s.ahead.kind ≠ .eof ∧ s.ahead.kind ≠ .closeBlock := by simpa using hend
      have hshorter : C ∧ s.Padded → s.consume.coming.length < n := by
        rintro ⟨hC, hs⟩
        have := hn hC
        rw [State.coming_eq_cons hs heof, List.length_cons] at this
        omega
      refine .known (.consume ((sound_skipToSemicolon n s.consume hshorter).mono fun _ s' _ h _ => ?_))
      rw [State.current_consume] at h
      obtain ⟨ts, hm, hstay, hts⟩ := h heof
      refine ⟨s.ahead :: ts, .some hm, fun hk => absurd hk hsemi, fun _ => ?_⟩
      by_cases hk : s.ahead.kind = .semicolon
      · rw [hstay hk]
        exact .inl ⟨[], s.ahead, rfl, by simp [Loose], hk⟩
      · exact (hts hk).cons heof hclose hk

/-- Between the states a statement is read, which may be a return without a semicolon if nothing
follows it. -/
def ReadsStatement (s : State) (n : Node Token) (s' : State) : Prop :=
  Reads s (.statement n) s' ∨ Reads s (.statements [n]) s' ∧ AtEnd s'

omit hsub in
theorem ReadsStatement.length_coming_le {s s' : State} {n : Node Token} (h : ReadsStatement s n s')
    (hs : s.Padded) : s'.coming.length ≤ s.coming.length := by
  obtain ⟨f, hf⟩ : ∃ f, Reads s f s' := h.elim (⟨_, ·⟩) (⟨_, ·.1⟩)
  obtain ⟨ts, -, heq⟩ := hf.coming_eq hs
  rw [heq, List.length_append]
  exact Nat.le_add_left _ _

omit hsub in
/-- The rest of the list after a statement are further statements, none if it is empty. -/
theorem ReadsStatement.yields {s s' : State} {n : Node Token} {ns : List (Node Token)}
    (h : ReadsStatement s n s') (hs : s.Padded) (hs' : s'.Padded)
    (hns : Yields (.statements ns) s'.coming) (hnil : s'.ahead.kind = .eof → ns = []) :
    Yields (.statements (n :: ns)) (s.current :: s.coming) := by
  rcases h with h | ⟨h, heof | hclose⟩
  · obtain ⟨ts, hts, heq⟩ := h.coming_eq hs
    rw [heq]
    exact .statements hts hns
  · obtain ⟨ts, hts, heq⟩ := h.coming_eq hs
    rw [heq, State.coming_eq_nil heof, List.append_nil, hnil heof]
    exact hts
  · -- no statement starts with the word that closes a block
    rw [State.coming_eq_cons hs' (by simp [hclose])] at hns
    exact absurd hclose (hns.startsWell rfl _ rfl).1

theorem sound_valueStatement {s : State} (hs : s.current.kind = .valueWord) :
    Sound C s (fun n => Reads s (.statement n)) (valueStatement sub s) := by
  refine .traced_reads (.current (.bind (sound_binding hsub _) fun p s' => .pure fun ⟨_, hp⟩ _ => ?_))
  obtain ⟨t, sign, ts, us, hm, hx, ht, hsign, hts, hus⟩ := hp
  rw [hx]
  exact ⟨_, hm, .valueStmt hs ht hsign hts hus⟩

theorem sound_updateStatement {s : State} (hs : s.current.kind = .updateWord) :
    Sound C s (fun n => Reads s (.statement n)) (updateStatement sub s) := by
  refine .traced_reads (.current (.bind (sound_binding hsub _) fun p s' => .pure fun ⟨_, hp⟩ _ => ?_))
  obtain ⟨t, sign, ts, us, hm, hx, ht, hsign, hts, hus⟩ := hp
  rw [hx]
  exact ⟨_, hm, .updateStmt hs ht hsign hts hus⟩

theorem sound_returnStatement {s : State} (hs : s.current.kind = .returnWord) :
    Sound C s (ReadsStatement s) (returnStatement sub s) := by
  refine .traced (P := ReadsStatement (s.enter .returnStatement)) (.current (.consume ?_)) ?_
  · refine .bind (.attempt (hsub.lowest _ _)) fun value? s₁ => .budget ?_
    refine .bind (sound_skipToSemicolon _ s₁ fun _ => s₁.length_coming_lt_budget) fun _ s₂ => ?_
    cases value? with
    | none => exact .rejected fun ⟨⟨_, _, h, _⟩, _⟩ => nomatch h
    | some n =>
      refine .pure fun ⟨⟨_, n', hn', hn⟩, hskip⟩ _ => ?_
      cases hn'
      obtain ⟨us, hm₂, -, hus⟩ := hskip hn.current_kind.1
      obtain ⟨ts, hm₁, hts⟩ := hn.of_consume
      rcases hus hn.current_kind.2 with ⟨run, t, rfl, hrun, ht⟩ | ⟨hrun, hat⟩
      · refine .inl ⟨_, hm₁.trans hm₂, ?_⟩
        rw [← List.append_assoc]
        exact .returnStmt hs hts hrun ht
      · exact .inr ⟨⟨_, hm₁.trans hm₂, .lastReturn hs hts hrun⟩, hat⟩
  · rintro n s' (h | ⟨h, hat⟩)
    · exact .inl h.traced
    · exact .inr ⟨h.traced, hat⟩

theorem sound_expressionStatement (s : State) :
    Sound C s (fun n => Reads s (.statement n)) (expressionStatement sub s) := by
  refine .traced_reads (.current (.bind (.attempt (hsub.lowest _ _)) fun n? s₁ => ?_))
  refine .skip fun us s₂ hend hm₂ => ?_
  cases n? with
  | none => exact .rejected fun ⟨_, _, h, _⟩ => nomatch h
  | some n =>
    refine .pure fun ⟨_, n', hn', ts, hm₁, hts⟩ _ => ?_
    cases hn'
    exact ⟨_, hm₁.trans hm₂, .expressionStmt hts hend⟩

theorem sound_statement (s : State) : Sound C s (ReadsStatement s) (statement sub s) := by
  rw [statement_apply]
  split
  next hs => exact (sound_valueStatement hsub hs).mono fun _ _ _ => .inl
  next hs => exact (sound_updateStatement hsub hs).mono fun _ _ _ => .inl
  next hs => exact sound_returnStatement hsub hs
  next => exact (sound_expressionStatement hsub s).mono fun _ _ _ => .inl

/-- Between the states the statements are read, and the token that ends them. -/
def ReadsBody (s : State) (ns : List (Node Token)) (s' : State) : Prop :=
  ∃ ts us, Moves s ts s' ∧ s.current :: ts = us ++ [s'.current] ∧ Yields (.statements ns) us ∧
    (s'.current.kind = .closeBlock ∨ s'.current.kind = .eof)

theorem sound_statements : ∀ {C : Prop} (n : Nat) (s : State), (C → s.coming.length < n) →
    Sound C s (ReadsBody s) (statements sub n s)
  | _, 0, s, hn => .pure fun hC => absurd (hn hC) (by omega)
  | C, n + 1, s, hn => by
    refine .current ?_
    split
    next hend => exact .pure fun _ _ => ⟨[], [], .refl s, rfl, .noStatements, hend⟩
    next =>
      refine .known (.bind (.attempt (sound_statement hsub s)) fun found s₁ => .consume ?_)
      by_cases hend : s₁.consume.current.kind = .closeBlock ∨ s₁.consume.current.kind = .eof
      · rw [bind_of_ok (statements_of_closing hend n)]
        refine .pure fun ⟨_, stmt, hfound, hstmt⟩ _ => ?_
        rw [hfound]
        obtain ⟨ts, hm, hts⟩ : Reads s (.statements [stmt]) s₁ := by
          rcases hstmt with ⟨ts, hm, hts⟩ | ⟨h, -⟩
          · refine ⟨ts, hm, ?_⟩
            have := Yields.statements hts .noStatements
            rwa [List.append_nil] at this
          · exact h
        refine ⟨ts ++ [s₁.ahead], s.current :: ts, hm.trans (.one s₁), ?_, hts, hend⟩
        rw [State.current_consume, List.cons_append]
      · rw [State.current_consume, not_or] at hend
        have hread : ∀ {stmt : Node Token}, ReadsStatement s stmt s₁ → Reads s (.statement stmt) s₁ := by
          rintro stmt (h | ⟨-, h | h⟩)
          · exact h
          · exact absurd h hend.2
          · exact absurd h hend.1
        refine .bind (sound_statements n s₁.consume ?_) fun ns s₂ => ?_
        · -- the statement and the token after it are off the list
          rintro ⟨⟨hC, hs⟩, stmt, -, hstmt⟩
          obtain ⟨ts, hm, -⟩ := hread hstmt
          have hle := hstmt.length_coming_le hs
          rw [State.coming_eq_cons (hm.padded hs) hend.2, List.length_cons] at hle
          have hlt := hn hC
          omega
        · refine .pure fun ⟨⟨_, stmt, hfound, hstmt⟩, us, vs, hm', hvs, hns, hend'⟩ _ => ?_
          rw [hfound]
          obtain ⟨ts, hm, hts⟩ := hread hstmt
          refine ⟨ts ++ s₁.ahead :: us, s.current :: ts ++ vs, hm.trans (.some hm'), ?_,
            .statements hts hns, hend'⟩
          rw [State.current_consume] at hvs
          rw [List.append_assoc, ← hvs, List.cons_append]

theorem sound_block {s : State} (hs : s.current.kind = .openBlock) :
    Sound C s (fun n => Reads s (.block n)) (block sub s) := by
  refine .traced_reads (.current (.consume (.budget ?_)))
  refine .bind (sound_statements hsub _ _ fun _ => State.length_coming_lt_budget _) fun ns s' => ?_
  refine .current ?_
  dsimp only
  split
  next => exact .report (.pure fun h => h.elim)
  next hk =>
    refine .pure fun ⟨_, ts, us, hm, heq, hus, hend⟩ _ => ?_
    rw [State.current_consume] at heq
    refine ⟨_, .some hm, ?_⟩
    rw [heq]
    exact .block hs hus (hend.resolve_right hk)

/-! ## Expressions -/

omit hsub in
theorem sound_integer {s : State} (hs : s.current.kind = .int) :
    Sound C s (fun n => Reads s (.expression n)) (integer s) := by
  refine .current ?_
  cases hn : Text.readInt s.current.literal with
  | error e => exact .reject _
  | ok n =>
    dsimp only
    split
    · exact .pure fun _ _ => ⟨[], .refl s, .integer hs hn⟩
    · exact .reject _

theorem sound_grouped {s : State} (hs : s.current.kind = .lparen) :
    Sound C s (fun n => Reads s (.expression n)) (grouped sub s) := by
  refine .consume (.bind (hsub.lowest _ _) fun n s₁ => .expect fun hc => .pure fun ⟨_, hn⟩ _ => ?_)
  obtain ⟨ts, hm, hts⟩ := hn.of_consume
  exact ⟨_, hm.trans (.one s₁), .group hs hts hc⟩

theorem sound_unary {s : State} (hs : s.current.kind ∈ prefixKinds) :
    Sound C s (fun n => Reads s (.expression n)) (unary sub s) := by
  refine .traced_reads (.current (.consume ?_))
  refine .bind (hsub _ _ _ (by decide)) fun n s₁ => .pure fun ⟨_, hn⟩ _ => ?_
  obtain ⟨ts, hm, hts⟩ := hn.of_consume
  exact ⟨ts, hm, .unary hs hts⟩

theorem sound_alternative (s : State) :
    Sound C s (fun n => Takes s (.alternative n)) (alternative sub s) := by
  refine .ahead ?_
  split
  next hw =>
    refine .consume (.expect fun ho => ?_)
    rw [← State.current_consume] at ho
    refine (sound_block hsub ho).mono fun n s' _ hb => ?_
    obtain ⟨ts, hm, hts⟩ := hb.of_consume
    exact ⟨_, .some hm, .alternative hw hts⟩
  next => exact .pure fun _ _ => ⟨[], .refl s, .noAlternative⟩

theorem sound_conditional {s : State} (hs : s.current.kind = .ifWord) :
    Sound C s (fun n => Reads s (.expression n)) (conditional sub s) := by
  refine .traced_reads (.current (.expect fun ho => .consume ?_))
  refine .bind (hsub.lowest _ _) fun c s₁ => .expect fun hc => .expect fun hb => ?_
  rw [← State.current_consume] at hb
  refine .bind (sound_block hsub hb) fun b s₂ => .bind (sound_alternative hsub s₂) fun e s₃ => ?_
  refine .pure fun ⟨⟨⟨_, hcond⟩, hblock⟩, vs, hm₃, hvs⟩ _ => ?_
  obtain ⟨ts, hm₁, hts⟩ := hcond.of_consume
  obtain ⟨us, hm₂, hus⟩ := hblock.of_consume
  exact ⟨_, .some ((hm₁.trans (.some hm₂)).trans hm₃), .conditional hs ho hts hc hus hvs⟩

theorem sound_function {s : State} (hs : s.current.kind = .fnWord) :
    Sound C s (fun n => Reads s (.expression n)) (function sub s) := by
  refine .traced_reads (.current (.expect fun ho => ?_))
  refine .bind (sound_params _) fun xs s₁ => .expect fun hb => ?_
  rw [← State.current_consume] at hb
  refine .bind (sound_block hsub hb) fun b s₂ => .pure fun ⟨⟨_, ts, t, hm₁, hts, ht⟩, hblock⟩ _ => ?_
  obtain ⟨us, hm₂, hus⟩ := hblock.of_consume
  refine ⟨_, .some (hm₁.trans hm₂), ?_⟩
  rw [List.append_assoc]
  exact .function hs ho hts ht hus

theorem sound_array {s : State} (hs : s.current.kind = .lbracket) :
    Sound C s (fun n => Reads s (.expression n)) (array sub s) := by
  refine .current (.bind (sound_items hsub _ _) fun ns s' => .pure fun ⟨_, ts, t, hm, hts, ht⟩ _ => ?_)
  exact ⟨_, hm, .array hs hts ht⟩

theorem sound_map {s : State} (hs : s.current.kind = .lbrace) :
    Sound C s (fun n => Reads s (.expression n)) (map sub s) := by
  refine .current (.budget (.bind (sound_entries hsub _ _) fun ps s' => .expect fun hc => ?_))
  refine .pure fun ⟨_, hps⟩ _ => ?_
  obtain ⟨ts, t, hm, hts, ht⟩ := hps.closes hc
  exact ⟨_, hm, .map hs hts ht⟩

theorem sound_primary (s : State) :
    Sound C s (fun n => Reads s (.expression n)) (primary sub s) := by
  rw [primary_apply]
  split
  next hs => exact .pure fun _ _ => ⟨[], .refl s, .identifier hs⟩
  next hs => exact sound_integer hs
  next hs => exact .pure fun _ _ => ⟨[], .refl s, .string hs⟩
  next hs => exact .pure fun _ _ => ⟨[], .refl s, .boolean true hs⟩
  next hs => exact .pure fun _ _ => ⟨[], .refl s, .boolean false hs⟩
  iterate 4
    next hs => exact sound_unary hsub (by simp [hs, prefixKinds])
  next hs => exact sound_grouped hsub hs
  next hs => exact sound_array hsub hs
  next hs => exact sound_map hsub hs
  next hs => exact sound_conditional hsub hs
  next hs => exact sound_function hsub hs
  next => exact .reject _

/-- Between the states what follows an expression is read, so that both make a longer one. The
current token of the first state is the operator. -/
def Extends (s : State) (left n : Node Token) (s' : State) : Prop :=
  ∃ us, Moves s us s' ∧
    ∀ ts, Yields (.expression left) ts → Yields (.expression n) (ts ++ s.current :: us)

omit hsub in
theorem Extends.traced {s s' : State} {left n : Node Token} {phrase : Phrase}
    (h : Extends (s.enter phrase) left n s') : Extends s left n (s'.leave phrase) := by
  obtain ⟨us, hm, hus⟩ := h
  exact ⟨us, hm.enter.leave phrase, hus⟩

omit hsub in
theorem lowest_le_bindingPower (kind : Kind) : lowest ≤ bindingPower kind := by
  unfold bindingPower
  split <;> decide

omit hsub in
/-- The operators between operands, and what opens a call or a subscript, are all that binds. -/
theorem mem_infixKinds {kind : Kind} (h : lowest < bindingPower kind) (hp : kind ≠ .lparen)
    (hb : kind ≠ .lbracket) : kind ∈ infixKinds := by
  cases kind <;> first | contradiction | decide

theorem sound_binary {s : State} (hs : s.current.kind ∈ infixKinds) (left : Node Token) :
    Sound C s (Extends s left) (binary sub left s) := by
  refine .traced (P := Extends (s.enter .binary) left) (.current (.consume ?_)) fun _ _ => Extends.traced
  refine .bind (hsub _ _ _ (lowest_le_bindingPower _)) fun n s₁ => .pure fun ⟨_, hn⟩ _ => ?_
  obtain ⟨us, hm, hus⟩ := hn.of_consume
  exact ⟨us, hm, fun ts hts => .binary hts hs hus⟩

theorem sound_call {s : State} (hs : s.current.kind = .lparen) (left : Node Token) :
    Sound C s (Extends s left) (call sub left s) := by
  refine .traced (P := Extends (s.enter .call) left) (.current ?_) fun _ _ => Extends.traced
  refine .bind (sound_items hsub _ _) fun ns s₁ => .pure fun ⟨_, us, t, hm, hus, ht⟩ _ => ?_
  refine ⟨_, hm, fun ts hts => ?_⟩
  rw [← List.cons_append, ← List.append_assoc]
  exact .call hts hs hus ht

theorem sound_index {s : State} (hs : s.current.kind = .lbracket) (left : Node Token) :
    Sound C s (Extends s left) (index sub left s) := by
  refine .traced (P := Extends (s.enter .index) left) (.current (.consume ?_)) fun _ _ => Extends.traced
  refine .bind (hsub.lowest _ _) fun i s₁ => .expect fun hc => .pure fun ⟨_, hi⟩ _ => ?_
  obtain ⟨us, hm, hus⟩ := hi.of_consume
  refine ⟨_, hm.trans (.one s₁), fun ts hts => ?_⟩
  rw [← List.cons_append, ← List.append_assoc]
  exact .index hts hs hus hc

theorem sound_extend {s : State} (hs : lowest < bindingPower s.current.kind) (left : Node Token) :
    Sound C s (Extends s left) (extend sub left s) := by
  rw [extend_apply]
  split
  next h => exact sound_call hsub h left
  next h => exact sound_index hsub h left
  next h₁ h₂ => exact sound_binary hsub (mem_infixKinds hs h₁ h₂) left

theorem sound_climb {level : Nat} (hlevel : lowest ≤ level) : ∀ {C : Prop} (n : Nat)
    (left : Node Token) (s : State), Sound C s
      (fun e s' => ∃ us, Moves s us s' ∧
        ∀ ts, Yields (.expression left) ts → Yields (.expression e) (ts ++ us))
      (climb sub level n left s)
  | _, 0, left, s => .pure fun _ _ => ⟨[], .refl s, fun ts hts => by rwa [List.append_nil]⟩
  | _, n + 1, left, s => by
    refine .ahead ?_
    split
    next h =>
      refine .consume (.bind (sound_extend hsub ?_ left) fun longer s₁ => ?_)
      · rw [State.current_consume]
        exact Nat.lt_of_le_of_lt hlevel h
      refine (sound_climb hlevel n longer s₁).mono fun e s₂ ⟨_, us, hm, hus⟩ ⟨vs, hm', hvs⟩ => ?_
      refine ⟨s.ahead :: us ++ vs, .some (hm.trans hm'), fun ts hts => ?_⟩
      have := hvs _ (hus ts hts)
      rwa [State.current_consume, List.append_assoc] at this
    next => exact .pure fun _ _ => ⟨[], .refl s, fun ts hts => by rwa [List.append_nil]⟩

end Phrases

/-- **Expressions**, however deeply they are nested. -/
theorem sound_expression : ∀ depth : Nat, (expression depth).Sound
  | 0, _, _, _, _ => .tooDeep
  | depth + 1, C, level, s, hlevel => by
    have hsub := sound_expression depth
    refine .traced_reads (.bind (sound_primary hsub _) fun left s₁ => .budget ?_)
    refine (sound_climb hsub hlevel _ left s₁).mono fun n s₂ ⟨_, ts, hm, hts⟩ ⟨us, hm', hus⟩ => ?_
    exact ⟨_, hm.trans hm', hus _ hts⟩

/-! ## Programs -/

/-- The statements of a program. Problems are never forgotten, and if there are none, then the
statements are what was still to be read. -/
theorem sound_programBody {sub : Sub} (hsub : sub.Sound) : ∀ (n : Nat) (s : State),
    (s.problems ≠ #[] → (programBody sub n s).2.problems ≠ #[]) ∧
      (s.Padded → s.pending.length ≤ n → (programBody sub n s).2.problems = #[] →
        Yields (.statements (programBody sub n s).1) s.pending)
  | 0, s => by
    refine ⟨id, fun hs hn _ => ?_⟩
    rw [List.length_eq_zero_iff.1 (Nat.le_zero.1 hn)]
    exact .noStatements
  | n + 1, s => by
    rw [programBody_succ]
    split
    next heof =>
      refine ⟨id, fun _ _ _ => ?_⟩
      rw [State.pending_eq_nil heof]
      exact .noStatements
    next heof =>
      have hstmt := sound_statement (C := True) hsub s
      rcases hx : statement sub s with ⟨(_ | _) | stmt, s₁⟩ <;> rw [hx] at hstmt
      all_goals
        obtain ⟨hmore, hrest⟩ := sound_programBody hsub n s₁.consume
        rw [State.problems_consume] at hmore
      · refine ⟨hmore ∘ hstmt.problems, fun hs _ hp => ?_⟩
        have hs₁ : s₁.problems = #[] := Classical.byContradiction fun h => hmore h hp
        cases hstmt.result trivial hs hs₁
      · exact ⟨fun _ => by simp, fun _ _ hp => by simp at hp⟩
      · refine ⟨hmore ∘ hstmt.problems, fun hs hn hp => ?_⟩
        have hs₁ : s₁.problems = #[] := Classical.byContradiction fun h => hmore h hp
        have hread : ReadsStatement s stmt s₁ := hstmt.result trivial hs hs₁
        have hpadded : s₁.Padded := hstmt.padded hs
        rw [State.pending_consume hpadded] at hrest
        rw [State.pending_eq_cons heof] at hn ⊢
        have hlength : s₁.coming.length ≤ n := by
          have := hread.length_coming_le hs
          rw [List.length_cons] at hn
          omega
        refine hread.yields hs hpadded (hrest hpadded.consume hlength hp) fun h => ?_
        rw [programBody_of_eof (by rwa [State.current_consume])]

/-- **Programs.** Where no problem is found, the tokens before the first `eof` write down the tree. -/
theorem yields_upToEnd {limit : Nat} {tokens : List Token} (h : (program limit tokens).problems = []) :
    Yields (.statements (program limit tokens).body) (upToEnd tokens) := by
  have hp : (programBody (expression limit) (State.start tokens).budget
      (State.start tokens)).2.problems = #[] := Array.toList_eq_nil_iff.1 h
  have := (sound_programBody (sound_expression limit) _ _).2 (State.padded_start tokens)
    (State.length_pending_le_budget _) hp
  rwa [State.pending_start] at this

/-- **Nothing is lost and nothing is added.** Where no problem is found in a list of tokens, in which
`eof` is the last one at most, the list without it writes down the tree, and every word that closes a
block closes one block of the tree. -/
theorem tokens_written_down (limit : Nat) (tokens : List Token)
    (heof : ∀ t ∈ tokens.dropLast, t.kind ≠ .eof) (h : (program limit tokens).problems = []) :
    Yields (.statements (program limit tokens).body) (tokens.filter fun t => !decide (t.kind = .eof)) ∧
      closings tokens = blocksAmong (program limit tokens).program.preorder := by
  have hy := yields_upToEnd h
  rw [upToEnd_eq_filter heof] at hy
  refine ⟨hy, ?_⟩
  have hclosings : closings tokens = closings (tokens.filter fun t => !decide (t.kind = .eof)) := by
    rw [closings, closings, List.countP_filter]
    refine List.countP_congr fun t _ => ?_
    by_cases ht : t.kind = .closeBlock <;> simp [ht]
  rw [hclosings, hy.closings_eq]
  exact (blocksAmong_cons (by simp [Node.visit, Node.form]) _).symm

/-- A function whose return has no semicolon and is followed by a token that is passed over. -/
theorem tokens_written_down_return :
    let word (kind : Kind) (literal : String) : Token := ⟨kind, literal, 0, 0⟩
    let tokens := [word .fnWord "fn", word .lparen "(", word .ident "x", word .rparen ")",
      word .openBlock "->", word .returnWord "return", word .ident "x", word .int "1",
      word .closeBlock "end", word .semicolon ";", word .eof ""]
    Yields (.statements (program 3 tokens).body) (tokens.filter fun t => !decide (t.kind = .eof)) ∧
      closings tokens = 1 ∧ blocksAmong (program 3 tokens).program.preorder = 1 := by
  intro word tokens
  have h := tokens_written_down 3 tokens (by decide) (by decide +kernel)
  exact ⟨h.1, rfl, h.2.symm⟩

end SepiaLang.Parse
