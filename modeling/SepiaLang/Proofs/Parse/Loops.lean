import SepiaLang.Proofs.Parse.Charges

/-!
# The loops of the reader

A reader goes round in loops: through the statements of a program and of a block, through what a
`return` passes over, through the parts of lists and maps, and through the operators after an
expression. None of them counts its passes. Each pass moves the window on, and past the end of the list
there is none, so that every loop ends.

* `Loop`, `Loop.Ends`: a loop without a bound, and that it is over after some passes.
* `Loop.upTo`: the same loop with a bound on its passes.
* `Loop.Advances`: each pass moves the window on, and there is none past the end of the list.
* **`Loop.Advances.exists_ends`**: such a loop ends.
* **`reading_ends`**: so do the loops of the reader, and a program has few problems.
-/

namespace SepiaLang.Parse

open SepiaLang.Computation

variable {α β σ : Type}

/-! ## The window -/

/-- How often the window can move until both its tokens are past the end of the list. -/
def State.unread (s : State) : Nat :=
  match s.rest with
  | [] => if s.ahead.kind ≠ .eof then 2 else if s.current.kind ≠ .eof then 1 else 0
  | _ :: rest => rest.length + 3

namespace State

variable {s s' : State}

theorem unread_le_budget (s : State) : s.unread ≤ s.budget := by
  unfold unread budget
  rcases s.rest with _ | ⟨t, rest⟩
  · dsimp only
    split <;> [skip; split] <;> simp
  · simp

theorem unread_congr (h : s'.window = s.window) : s'.unread = s.unread := by
  obtain ⟨hc, ha, hr, -⟩ : s'.current = s.current ∧ s'.ahead = s.ahead ∧ s'.rest = s.rest ∧ _ := by
    simpa [window] using h
  unfold unread
  rw [hc, ha, hr]

theorem unread_eq_zero (h : s.unread = 0) : s.current.kind = .eof ∧ s.ahead.kind = .eof := by
  unfold unread at h
  rcases hrest : s.rest with _ | ⟨t, rest⟩ <;> rw [hrest] at h
  · dsimp only at h
    split at h
    · cases h
    next hahead =>
      split at h
      · cases h
      next hcurrent => exact ⟨not_not.1 hcurrent, not_not.1 hahead⟩
  · cases h

theorem unread_consume (hs : s.Padded) : s.consume.unread ≤ s.unread - 1 := by
  have hending : s.ending.kind = .eof := hs
  unfold unread consume
  rcases s.rest with _ | ⟨t, _ | ⟨u, rest⟩⟩
  · by_cases hahead : s.ahead.kind = .eof <;> simp [hahead, hending]
  · dsimp only
    split <;> [skip; split] <;> simp
  · simp

end State

theorem Moves.unread_le {s s' : State} {ts : List Token} (h : Moves s ts s') (hs : s.Padded) :
    s'.unread ≤ s.unread - ts.length := by
  induction h with
  | none h => exact (State.unread_congr h).le
  | @some s s' ts _ ih =>
    have hconsume := State.unread_consume hs
    have hrest := ih hs.consume
    rw [List.length_cons]
    omega

/-- The reader does nothing to the window but move it on. -/
def MovesOn (r : Reader α) : Prop := ∀ s : State, ∃ ts, Moves s ts (r s).2

namespace MovesOn

theorem of_window {r : Reader α} (h : ∀ s : State, (r s).2.window = s.window) : MovesOn r :=
  fun s => ⟨[], .none (h s)⟩

theorem bind {r : Reader α} {f : α → Reader β} (hr : MovesOn r) (hf : ∀ a, MovesOn (f a)) :
    MovesOn (r >>= f) := by
  intro s
  obtain ⟨ts, hts⟩ := hr s
  rw [bind_apply]
  rcases hx : r s with ⟨e | a, s₁⟩ <;> rw [hx] at hts
  · exact ⟨ts, hts⟩
  · obtain ⟨us, hus⟩ := hf a s₁
    exact ⟨ts ++ us, hts.trans hus⟩

theorem attempt {r : Reader α} (h : MovesOn r) : MovesOn (attempt r) := by
  intro s
  rw [Echo.attempt_apply]
  exact h s

end MovesOn

theorem compatible_movesOn : Compatible fun _ r _ => MovesOn r where
  pure _ := .of_window fun _ => rfl
  bind := .bind
  current := .of_window fun _ => rfl
  ahead := .of_window fun _ => rfl
  consume s := ⟨[s.ahead], .one s⟩
  report _ := .of_window fun _ => rfl
  reject _ := .of_window fun _ => rfl
  budget _ _ h s := h s.budget s
  traced phrase _ _ h s := by
    obtain ⟨ts, hts⟩ := h (s.enter phrase)
    exact ⟨ts, hts.enter.leave phrase⟩
  attempt := .attempt
  regardless make hr ha := by
    refine .bind hr.attempt fun found => .bind ha fun _ => ?_
    cases found with
    | some a => exact .of_window fun _ => rfl
    | none => exact .of_window fun _ => rfl

theorem movesOn_expression (depth : Nat) :
    Sub.Related (fun _ r _ => MovesOn r) (expression depth) (expression depth) :=
  related_itself compatible_movesOn (.of_window fun _ => rfl) depth

/-! ## Loops -/

/-- A loop: as long as the window is as `goes` says, there is one more pass, which is given what was
read so far. -/
structure Loop (σ : Type) where
  goes : State → Bool
  pass : σ → Reader σ

namespace Loop

/-- From the state `s`, with `a` read so far, the loop is over after so many passes. Then `b` is read, and
the loop has come to its end or was left in its last pass. -/
inductive Ends (l : Loop σ) : Nat → σ → State → σ → Except Halt Unit × State → Prop
  | ended {a : σ} {s : State} (h : l.goes s = false) : Ends l 0 a s a (.ok (), s)
  | left {a : σ} {s s' : State} {e : Halt} (h : l.goes s = true) (hpass : l.pass a s = (.error e, s')) :
      Ends l 1 a s a (.error e, s')
  | again {k : Nat} {a a' b : σ} {s s' : State} {o : Except Halt Unit × State} (h : l.goes s = true)
      (hpass : l.pass a s = (.ok a', s')) (hrest : Ends l k a' s' b o) : Ends l (k + 1) a s b o

/-- The loop with at most so many passes. -/
def upTo (l : Loop σ) : Nat → σ → Reader σ
  | 0, a => pure a
  | n + 1, a => do
    if l.goes (← get) then l.upTo n (← l.pass a) else return a

variable {l : Loop σ}

theorem upTo_succ (l : Loop σ) (n : Nat) (a : σ) (s : State) :
    l.upTo (n + 1) a s = if l.goes s then (l.pass a >>= l.upTo n) s else (.ok a, s) := by
  change (if l.goes s then l.pass a >>= l.upTo n else pure a : Reader σ) s = _
  split <;> rfl

/-- A bound that the loop keeps to makes no difference. -/
theorem Ends.upTo_eq {k n : Nat} {a b : σ} {s : State} {o : Except Halt Unit × State}
    (h : l.Ends k a s b o) (hn : k ≤ n) : l.upTo n a s = (o.1.map fun _ => b, o.2) := by
  induction h generalizing n with
  | @ended a s hgoes =>
    cases n with
    | zero => rfl
    | succ n =>
      rw [upTo_succ, hgoes]
      rfl
  | left hgoes hpass =>
    obtain ⟨n, rfl⟩ := Nat.exists_eq_add_one.2 (Nat.lt_of_lt_of_le Nat.zero_lt_one hn)
    rw [upTo_succ, if_pos hgoes, bind_of_error hpass]
    rfl
  | again hgoes hpass _ ih =>
    obtain ⟨n, rfl⟩ := Nat.exists_eq_add_one.2 (Nat.lt_of_lt_of_le (Nat.succ_pos _) hn)
    rw [upTo_succ, if_pos hgoes, bind_of_ok hpass]
    exact ih (Nat.le_of_succ_le_succ hn)

/-- Each pass moves the window on by a token at least or is the last one, and past the end of the list
there is none. -/
structure Advances (l : Loop σ) : Prop where
  moves : ∀ {a b : σ} {s s' : State}, l.goes s = true → l.pass a s = (.ok b, s') →
    ∃ ts, ts ≠ [] ∧ Moves s ts s'
  stops : ∀ {s : State}, s.current.kind = .eof → s.ahead.kind = .eof → l.goes s = false

/-- **A loop that advances ends**, after no more passes than the window can move. -/
theorem Advances.exists_ends (hl : l.Advances) : ∀ (n : Nat) (a : σ) {s : State}, s.Padded →
    s.unread ≤ n → ∃ k b o, k ≤ n ∧ l.Ends k a s b o
  | 0, a, s, _, hn => by
    obtain ⟨hcurrent, hahead⟩ := State.unread_eq_zero (Nat.le_zero.1 hn)
    exact ⟨0, a, _, Nat.le_refl 0, .ended (hl.stops hcurrent hahead)⟩
  | n + 1, a, s, hs, hn => by
    cases hgoes : l.goes s with
    | false => exact ⟨0, a, _, Nat.zero_le _, .ended hgoes⟩
    | true =>
      rcases hpass : l.pass a s with ⟨e | a', s'⟩
      · exact ⟨1, a, _, Nat.succ_le_succ (Nat.zero_le n), .left hgoes hpass⟩
      · obtain ⟨ts, hne, hmoves⟩ := hl.moves hgoes hpass
        have hlength := List.length_pos_iff.2 hne
        have hunread := hmoves.unread_le hs
        obtain ⟨k, b, o, hk, hends⟩ := exists_ends hl n a' (hmoves.padded hs) (by omega)
        exact ⟨k + 1, b, o, Nat.succ_le_succ hk, .again hgoes hpass hends⟩

/-- Counting the passes of the loop as the reader does makes no difference: the loop ends by itself, and
a reader that may make so many passes or more does the same. -/
def CountedBy (l : Loop σ) (r : Nat → σ → Reader σ) : Prop :=
  ∀ (a : σ) (s : State), s.Padded → ∃ k b o, k ≤ s.budget ∧ l.Ends k a s b o ∧
    ∀ n, k ≤ n → r n a s = (o.1.map fun _ => b, o.2)

theorem Advances.countedBy (hl : l.Advances) {r : Nat → σ → Reader σ} (hr : ∀ n a, r n a = l.upTo n a) :
    l.CountedBy r := by
  intro a s hs
  obtain ⟨k, b, o, hk, hends⟩ := hl.exists_ends _ a hs s.unread_le_budget
  exact ⟨k, b, o, hk, hends, fun n hn => by rw [hr, hends.upTo_eq hn]⟩

/-- A loop that adds what each round reads to what was read before. -/
def collect (goes : State → Bool) (round : Reader (List α)) : Loop (List α) where
  goes
  pass xs := do return xs ++ (← round)

variable {goes : State → Bool} {round : Reader (List α)}

theorem advances_collect (hstops : ∀ s : State, s.current.kind = .eof → s.ahead.kind = .eof → goes s = false)
    (hround : ∀ {s s' : State} {xs : List α}, goes s = true → round s = (.ok xs, s') →
      ∃ ts, ts ≠ [] ∧ Moves s ts s') : (collect goes round).Advances where
  moves hgoes hpass := by
    obtain ⟨xs, s₁, hxs, heq⟩ := exists_of_bind_ok hpass
    cases heq
    exact hround hgoes hxs
  stops := hstops _

/-- Rounds that are counted down are those of the loop. -/
theorem upTo_collect {counted : Nat → Reader (List α)} (hzero : counted 0 = pure [])
    (hsucc : ∀ n s, counted (n + 1) s =
      (if goes s then do let xs ← round; return xs ++ (← counted n) else pure []) s) :
    ∀ (n : Nat) (xs : List α), (do return xs ++ (← counted n)) = (collect goes round).upTo n xs
  | 0, xs => by rw [hzero, pure_bind, List.append_nil]; rfl
  | n + 1, xs => by
    funext s
    rw [upTo_succ, bind_apply, hsucc, ← bind_apply]
    change _ = if goes s then _ else _
    split
    · have hrest (ys : List α) := upTo_collect hzero hsucc n (xs ++ ys)
      simp only [collect, bind_assoc, pure_bind] at hrest ⊢
      simp only [← hrest, List.append_assoc]
    · rw [pure_bind, List.append_nil]
      rfl

end Loop

/-! ## The loops of the reader -/

/-- The further names of a parameter list. -/
def paramLoop : Loop (List (Ident Token)) := .collect (fun s => s.ahead.kind = .comma) do
  consume
  expect .ident
  let name ← current
  return [{ text := name.literal, note := name }]

/-- The further expressions of a list. -/
def itemLoop (sub : Sub) : Loop (List (Node Token)) := .collect (fun s => s.ahead.kind = .comma) do
  consume
  consume
  return [← sub lowest]

/-- The entries of a map. -/
def entryLoop (sub : Sub) : Loop (List (Node Token × Node Token)) :=
  .collect (fun s => ¬(s.ahead.kind = .rbrace ∨ s.ahead.kind = .eof)) do
    consume
    let key ← sub lowest
    expect .colon
    consume
    let value ← sub lowest
    if (← ahead).kind ≠ .rbrace then expect .comma
    return [(key, value)]

/-- What a `return` passes over. -/
def skipLoop : Loop Unit where
  goes s := ¬(s.current.kind = .semicolon ∨ s.current.kind = .eof ∨ s.ahead.kind = .eof ∨
    s.ahead.kind = .closeBlock)
  pass _ := consume

/-- A statement and the move to the next one. -/
def statementRound (sub : Sub) : Reader (List (Node Token)) := do
  let found ← attempt (statement sub)
  consume
  return found.toList

/-- The statements of a block. -/
def blockLoop (sub : Sub) : Loop (List (Node Token)) :=
  .collect (fun s => ¬(s.current.kind = .closeBlock ∨ s.current.kind = .eof)) (statementRound sub)

/-- The statements of a program. -/
def programLoop (sub : Sub) : Loop (List (Node Token)) :=
  .collect (fun s => s.current.kind ≠ .eof) (statementRound sub)

/-- The operators after an expression. -/
def operatorLoop (sub : Sub) (level : Nat) : Loop (Node Token) where
  goes s := level < bindingPower s.ahead.kind
  pass left := do
    consume
    extend sub left

/-! ## How they are counted -/

theorem moreParams_eq : ∀ (n : Nat) (xs : List (Ident Token)),
    (do return xs ++ (← moreParams n)) = paramLoop.upTo n xs := by
  refine Loop.upTo_collect rfl fun n s => ?_
  change (if s.ahead.kind = .comma then _ else _ : Reader _) s = _
  simp only [decide_eq_true_eq, bind_assoc, pure_bind, List.singleton_append]

section Phrases

variable (sub : Sub)

theorem moreItems_eq : ∀ (n : Nat) (xs : List (Node Token)),
    (do return xs ++ (← moreItems sub n)) = (itemLoop sub).upTo n xs := by
  refine Loop.upTo_collect rfl fun n s => ?_
  change (if s.ahead.kind = .comma then _ else _ : Reader _) s = _
  simp only [decide_eq_true_eq, bind_assoc, pure_bind, List.singleton_append]

theorem entries_eq : ∀ (n : Nat) (xs : List (Node Token × Node Token)),
    (do return xs ++ (← entries sub n)) = (entryLoop sub).upTo n xs := by
  refine Loop.upTo_collect rfl fun n s => ?_
  change (if s.ahead.kind = .rbrace ∨ s.ahead.kind = .eof then _ else _ : Reader _) s = _
  have hcomma (key value : Node Token) (t : Token) :
      ((if t.kind = .rbrace then pure [(key, value)] else do expect .comma; pure [(key, value)]) >>=
        fun xs => do return xs ++ (← entries sub n) : Reader _) =
      if t.kind = .rbrace then do return (key, value) :: (← entries sub n)
      else do expect .comma; return (key, value) :: (← entries sub n) := by
    split <;> simp
  simp only [decide_eq_true_eq, bind_assoc, hcomma, ite_not]

theorem statements_eq : ∀ (n : Nat) (xs : List (Node Token)),
    (do return xs ++ (← statements sub n)) = (blockLoop sub).upTo n xs := by
  refine Loop.upTo_collect rfl fun n s => ?_
  change (if s.current.kind = .closeBlock ∨ s.current.kind = .eof then _ else _ : Reader _) s = _
  simp only [decide_eq_true_eq, ite_not, statementRound, bind_assoc, pure_bind]

theorem climb_eq (level : Nat) : ∀ (n : Nat) (left : Node Token),
    climb sub level n left = (operatorLoop sub level).upTo n left
  | 0, _ => rfl
  | n + 1, left => by
    funext s
    have hrest : (fun longer => climb sub level n longer) = (operatorLoop sub level).upTo n :=
      funext fun longer => climb_eq level n longer
    rw [Loop.upTo_succ, ← hrest]
    change (if level < bindingPower s.ahead.kind then _ else _ : Reader _) s =
      if decide (level < bindingPower s.ahead.kind) = true then _ else _
    simp only [decide_eq_true_eq, operatorLoop, bind_assoc]
    split <;> rfl

end Phrases

theorem skipToSemicolon_eq : ∀ (n : Nat) (u : Unit), skipToSemicolon n = skipLoop.upTo n u
  | 0, _ => rfl
  | n + 1, u => by
    funext s
    have hrest : (fun _ => skipToSemicolon n) = skipLoop.upTo n := funext fun u => skipToSemicolon_eq n u
    rw [Loop.upTo_succ, ← hrest]
    change (if s.current.kind = .semicolon ∨ s.current.kind = .eof ∨ s.ahead.kind = .eof ∨
      s.ahead.kind = .closeBlock then _ else _ : Reader _) s = if decide (¬_) = true then _ else _
    simp only [decide_eq_true_eq, ite_not]
    split <;> rfl

/-! ## That they end -/

theorem MovesOn.consume_then {f : Unit → Reader α} (h : MovesOn (f ())) {s s' : State} {a : α}
    (heq : (consume >>= f) s = (.ok a, s')) : ∃ ts, ts ≠ [] ∧ Moves s ts s' := by
  obtain ⟨ts, hts⟩ := h s.consume
  have hend : (f () s.consume).2 = s' := congrArg Prod.snd heq
  exact ⟨s.ahead :: ts, List.cons_ne_nil _ _, hend ▸ .some hts⟩

theorem MovesOn.expect (kind : Kind) : MovesOn (expect kind) := compatible_movesOn.expect kind

theorem advances_paramLoop : paramLoop.Advances := by
  refine Loop.advances_collect (fun s _ h => by simp [h]) fun _ => MovesOn.consume_then ?_
  exact .bind (.expect _) fun _ => .of_window fun _ => rfl

theorem advances_skipLoop : skipLoop.Advances where
  moves {_ _ s _} _ hpass := by
    cases hpass
    exact ⟨_, List.cons_ne_nil _ _, .one s⟩
  stops h _ := by simp [skipLoop, h]

section Expressions

variable {sub : Sub} (hsub : Sub.Related (fun _ r _ => MovesOn r) sub sub)
include hsub

theorem advances_itemLoop : (itemLoop sub).Advances := by
  refine Loop.advances_collect (fun s _ h => by simp [h]) fun _ => MovesOn.consume_then ?_
  exact .bind compatible_movesOn.consume fun _ => .bind hsub.lowest fun _ => .of_window fun _ => rfl

theorem advances_entryLoop : (entryLoop sub).Advances := by
  refine Loop.advances_collect (fun s _ h => by simp [h]) fun _ => MovesOn.consume_then ?_
  refine .bind hsub.lowest fun _ => .bind (.expect _) fun _ => .bind compatible_movesOn.consume fun _ => ?_
  refine .bind hsub.lowest fun _ => .bind compatible_movesOn.ahead fun _ => ?_
  split
  · exact .bind (.expect _) fun _ => .of_window fun _ => rfl
  · exact .of_window fun _ => rfl

theorem advances_operatorLoop {level : Nat} (hlevel : lowest ≤ level) : (operatorLoop sub level).Advances where
  moves {left _ _ _} _ := MovesOn.consume_then (related_extend compatible_movesOn hsub left)
  stops {s} _ h := by
    have hend : ¬level < bindingPower s.ahead.kind := by
      rw [h]
      exact Nat.not_lt.2 hlevel
    simpa [operatorLoop] using hend

/-- The window moves on after a statement. -/
theorem statementRound_moves {s s' : State} {ns : List (Node Token)}
    (h : statementRound sub s = (.ok ns, s')) : ∃ ts, ts ≠ [] ∧ Moves s ts s' := by
  obtain ⟨ts, hts⟩ := (related_statement compatible_movesOn hsub).attempt s
  obtain ⟨found, s₁, hfound, heq⟩ := exists_of_bind_ok h
  rw [hfound] at hts
  cases heq
  exact ⟨ts ++ [s₁.ahead], List.append_ne_nil_of_right_ne_nil _ (List.cons_ne_nil _ _), hts.trans (.one s₁)⟩

theorem advances_blockLoop : (blockLoop sub).Advances :=
  Loop.advances_collect (fun s h _ => by simp [h]) fun _ => statementRound_moves hsub

theorem advances_programLoop : (programLoop sub).Advances :=
  Loop.advances_collect (fun s h _ => by simp [h]) fun _ => statementRound_moves hsub

end Expressions

/-- What a statement of the program adds to it. A statement that is given up adds nothing. -/
theorem programLoop_pass (sub : Sub) (body : List (Node Token)) (s : State) :
    (programLoop sub).pass body s = match statement sub s with
      | (.ok stmt, s₁) => (.ok (body ++ [stmt]), s₁.consume)
      | (.error .rejected, s₁) => (.ok (body ++ []), s₁.consume)
      | (.error .tooDeep, s₁) => (.error .tooDeep, s₁) := by
  have hround : (programLoop sub).pass body = attempt (statement sub) >>= fun found => do
      consume
      return body ++ found.toList := by
    simp only [programLoop, Loop.collect, statementRound, bind_assoc, pure_bind]
  rw [hround, bind_apply, Echo.attempt_apply]
  rcases statement sub s with ⟨(_ | _) | stmt, s₁⟩ <;> rfl

/-- **The statements of a program** are those that the loop comes to, and if it is left, that is because
of the limit. -/
theorem programBody_of_ends {sub : Sub} {k n : Nat} {body body' : List (Node Token)} {s : State}
    {o : Except Halt Unit × State} (h : (programLoop sub).Ends k body s body' o) (hn : k ≤ n) :
    body' = body ++ (programBody sub n s).1 ∧
      (o.1 = .ok () ∧ (programBody sub n s).2 = o.2 ∨
        o.1 = .error .tooDeep ∧ (programBody sub n s).2 = o.2.report .tooDeep) := by
  induction h generalizing n with
  | @ended body s hgoes =>
    have heof : s.current.kind = .eof := not_not.1 (of_decide_eq_false hgoes)
    rw [programBody_of_eof heof]
    exact ⟨(List.append_nil _).symm, .inl ⟨rfl, rfl⟩⟩
  | @left body s s' e hgoes hpass =>
    have hkind : s.current.kind ≠ .eof := of_decide_eq_true hgoes
    obtain ⟨n, rfl⟩ := Nat.exists_eq_add_one.2 (Nat.lt_of_lt_of_le Nat.zero_lt_one hn)
    rw [programLoop_pass] at hpass
    rw [programBody_succ, if_neg hkind]
    rcases hx : statement sub s with ⟨(_ | _) | stmt, s₁⟩ <;> rw [hx] at hpass <;> cases hpass
    exact ⟨(List.append_nil _).symm, .inr ⟨rfl, rfl⟩⟩
  | @again k body body₁ body' s s' o hgoes hpass _ ih =>
    -- the pass has read a statement or has given one up, and the rest follows from the state after it
    have hkind : s.current.kind ≠ .eof := of_decide_eq_true hgoes
    obtain ⟨n, rfl⟩ := Nat.exists_eq_add_one.2 (Nat.lt_of_lt_of_le (Nat.succ_pos k) hn)
    have hrest := ih (Nat.le_of_succ_le_succ hn)
    rw [programLoop_pass] at hpass
    rw [programBody_succ, if_neg hkind]
    rcases hx : statement sub s with ⟨(_ | _) | stmt, s₁⟩ <;> rw [hx] at hpass <;> cases hpass
    · rwa [List.append_nil] at hrest
    · rwa [List.append_assoc] at hrest

/-- The window of a program can move once for each of its tokens. -/
theorem State.unread_start (tokens : List Token) : (State.start tokens).unread ≤ tokens.length := by
  rcases tokens with _ | ⟨t, _ | ⟨u, _ | ⟨v, rest⟩⟩⟩
  · rfl
  · by_cases ht : t.kind = .eof <;> simp [unread, start, consume, ht]
  · by_cases hu : u.kind = .eof <;> by_cases ht : t.kind = .eof <;> simp [unread, start, consume, ht, hu]
  · exact Nat.le_refl _

/-- **The loops of the reader end.** Each pass moves the window on or is the last one, there is none past
the end of the list, and counting the passes, as the readers do, makes no difference. So the loop through
the statements of a program ends after no more passes than there are tokens, and it comes to the
statements and to the problems of the program, of which there are no more than tokens, the one about the
nesting apart. -/
theorem reading_ends :
    (∀ depth : Nat, let sub := expression depth
      (paramLoop.Advances ∧ (itemLoop sub).Advances ∧ (entryLoop sub).Advances ∧ skipLoop.Advances ∧
        (blockLoop sub).Advances ∧ (programLoop sub).Advances ∧
        ∀ level, lowest ≤ level → (operatorLoop sub level).Advances) ∧
      paramLoop.CountedBy (fun n xs => do return xs ++ (← moreParams n)) ∧
      (itemLoop sub).CountedBy (fun n xs => do return xs ++ (← moreItems sub n)) ∧
      (entryLoop sub).CountedBy (fun n xs => do return xs ++ (← entries sub n)) ∧
      skipLoop.CountedBy (fun n _ => skipToSemicolon n) ∧
      (blockLoop sub).CountedBy (fun n xs => do return xs ++ (← statements sub n)) ∧
      ∀ level, lowest ≤ level → (operatorLoop sub level).CountedBy (climb sub level)) ∧
    ∀ (limit : Nat) (tokens : List Token),
      (∃ k o, k ≤ tokens.length ∧
        (programLoop (expression limit)).Ends k [] (State.start tokens) (program limit tokens).body o ∧
        (o.1 = .ok () ∧ (program limit tokens).problems = o.2.problems.toList ∨
          o.1 = .error .tooDeep ∧ (program limit tokens).problems = o.2.problems.toList ++ [.tooDeep])) ∧
      ∃ found : List Problem, found.length ≤ tokens.length ∧ .tooDeep ∉ found ∧
        ((program limit tokens).problems = found ∨
          (program limit tokens).problems = found ++ [.tooDeep] ∧ limit ≤ tokens.length) := by
  refine ⟨fun depth => ?_, fun limit tokens => ⟨?_, problems_program limit tokens⟩⟩
  · have hsub := movesOn_expression depth
    refine ⟨⟨advances_paramLoop, advances_itemLoop hsub, advances_entryLoop hsub, advances_skipLoop,
      advances_blockLoop hsub, advances_programLoop hsub, fun _ => advances_operatorLoop hsub⟩, ?_⟩
    exact ⟨advances_paramLoop.countedBy moreParams_eq, (advances_itemLoop hsub).countedBy (moreItems_eq _),
      (advances_entryLoop hsub).countedBy (entries_eq _), advances_skipLoop.countedBy skipToSemicolon_eq,
      (advances_blockLoop hsub).countedBy (statements_eq _),
      fun level hlevel => (advances_operatorLoop hsub hlevel).countedBy (climb_eq _ level)⟩
  · obtain ⟨k, body, o, hk, hends⟩ := (advances_programLoop (movesOn_expression limit)).exists_ends
      _ [] (State.padded_start tokens) (Nat.le_refl _)
    obtain ⟨hbody, hfinal⟩ := programBody_of_ends hends (hk.trans (State.unread_le_budget _))
    have hbody' : body = (program limit tokens).body := hbody
    have hproblems : (program limit tokens).problems = (programBody (expression limit)
      (State.start tokens).budget (State.start tokens)).2.problems.toList := rfl
    refine ⟨k, o, hk.trans (State.unread_start tokens), hbody' ▸ hends, ?_⟩
    rw [hproblems]
    refine hfinal.imp (fun ⟨ho, hs⟩ => ⟨ho, by rw [hs]⟩) fun ⟨ho, hs⟩ => ⟨ho, ?_⟩
    rw [hs, State.problems_report, Array.toList_push]

end SepiaLang.Parse
