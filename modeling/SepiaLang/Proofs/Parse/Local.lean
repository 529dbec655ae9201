import SepiaLang.Proofs.Parse.Accept
import SepiaLang.Proofs.Parse.NestingLimit
import SepiaLang.Proofs.Parse.Resume

/-!
# Reading what more tokens follow

A list of tokens is read, and then the same list with more tokens after it. As long as the first
reader has tokens left, both see the same. Where it has none left, and still gives a result without a
problem, the second one gives the same result, unless the tokens that follow go on with the phrase.

* `Beside`: the second list goes on where the first one ends.
* `Local`: the readers do the same, or the first one has come to the end of its list
  (`local_expression`).
* `Joined`: the first reader has found no problem, and both have done the same (`joined_block`).
* **`joined_expression`**: operands, whatever follows them that is no operator of an operand.
-/

namespace SepiaLang.Parse

open SepiaLang.Computation

variable {α β : Type}

/-! ## Two lists -/

/-- Both windows rest on the same token. After it, the second list has the same tokens to come as the
first one, in which no token stands after an `eof`, and then `more`. The second reader has found the
problems `before` at the start. -/
structure Beside (before : List Problem) (more : List Token) (s t : State) : Prop where
  padded : s.Padded
  padded' : t.Padded
  current : t.current = s.current
  whole : s.coming.length = s.left
  coming : t.coming = s.coming ++ more
  problems : t.problems.toList = before ++ s.problems.toList

theorem State.ahead_of_left {s : State} (h : s.left = 0) : s.ahead.kind = .eof := by
  rw [State.left, List.countP_eq_zero] at h
  simpa using h s.ahead (List.mem_cons_self ..)

theorem State.ahead_kind (s : State) : s.ahead.kind = nextKind (s.coming.map Token.bare) := by
  by_cases h : s.ahead.kind = .eof
  · rw [State.coming_eq_nil h, h]
    rfl
  · rw [State.coming, upToEnd_cons h]
    rfl

/-- The first token that is to come is the one ahead. -/
theorem State.ahead_of_coming {s : State} (hs : s.Padded) {t : Token} {ts : List Token}
    (h : s.coming = t :: ts) : s.ahead = t ∧ s.ahead.kind ≠ .eof ∧ s.consume.coming = ts := by
  have hahead : s.ahead.kind ≠ .eof := by
    intro heof
    rw [State.coming_eq_nil heof] at h
    cases h
  rw [State.coming_eq_cons hs hahead] at h
  exact ⟨(List.cons.inj h).1, hahead, (List.cons.inj h).2⟩

namespace Beside

variable {before : List Problem} {more : List Token} {s t : State}

theorem ahead_kind_ne (h : Beside before more s t) (hleft : s.left ≠ 0) : s.ahead.kind ≠ .eof := by
  intro heof
  refine hleft ?_
  rw [← h.whole, State.coming_eq_nil heof, List.length_nil]

/-- The current token and the one ahead are the same as long as there are tokens left. -/
theorem ahead (h : Beside before more s t) (hleft : s.left ≠ 0) : t.ahead = s.ahead := by
  have hcoming := h.coming
  rw [State.coming_eq_cons h.padded (h.ahead_kind_ne hleft)] at hcoming
  exact (State.ahead_of_coming h.padded' hcoming).1

theorem consume (h : Beside before more s t) (hleft : s.left ≠ 0) :
    Beside before more s.consume t.consume := by
  have hs := h.ahead_kind_ne hleft
  have hcoming := h.coming
  have hwhole := h.whole
  rw [State.coming_eq_cons h.padded hs] at hcoming hwhole
  rw [List.length_cons, ← State.left_consume h.padded hs] at hwhole
  exact ⟨h.padded.consume, h.padded'.consume, by simp [h.ahead hleft], Nat.succ.inj hwhole,
    (State.ahead_of_coming h.padded' hcoming).2.2, by simpa using h.problems⟩

/-- At the end of the first list the second one goes on with what follows. -/
theorem ahead_at_end (h : Beside before more s t) (hleft : s.left = 0) :
    t.ahead.kind = nextKind (more.map Token.bare) := by
  rw [t.ahead_kind, h.coming, State.coming_eq_nil (State.ahead_of_left hleft), List.nil_append]

theorem enter (h : Beside before more s t) (phrase : Phrase) :
    Beside before more (s.enter phrase) (t.enter phrase) := { h with }

theorem leave (h : Beside before more s t) (phrase : Phrase) :
    Beside before more (s.leave phrase) (t.leave phrase) := { h with }

theorem report (h : Beside before more s t) (p : Problem) :
    Beside before more (s.report p) (t.report p) :=
  { h with problems := by simp [h.problems] }

end Beside

/-! ## Readers beside each other -/

variable {before : List Problem} {more : List Token}

/-- The first reader has come to the end of its list, or both have done the same. -/
def Apart (before : List Problem) (more : List Token) (o o' : Except Halt α × State) : Prop :=
  o.2.left = 0 ∨ o'.1 = o.1 ∧ Beside before more o.2 o'.2

/-- Beside each other the readers do the same, as long as the first one has tokens left. -/
structure Local (before : List Problem) (more : List Token) (r r' : Reader α) : Prop where
  forward : Forward r
  near : ∀ {s t : State}, Beside before more s t → Apart before more (r s) (r' t)

namespace Local

theorem left_eq_zero {r r' : Reader α} (h : Local before more r r') {s : State} (hs : s.Padded)
    (hleft : s.left = 0) : (r s).2.left = 0 := by
  have := (h.forward.within ⟨hs, Nat.lt_add_one _⟩).2
  omega

theorem pure (a : α) : Local before more (Pure.pure a) (Pure.pure a) :=
  ⟨compatible_forward.pure a, fun h => .inr ⟨rfl, h⟩⟩

theorem throw (halt : Halt) : Local before more (throw halt : Reader α) (throw halt) :=
  ⟨fun _ _ hs => ⟨hs, trivial⟩, fun h => .inr ⟨rfl, h⟩⟩

/-- **One reader after the other.** -/
theorem bind {r r' : Reader α} {f f' : α → Reader β} (hr : Local before more r r')
    (hf : ∀ a, Local before more (f a) (f' a)) : Local before more (r >>= f) (r' >>= f') where
  forward k := .bind (hr.forward k) fun a _ => (hf a).forward k
  near {s t} h := by
    have hpadded := (hr.forward.within ⟨h.padded, Nat.lt_add_one _⟩).1
    have hnear := hr.near h
    rw [bind_apply, bind_apply]
    rcases hx : r s with ⟨e | a, s₁⟩ <;> rw [hx] at hnear hpadded
    · rcases hnear with hnear | ⟨heq, hbeside⟩
      · exact .inl hnear
      · obtain ⟨t₁, ht₁⟩ : ∃ t₁, r' t = (.error e, t₁) := ⟨(r' t).2, Prod.ext heq rfl⟩
        rw [ht₁] at hbeside ⊢
        exact .inr ⟨rfl, hbeside⟩
    · rcases hnear with hnear | ⟨heq, hbeside⟩
      · exact .inl ((hf a).left_eq_zero hpadded hnear)
      · obtain ⟨t₁, ht₁⟩ : ∃ t₁, r' t = (.ok a, t₁) := ⟨(r' t).2, Prod.ext heq rfl⟩
        rw [ht₁] at hbeside ⊢
        exact (hf a).near hbeside

theorem attempt {r r' : Reader α} (h : Local before more r r') :
    Local before more (Parse.attempt r) (Parse.attempt r') where
  forward := h.forward.attempt
  near hst := by
    rw [Echo.attempt_apply, Echo.attempt_apply]
    exact (h.near hst).imp id fun hsame => ⟨congrArg Echo.settled hsame.1, hsame.2⟩

end Local

theorem compatible_local : Compatible fun _ => Local before more where
  pure := .pure
  bind := .bind
  current := ⟨compatible_forward.current, fun h => .inr ⟨congrArg Except.ok h.current, h⟩⟩
  ahead := by
    refine ⟨compatible_forward.ahead, fun {s t} h => ?_⟩
    by_cases hleft : s.left = 0
    · exact .inl hleft
    · exact .inr ⟨congrArg Except.ok (h.ahead hleft), h⟩
  consume := by
    refine ⟨compatible_forward.consume, fun {s t} h => ?_⟩
    by_cases hleft : s.left = 0
    · exact .inl (Nat.le_zero.1 (hleft ▸ State.left_consume_le h.padded))
    · exact .inr ⟨rfl, h.consume hleft⟩
  report p := ⟨compatible_forward.report p, fun h => .inr ⟨rfl, h.report p⟩⟩
  reject p := ⟨compatible_forward.reject p, fun h => .inr ⟨rfl, h.report p⟩⟩
  budget {_ l l'} hl hl' h := by
    refine ⟨fun k s hs => (h s.budget).forward k s hs, fun {s t} hst => ?_⟩
    -- both loops may take as many rounds as the two lists allow
    rw [hl.at_budget hst.padded (Nat.le_add_right s.budget t.budget),
      hl'.at_budget hst.padded' (Nat.le_add_left t.budget s.budget)]
    exact (h _).near hst
  traced phrase _ _ h := by
    refine ⟨h.forward.traced phrase, fun hst => ?_⟩
    exact (h.near (hst.enter phrase)).imp id fun hsame => ⟨hsame.1, hsame.2.leave phrase⟩
  attempt := .attempt
  regardless make hr ha := by
    refine .bind hr.attempt fun found => .bind ha fun _ => ?_
    cases found with
    | some a => exact .pure _
    | none => exact .throw _

/-- **Expressions are read the same way** as long as there are tokens left. -/
theorem local_expression (depth : Nat) :
    Sub.Related (fun _ => Local before more) (expression depth) (expression depth) :=
  related_itself compatible_local (.throw _) depth

/-! ## The end of a phrase -/

/-- If the first reader gives a result without a problem, the second one gives the same result, and
they are beside each other still. -/
def Joined (before : List Problem) (more : List Token) (o o' : Except Halt α × State) : Prop :=
  ∀ a s', o = (.ok a, s') → s'.problems = #[] → ∃ t', o' = (.ok a, t') ∧ Beside before more s' t'

/-- The outcomes of two readers from the states `s` and `t`, of which the first one cannot give a result
without a problem if it has no tokens left at the start. -/
structure Bridged (before : List Problem) (more : List Token) (s t : State)
    (o o' : Except Halt α × State) : Prop where
  starved : s.Padded → s.left = 0 → ∀ a s', o = (.ok a, s') → s'.problems ≠ #[]
  joined : Beside before more s t → Joined before more o o'

namespace Joined

variable {s t : State}

theorem pure {a : α} (h : Beside before more s t) :
    Joined before more ((Pure.pure a : Reader α) s) ((Pure.pure a : Reader α) t) := by
  intro a' s' heq _
  have heq : ((.ok a, s) : Except Halt α × State) = (.ok a', s') := heq
  cases heq
  exact ⟨t, rfl, h⟩

theorem of_error {e : Halt} {s₁ : State} {o' : Except Halt α × State} :
    Joined before more (.error e, s₁) o' := fun _ _ heq _ => by cases heq

theorem current {g : Token → Reader α} (h : Beside before more s t)
    (hg : Joined before more (g s.current s) (g s.current t)) :
    Joined before more ((Parse.current >>= g) s) ((Parse.current >>= g) t) := by
  change Joined before more (g s.current s) (g t.current t)
  rwa [h.current]

theorem ahead {g : Token → Reader α} (hg : Joined before more (g s.ahead s) (g t.ahead t)) :
    Joined before more ((Parse.ahead >>= g) s) ((Parse.ahead >>= g) t) := hg

theorem budget {l : Nat → Reader α} (hl : Steady l) (h : Beside before more s t)
    (hjoined : ∀ n, Joined before more (l n s) (l n t)) :
    Joined before more ((Parse.budget >>= l) s) ((Parse.budget >>= l) t) := by
  rw [hl.at_budget h.padded (Nat.le_add_right s.budget t.budget),
    hl.at_budget h.padded' (Nat.le_add_left t.budget s.budget)]
  exact hjoined _

/-- **One reader after the other**, where the second one forgets no problem. -/
theorem bind {r : Reader α} {f : α → Reader β} (hr : Joined before more (r s) (r t))
    (hkept : ∀ a (s' : State), s'.KeptBy (f a s').2)
    (hf : ∀ a s' t', Beside before more s' t' → Joined before more (f a s') (f a t')) :
    Joined before more ((r >>= f) s) ((r >>= f) t) := by
  intro b s₂ heq hproblems
  obtain ⟨a, s₁, hs₁, hs₂⟩ := exists_of_bind_ok heq
  have hclean : s₁.problems = #[] := by
    have := hkept a s₁
    rw [hs₂, State.KeptBy, hproblems] at this
    simpa using this
  obtain ⟨t₁, ht₁, hbeside⟩ := hr a s₁ hs₁ hclean
  rw [bind_of_ok ht₁]
  exact hf a s₁ t₁ hbeside b s₂ hs₂ hproblems

theorem map {r : Reader α} {g : α → β} (hr : Joined before more (r s) (r t)) :
    Joined before more ((r >>= fun a => Pure.pure (g a)) s) ((r >>= fun a => Pure.pure (g a)) t) :=
  hr.bind (fun _ s' => .refl s') fun _ _ _ => pure

theorem traced {r : Reader α} {phrase : Phrase}
    (h : Joined before more (r (s.enter phrase)) (r (t.enter phrase))) :
    Joined before more (Parse.traced phrase r s) (Parse.traced phrase r t) := by
  intro a s' heq hproblems
  obtain ⟨ha, hs'⟩ := Prod.mk.inj heq
  rw [← hs'] at hproblems ⊢
  obtain ⟨t₁, ht₁, hbeside⟩ := h a _ (Prod.ext ha rfl) hproblems
  refine ⟨t₁.leave phrase, ?_, hbeside.leave phrase⟩
  unfold Parse.traced
  rw [ht₁]

end Joined

namespace Bridged

variable {s t : State}

/-- A token that is needed brings the readers together, since it is no `eof`. -/
theorem expect {kind : Kind} (hkind : kind ≠ .eof) {f : Unit → Reader β}
    (hf : ∀ s' t', Beside before more s' t' → Joined before more (f () s') (f () t')) :
    Bridged before more s t ((Parse.expect kind >>= f) s) ((Parse.expect kind >>= f) t) := by
  have hstarved : s.left = 0 → ∀ a s', (Parse.expect kind >>= f) s ≠ (.ok a, s') := by
    intro hleft a s'
    have hne : s.ahead.kind ≠ kind := by rwa [State.ahead_of_left hleft, ne_comm]
    rw [bind_of_error (expect_of_ne hne)]
    nofun
  refine ⟨fun _ hleft a s' heq => absurd heq (hstarved hleft a s'), fun h a s' heq hproblems => ?_⟩
  have hleft : s.left ≠ 0 := fun hleft => hstarved hleft a s' heq
  by_cases hk : s.ahead.kind = kind
  · have hk' : t.ahead.kind = kind := by rw [h.ahead hleft, hk]
    rw [bind_of_ok (expect_of_eq hk)] at heq
    rw [bind_of_ok (expect_of_eq hk')]
    exact hf _ _ (h.consume hleft) a s' heq hproblems
  · rw [bind_of_error (expect_of_ne hk)] at heq
    cases heq

/-- What stands before the token that is needed. -/
theorem step {r : Reader α} (hr : Local before more r r) {f : α → Reader β}
    (hf : ∀ a s' t', Bridged before more s' t' (f a s') (f a t')) :
    Bridged before more s t ((r >>= f) s) ((r >>= f) t) where
  starved hs hleft b s₂ heq := by
    obtain ⟨a, s₁, hs₁, hs₂⟩ := exists_of_bind_ok heq
    have hpadded := (hr.forward.within ⟨hs, Nat.lt_add_one _⟩).1
    have hzero := hr.left_eq_zero hs hleft
    rw [hs₁] at hpadded hzero
    exact (hf a s₁ s₁).starved hpadded hzero b s₂ hs₂
  joined h b s₂ heq hproblems := by
    obtain ⟨a, s₁, hs₁, hs₂⟩ := exists_of_bind_ok heq
    have hpadded := (hr.forward.within ⟨h.padded, Nat.lt_add_one _⟩).1
    have hnear := hr.near h
    rw [hs₁] at hpadded hnear
    rcases hnear with hzero | ⟨hsame, hbeside⟩
    · exact absurd hproblems ((hf a s₁ s₁).starved hpadded hzero b s₂ hs₂)
    · obtain ⟨t₁, ht₁⟩ : ∃ t₁, r t = (.ok a, t₁) := ⟨(r t).2, Prod.ext hsame rfl⟩
      rw [ht₁] at hbeside
      rw [bind_of_ok ht₁]
      exact (hf a s₁ t₁).joined hbeside b s₂ hs₂ hproblems

theorem loop {l : Nat → Reader α} (hl : Steady l) (hlocal : ∀ n, Local before more (l n) (l n))
    {f : α → Reader β} (hf : ∀ a s' t', Bridged before more s' t' (f a s') (f a t')) :
    Bridged before more s t ((budget >>= fun n => l n >>= f) s) ((budget >>= fun n => l n >>= f) t) := by
  rw [← bind_assoc]
  exact step (compatible_local.budget hl hl hlocal) hf

end Bridged

/-! ## Blocks -/

section Phrases

variable {sub : Sub} (hlocal : Sub.Related (fun _ => Local before more) sub sub)
include hlocal

/-- A block that does not end with its list is the same block in a longer one. -/
theorem statements_beside : ∀ (n : Nat) {s t : State}, Beside before more s t → s.left < n → t.left < n →
    ∀ {ns : List (Node Token)} {s' : State}, statements sub n s = (.ok ns, s') →
      s'.current.kind = .eof ∨ ∃ t', statements sub n t = (.ok ns, t') ∧ Beside before more s' t'
  | 0, _, _, _, hn, _, _, _, _ => absurd hn (Nat.not_lt_zero _)
  | n + 1, s, t, h, hn, hn', ns, s', heq => by
    by_cases hend : s.current.kind = .closeBlock ∨ s.current.kind = .eof
    · rw [statements_of_closing hend] at heq
      cases heq
      exact .inr ⟨t, statements_of_closing (h.current ▸ hend) _, h⟩
    · have hstatement := (related_statement compatible_local hlocal).attempt
      have hforward := hstatement.forward.within (s := s) ⟨h.padded, hn⟩
      have hforward' := hstatement.forward.within (s := t) ⟨h.padded', hn'⟩
      have hnear := hstatement.near h
      rw [Echo.statements_succ n hend] at heq
      rw [Echo.statements_succ n (by rwa [h.current])]
      rcases hx : attempt (statement sub) s with ⟨e | found, s₁⟩ <;> rw [hx] at heq hnear hforward
      · cases heq
      by_cases hahead : s₁.ahead.kind = .eof
      · -- the list ends after the statement, and the block with it
        have hcurrent : s₁.consume.current.kind = .eof := by simpa using hahead
        dsimp only at heq
        rw [statements_of_closing (.inr hcurrent)] at heq
        cases heq
        exact .inl hcurrent
      · have hleft : s₁.left ≠ 0 := fun hleft => hahead (State.ahead_of_left hleft)
        obtain ⟨hsame, hbeside⟩ := hnear.resolve_left hleft
        obtain ⟨t₁, ht₁⟩ : ∃ t₁, attempt (statement sub) t = (.ok found, t₁) :=
          ⟨(attempt (statement sub) t).2, Prod.ext hsame rfl⟩
        rw [ht₁] at hbeside hforward' ⊢
        have hahead' : t₁.ahead.kind ≠ .eof := by rwa [hbeside.ahead hleft]
        obtain ⟨hresult, rfl⟩ := Prod.mk.inj heq
        rcases hy : statements sub n s₁.consume with ⟨e | ns', s₂⟩ <;> rw [hy] at hresult
        · cases hresult
        cases hresult
        rcases statements_beside n (hbeside.consume hleft) (hforward.consume_lt hahead).2
          (hforward'.consume_lt hahead').2 hy with hclosed | ⟨t₂, ht₂, hbeside₂⟩
        · exact .inl hclosed
        · refine .inr ⟨t₂, ?_, hbeside₂⟩
          dsimp only
          rw [ht₂]
          rfl

omit hlocal in
/-- A block without a problem is closed before its list ends. -/
theorem closed_of_finishBlock {n : Nat} {opening : Token} {s s' : State} {b : Node Token}
    (h : (do let body ← statements sub n
             if (← current).kind = .eof then report (.openBlock opening)
             return .block opening body : Reader (Node Token)) s = (.ok b, s'))
    (hproblems : s'.problems = #[]) :
    ∃ body, statements sub n s = (.ok body, s') ∧ s'.current.kind ≠ .eof ∧ b = .block opening body := by
  rw [Echo.finishBlock_apply] at h
  rcases hx : statements sub n s with ⟨e | body, s₁⟩ <;> rw [hx] at h
  · cases h
  obtain ⟨hb, hs'⟩ := Prod.mk.inj h
  by_cases heof : s₁.current.kind = .eof
  · rw [if_pos heof] at hs'
    simp [← hs'] at hproblems
  · rw [if_neg heof] at hs'
    subst hs'
    exact ⟨body, rfl, heof, (Except.ok.inj hb).symm⟩

theorem joined_block {s t : State} (h : Beside before more s t) :
    Joined before more (block sub s) (block sub t) := by
  refine .traced (.current (h.enter _) ?_)
  generalize hu : s.enter .blockStatement = u
  generalize hv : t.enter .blockStatement = v
  have hbeside : Beside before more u v := hu ▸ hv ▸ h.enter _
  have hsteady := steady_statements hlocal.forward
  intro b s' heq hproblems
  obtain ⟨body, hbody, heof, rfl⟩ := closed_of_finishBlock
    (n := u.consume.budget) (s := u.consume) heq hproblems
  have hleft : u.left ≠ 0 := by
    intro hleft
    have hcurrent : u.consume.current.kind = .eof := by simpa using State.ahead_of_left hleft
    rw [statements_of_closing (.inr hcurrent)] at hbody
    cases hbody
    exact heof hcurrent
  have hconsume := hbeside.consume hleft
  -- both loops may take as many rounds as the two lists allow
  have hrounds : statements sub (u.consume.budget + v.consume.budget) u.consume = (.ok body, s') := by
    rw [← hbody]
    exact hsteady u.consume.budget _ _ (by omega) (Nat.le_refl _) _ ⟨hconsume.padded, State.left_lt_budget _⟩
  have hle := u.consume.left_lt_budget
  have hle' := v.consume.left_lt_budget
  obtain ⟨t', ht', hjoined⟩ := (statements_beside hlocal _ hconsume (by omega) (by omega) hrounds).resolve_left
    heof
  have hbody' : statements sub v.consume.budget v.consume = (.ok body, t') := by
    rw [← ht']
    exact hsteady v.consume.budget _ _ (Nat.le_refl _) (by omega) _ ⟨hconsume.padded', hle'⟩
  refine ⟨t', ?_, hjoined⟩
  change (do
    let body ← statements sub v.consume.budget
    if (← current).kind = .eof then report (.openBlock u.current)
    return .block u.current body : Reader (Node Token)) v.consume = _
  rw [Echo.finishBlock_apply, hbody']
  dsimp only
  rw [if_neg (by rwa [hjoined.current])]

/-! ## Expressions -/

omit hlocal in
theorem joined_integer {s t : State} (h : Beside before more s t) :
    Joined before more (integer s) (integer t) := by
  refine .current h ?_
  cases Text.readInt s.current.literal with
  | error e => exact .of_error
  | ok n =>
    dsimp only
    split
    · exact .pure h
    · exact .of_error

/-- Expressions between commas, up to the token that closes the list. -/
theorem joined_items {closing : Kind} (hclosing : closing ≠ .eof) {s t : State} (h : Beside before more s t) :
    Joined before more (items sub closing s) (items sub closing t) := by
  have hlist : Bridged before more s t
      ((do consume
           let item ← sub lowest
           let more ← moreItems sub (← budget)
           expect closing
           return item :: more : Reader (List (Node Token))) s)
      ((do consume
           let item ← sub lowest
           let more ← moreItems sub (← budget)
           expect closing
           return item :: more : Reader (List (Node Token))) t) := by
    refine .step compatible_local.consume fun _ _ _ => .step hlocal.lowest fun item _ _ => ?_
    refine .loop (steady_moreItems (hlocal.forward _ (Nat.le_refl _)))
      (related_moreItems compatible_local hlocal) fun more _ _ => ?_
    exact .expect hclosing fun _ _ => .pure
  refine .ahead ?_
  by_cases hleft : s.left = 0
  · have hne : s.ahead.kind ≠ closing := by
      rw [State.ahead_of_left hleft]
      exact hclosing.symm
    rw [if_neg hne]
    exact fun a s' heq hproblems => absurd hproblems (hlist.starved h.padded hleft a s' heq)
  · rw [h.ahead hleft]
    split
    · exact .pure (h.consume hleft)
    · exact hlist.joined h

theorem joined_grouped {s t : State} (h : Beside before more s t) :
    Joined before more (grouped sub s) (grouped sub t) := by
  refine Bridged.joined (.step compatible_local.consume fun _ _ _ => .step hlocal.lowest fun e _ _ => ?_) h
  exact .expect (by decide) fun _ _ => .pure

theorem joined_map {s t : State} (h : Beside before more s t) :
    Joined before more (map sub s) (map sub t) := by
  refine .current h (Bridged.joined (.loop (steady_entries (hlocal.forward _ (Nat.le_refl _)))
    (related_entries compatible_local hlocal) fun pairs _ _ => ?_) h)
  exact .expect (by decide) fun _ _ => .pure

theorem joined_function {s t : State} (h : Beside before more s t) :
    Joined before more (function sub s) (function sub t) := by
  refine .traced (.current (h.enter _) (Bridged.joined (.expect (by decide) fun _ _ h₁ => ?_) (h.enter _)))
  refine Bridged.joined (.step (related_params compatible_local) fun ps _ _ => ?_) h₁
  exact .expect (by decide) fun _ _ h₂ => (joined_block hlocal h₂).map

theorem joined_index (left : Node Token) {s t : State} (h : Beside before more s t) :
    Joined before more (index sub left s) (index sub left t) := by
  refine .traced (.current (h.enter _) (Bridged.joined (.step compatible_local.consume fun _ _ _ => ?_)
    (h.enter _)))
  exact .step hlocal.lowest fun i _ _ => .expect (by decide) fun _ _ => .pure

theorem joined_call (left : Node Token) {s t : State} (h : Beside before more s t) :
    Joined before more (call sub left s) (call sub left t) :=
  .traced (.current (h.enter _) (joined_items hlocal (by decide) (h.enter _)).map)

section Following

variable (hkept : Sub.Related (fun _ => Outlasts) sub sub)
  (hmore : Follows tight (more.map Token.bare))
include hkept hmore

omit hkept in
/-- What follows the first list is no `else`. -/
theorem joined_alternative {s t : State} (h : Beside before more s t) :
    Joined before more (alternative sub s) (alternative sub t) := by
  refine .ahead ?_
  by_cases hleft : s.left = 0
  · rw [State.ahead_of_left hleft, h.ahead_at_end hleft, if_neg (by decide), if_neg hmore.2]
    exact .pure h
  · rw [h.ahead hleft]
    split
    · refine Bridged.joined (s := s.consume) ?_ (h.consume hleft)
      exact .expect (by decide) fun _ _ => joined_block hlocal
    · exact .pure h

theorem joined_conditional {s t : State} (h : Beside before more s t) :
    Joined before more (conditional sub s) (conditional sub t) := by
  refine .traced (.current (h.enter _) (Bridged.joined (.expect (by decide) fun _ _ h₁ => ?_) (h.enter _)))
  refine Bridged.joined (.step compatible_local.consume fun _ _ _ => .step hlocal.lowest fun c _ _ => ?_) h₁
  refine .expect (by decide) fun _ _ h₂ => Bridged.joined (.expect (by decide) fun _ _ h₃ => ?_) h₂
  refine (joined_block hlocal h₃).bind (fun b s' => ?_) fun b _ _ h₄ => ?_
  · exact ((related_alternative compatible_outlasts hkept).bind fun _ => .pure _).kept s'
  · exact (joined_alternative hlocal hmore h₄).map

variable (heof : ∀ s : State, s.current.kind = .eof → ∀ n s', sub tight s ≠ (.ok n, s'))
  (hsub : ∀ {s t : State}, Beside before more s t → Joined before more (sub tight s) (sub tight t))
include heof hsub

omit hlocal hkept hmore in
theorem joined_unary {s t : State} (h : Beside before more s t) :
    Joined before more (unary sub s) (unary sub t) := by
  refine .traced (.current (h.enter _) ?_)
  by_cases hleft : s.left = 0
  · intro n s' heq
    obtain ⟨a, s₁, ha, -⟩ := exists_of_bind_ok (m := sub tight) (s := (s.enter .unary).consume) heq
    have hcurrent : (s.enter .unary).consume.current.kind = .eof := by
      rw [State.current_consume]
      exact State.ahead_of_left hleft
    exact absurd ha (heof _ hcurrent a s₁)
  · exact (hsub ((h.enter .unary).consume hleft)).map

theorem joined_primary {s t : State} (h : Beside before more s t) :
    Joined before more (primary sub s) (primary sub t) := by
  rw [primary_apply, primary_apply, h.current]
  split
  · exact .pure h
  · exact joined_integer h
  · exact .pure h
  · exact .pure h
  · exact .pure h
  · exact joined_unary heof hsub h
  · exact joined_unary heof hsub h
  · exact joined_unary heof hsub h
  · exact joined_unary heof hsub h
  · exact joined_grouped hlocal h
  · exact .current h (joined_items hlocal (by decide) h).map
  · exact joined_map hlocal h
  · exact joined_conditional hlocal hkept hmore h
  · exact joined_function hlocal h
  · exact .of_error

omit hlocal hkept hmore heof hsub in
theorem infix_lt_tight {kind : Kind} (h : kind ∈ infixKinds) : bindingPower kind < tight := by
  have hall : ∀ kind ∈ infixKinds, bindingPower kind < tight := by decide
  exact hall kind h

omit heof hsub in
/-- Only calls and subscripts bind tighter than a sign, and what follows the first list is neither. -/
theorem joined_climb : ∀ (n : Nat) (left : Node Token) {s t : State}, Beside before more s t →
    Joined before more (climb sub tight n left s) (climb sub tight n left t)
  | 0, _, _, _, h => .pure h
  | n + 1, left, s, t, h => by
    have hrest (longer : Node Token) (s' : State) : s'.KeptBy (climb sub tight n longer s').2 :=
      (related_climb compatible_outlasts hkept tight n longer).kept s'
    refine .ahead ?_
    by_cases hleft : s.left = 0
    · rw [State.ahead_of_left hleft, h.ahead_at_end hleft, if_neg (by decide),
        if_neg (Nat.not_lt.2 hmore.1)]
      exact .pure h
    · rw [h.ahead hleft]
      split
      next hbinds =>
        have hbeside := h.consume hleft
        refine Joined.bind (r := extend sub left) (s := s.consume) ?_ hrest fun longer _ _ =>
          joined_climb n longer
        rw [extend_apply, extend_apply, hbeside.current]
        rw [← State.current_consume] at hbinds
        split
        · exact joined_call hlocal left hbeside
        · exact joined_index hlocal left hbeside
        next hparen hbracket =>
          have hkind := mem_infixKinds (Nat.lt_trans (by decide) hbinds) hparen hbracket
          exact absurd hbinds (Nat.lt_asymm (infix_lt_tight hkind))
      next => exact .pure h

end Following

end Phrases

/-- No expression starts at the end of the list. -/
theorem expression_at_end {s : State} (h : s.current.kind = .eof) :
    ∀ (depth level : Nat) (n : Node Token) (s' : State), expression depth level s ≠ (.ok n, s')
  | 0, _, _, _ => nofun
  | depth + 1, level, n, s' => by
    intro heq
    obtain ⟨hn, -⟩ := Prod.mk.inj heq
    obtain ⟨left, s₁, hleft, -⟩ := exists_of_bind_ok (m := primary (expression depth))
      (s := s.enter .expression) (Prod.ext hn rfl)
    rw [primary_apply, show (s.enter .expression).current.kind = .eof from h] at hleft
    cases hleft

/-- **Operands.** An operand that is read without a problem, as far as its list goes, is read the same
way if tokens follow that do not go on with it. -/
theorem joined_expression (hmore : Follows tight (more.map Token.bare)) : ∀ (depth : Nat) {s t : State},
    Beside before more s t → Joined before more (expression depth tight s) (expression depth tight t)
  | 0, _, _, _ => .of_error
  | depth + 1, s, t, h => by
    have hlocal : Sub.Related (fun _ => Local before more) (expression depth) (expression depth) :=
      local_expression depth
    have hkept := outlasts_itself depth
    have hsteady (left : Node Token) := steady_climb (forward_expression depth) (by decide : lowest ≤ tight) left
    refine .traced (Joined.bind ?_ (fun left s' => ?_) fun left s' t' h' => ?_)
    · exact joined_primary hlocal hkept hmore (fun s hs => expression_at_end hs depth tight)
        (joined_expression hmore depth) (h.enter _)
    · exact (related_climb compatible_outlasts hkept tight s'.budget left).kept s'
    · exact .budget (hsteady left) h' fun n => joined_climb hlocal hkept hmore n left h'

end SepiaLang.Parse
