import Mathlib.Data.List.Forall2
import Mathlib.Data.List.GetD
import SepiaLang.Proofs.Parse.Apply

/-!
# Reading the same tokens twice

Two readers that see the same kinds and literals go the same way, wherever the tokens stand. That
still holds if the second list goes on where the first one ends, as long as the first one ends with a
semicolon: nothing before it looks past it. Only a block that is still open then makes a difference,
and that is a problem of the first list.

* `State.nth`, `State.left`: the tokens ahead of a state, without end, and how many are to come.
* `Echo`: what two lists of tokens have in common, and what the second one goes on with.
* `Echo.Shadow`: two states, the second of which stands where the first one does.
* `Echo.Mirrors`: two readers that go the same way from such states, with a rule for each way to build
  readers (`Mirrors.bind`, `Mirrors.expect`, `Mirrors.loop`).
-/

namespace SepiaLang.Parse

open SepiaLang.Computation

/-! ## The tokens ahead -/

namespace State

/-- The token at a distance from the current one. There is no end to them. -/
def nth (s : State) (i : Nat) : Token := (s.current :: s.ahead :: s.rest).getD i s.ending

/-- How many tokens are to come after the current one. -/
def left (s : State) : Nat := (s.ahead :: s.rest).countP fun t => !decide (t.kind = .eof)

theorem nth_consume {s : State} (hs : s.Padded) (i : Nat) :
    s.consume.nth i = s.nth (i + 1) ∨ (s.consume.nth i).kind = .eof ∧ (s.nth (i + 1)).kind = .eof := by
  unfold nth consume
  rcases hrest : s.rest with _ | ⟨t, rest⟩
  · rcases i with _ | _ | i <;> simp
  · by_cases hi : i < (s.ahead :: t :: rest).length
    · left
      simp only [List.getD_cons_succ]
      rw [List.getD_eq_getElem _ _ hi, List.getD_eq_getElem _ _ hi]
    · right
      simp only [List.getD_cons_succ]
      rw [List.getD_eq_default _ _ (by omega), List.getD_eq_default _ _ (by omega)]
      refine ⟨?_, hs⟩
      split
      · assumption
      · exact hs

theorem left_consume {s : State} (hs : s.Padded) (h : s.ahead.kind ≠ .eof) :
    s.consume.left + 1 = s.left := by
  have hending : s.ending.kind = .eof := hs
  unfold left consume
  rcases s.rest with _ | ⟨t, rest⟩ <;> simp [h, hending, List.countP_cons]

theorem left_consume_le {s : State} (hs : s.Padded) : s.consume.left ≤ s.left := by
  have hending : s.ending.kind = .eof := hs
  unfold left consume
  rcases s.rest with _ | ⟨t, rest⟩ <;> simp [hending, List.countP_cons]

theorem left_lt_budget (s : State) : s.left < s.budget := by
  have h : s.left ≤ (s.ahead :: s.rest).length := List.countP_le_length
  rw [List.length_cons] at h
  unfold budget
  omega

end State

/-! ## Two lists of tokens -/

/-- What is seen of the tokens, and where the second list goes on after the first one: nowhere, or as
it is from the state `next`, which does not start with a semicolon. The second reader has found the
problems `before` at the start. -/
structure Echo (α : Type) where
  view : Token → α
  view_inj : ∀ {t t' : Token}, view t = view t' → t.kind = t'.kind ∧ t.literal = t'.literal
  next : Option State
  next_kind : ∀ b ∈ next, b.current.kind ≠ .semicolon
  before : List Problem

namespace Echo

variable {α : Type} {P : Echo α}

/-- The tokens look the same, or both are past the end of a list. -/
def Near (P : Echo α) (t t' : Token) : Prop := P.view t = P.view t' ∨ t.kind = .eof ∧ t'.kind = .eof

theorem Near.kind {t t' : Token} (h : P.Near t t') : t.kind = t'.kind := by
  rcases h with h | ⟨h, h'⟩
  · exact (P.view_inj h).1
  · rw [h, h']

theorem Near.symm {t t' : Token} (h : P.Near t t') : P.Near t' t := h.imp Eq.symm And.symm

theorem Near.trans {t t' t'' : Token} (h : P.Near t t') (h' : P.Near t' t'') : P.Near t t'' := by
  rcases h with h | h
  · rcases h' with h' | h'
    · exact .inl (h.trans h')
    · exact .inr ⟨(P.view_inj h).1.trans h'.1, h'.2⟩
  · exact .inr ⟨h.1, h'.kind ▸ h.2⟩

theorem near_consume {s : State} (hs : s.Padded) (i : Nat) : P.Near (s.consume.nth i) (s.nth (i + 1)) :=
  (State.nth_consume hs i).imp (congrArg P.view) id

/-- The tokens look the same. If the second list does not go on, both may be past the end. -/
def Like (P : Echo α) (t t' : Token) : Prop := P.Near t t' ∧ (P.next ≠ none → P.view t = P.view t')

theorem Like.kind {t t' : Token} (h : P.Like t t') : t.kind = t'.kind := h.1.kind

theorem Like.view {t t' : Token} (h : P.Like t t') (ht : t.kind ≠ .eof) : P.view t = P.view t' :=
  h.1.resolve_right fun h => ht h.1

theorem Like.refl (t : Token) : P.Like t t := ⟨.inl rfl, fun _ => rfl⟩

theorem Like.of_view {t t' : Token} (h : P.view t = P.view t') : P.Like t t' := ⟨.inl h, fun _ => h⟩

/-- The tokens of the first stream are those of the other one, after some of them. -/
def Streams (P : Echo α) (ts ts' : Nat → Token) (skipped : Nat) : Prop :=
  ∀ i, P.Near (ts i) (ts' (i + skipped))

theorem Streams.consume {s s' : State} (h : P.Streams s.nth s'.nth 0) (hs : s.Padded) (hs' : s'.Padded) :
    P.Streams s.consume.nth s'.consume.nth 0 := fun i =>
  (near_consume hs i).trans ((h (i + 1)).trans (near_consume hs' i).symm)

theorem Streams.pass {ts : Nat → Token} {s : State} {skipped : Nat} (h : P.Streams ts s.nth (skipped + 1))
    (hs : s.Padded) : P.Streams ts s.consume.nth skipped := fun i =>
  (h i).trans (near_consume hs (i + skipped)).symm

/-- The first stream ends with a semicolon after `k` tokens, and the second one goes on as from the
state `b`. -/
structure Ends (P : Echo α) (k : Nat) (b : State) (ts ts' : Nat → Token) : Prop where
  upTo : ∀ i ≤ k, (ts i).kind ≠ .eof ∧ P.view (ts i) = P.view (ts' i)
  semicolon : (ts k).kind = .semicolon
  after : ∀ i > k, (ts i).kind = .eof
  further : P.Streams b.nth ts' (k + 1)

theorem Ends.consume {k : Nat} {b s s' : State} (h : P.Ends (k + 1) b s.nth s'.nth) (hs : s.Padded)
    (hs' : s'.Padded) : P.Ends k b s.consume.nth s'.consume.nth := by
  have hfirst (i : Nat) (hi : i ≤ k) : s.consume.nth i = s.nth (i + 1) :=
    (State.nth_consume hs i).resolve_right fun he => (h.upTo (i + 1) (by omega)).1 he.2
  refine ⟨fun i hi => ?_, ?_, fun i hi => ?_, h.further.pass hs'⟩
  · obtain ⟨hne, hview⟩ := h.upTo (i + 1) (by omega)
    have hsecond : s'.consume.nth i = s'.nth (i + 1) := by
      refine (State.nth_consume hs' i).resolve_right fun he => hne ?_
      rw [(P.view_inj hview).1, he.2]
    rw [hfirst i hi, hsecond]
    exact ⟨hne, hview⟩
  · rw [hfirst k (Nat.le_refl k)]
    exact h.semicolon
  · rcases State.nth_consume hs i with he | he
    · rw [he]
      exact h.after (i + 1) (by omega)
    · exact he.1

/-- The tokens of the first stream are those of the second one, which may go on. -/
def Aligned (P : Echo α) (ts ts' : Nat → Token) : Prop :=
  match P.next with
  | none => P.Streams ts ts' 0
  | some b => ∃ k, P.Ends k b ts ts'

/-- The problems are the same, up to what is not seen of the tokens. -/
inductive Alike (P : Echo α) : Problem → Problem → Prop
  | same (p : Problem) : Alike P p p
  | expected {wanted : Kind} {t t' : Token} (h : P.Like t t') :
      Alike P (.expected wanted t) (.expected wanted t')
  | openBlock {t t' : Token} (h : P.view t = P.view t') : Alike P (.openBlock t) (.openBlock t')

/-- The second state stands where the first one does. -/
structure Shadow (P : Echo α) (s s' : State) : Prop where
  padded : s.Padded
  padded' : s'.Padded
  aligned : P.Aligned s.nth s'.nth
  problems : ∃ found, s'.problems.toList = P.before ++ found ∧
    List.Forall₂ P.Alike s.problems.toList found

/-- The first reader is not at the end of its list. -/
def Inside (P : Echo α) (s : State) : Prop := P.next = none ∨ s.current.kind ≠ .semicolon

/-- The first list ended inside a block. -/
def Lost (P : Echo α) (s : State) : Prop := P.next ≠ none ∧ ∃ t, .openBlock t ∈ s.problems

namespace Shadow

variable {s s' : State}

theorem streams (h : P.Shadow s s') (hnext : P.next = none) : P.Streams s.nth s'.nth 0 := by
  have haligned := h.aligned
  rwa [Aligned, hnext] at haligned

theorem ends (h : P.Shadow s s') {b : State} (hnext : P.next = some b) :
    ∃ k, P.Ends k b s.nth s'.nth := by
  have haligned := h.aligned
  rwa [Aligned, hnext] at haligned

theorem current (h : P.Shadow s s') : P.Like s.current s'.current := by
  cases hnext : P.next with
  | none => exact ⟨h.streams hnext 0, fun hne => absurd hnext hne⟩
  | some b =>
    obtain ⟨k, hk⟩ := h.ends hnext
    exact .of_view (hk.upTo 0 (Nat.zero_le k)).2

/-- Inside the first list there is a token ahead, if the second one goes on. -/
theorem room (h : P.Shadow s s') (hin : P.Inside s) : P.next = none ∨ s.ahead.kind ≠ .eof := by
  cases hnext : P.next with
  | none => exact .inl rfl
  | some b =>
    obtain ⟨k, hk⟩ := h.ends hnext
    have hne : k ≠ 0 := by
      rintro rfl
      exact hin.resolve_left (by simp [hnext]) hk.semicolon
    exact .inr (hk.upTo 1 (by omega)).1

theorem ahead (h : P.Shadow s s') (hroom : P.next = none ∨ s.ahead.kind ≠ .eof) :
    P.Like s.ahead s'.ahead := by
  cases hnext : P.next with
  | none => exact ⟨h.streams hnext 1, fun hne => absurd hnext hne⟩
  | some b =>
    obtain ⟨k, hk⟩ := h.ends hnext
    have hne : k ≠ 0 := by
      rintro rfl
      exact hroom.resolve_left (by simp [hnext]) (hk.after 1 (by omega))
    exact .of_view (hk.upTo 1 (by omega)).2

theorem consume (h : P.Shadow s s') (hroom : P.next = none ∨ s.ahead.kind ≠ .eof) :
    P.Shadow s.consume s'.consume := by
  refine ⟨h.padded.consume, h.padded'.consume, ?_, by simpa using h.problems⟩
  unfold Aligned
  cases hnext : P.next with
  | none => exact (h.streams hnext).consume h.padded h.padded'
  | some b =>
    obtain ⟨_ | k, hk⟩ := h.ends hnext
    · exact absurd (hk.after 1 (by omega)) (hroom.resolve_left (by simp [hnext]))
    · exact ⟨k, hk.consume h.padded h.padded'⟩

theorem enter (h : P.Shadow s s') (phrase : Phrase) : P.Shadow (s.enter phrase) (s'.enter phrase) :=
  ⟨h.padded, h.padded', h.aligned, h.problems⟩

theorem leave (h : P.Shadow s s') (phrase : Phrase) : P.Shadow (s.leave phrase) (s'.leave phrase) :=
  ⟨h.padded, h.padded', h.aligned, h.problems⟩

theorem report (h : P.Shadow s s') {p p' : Problem} (hp : P.Alike p p') :
    P.Shadow (s.report p) (s'.report p') := by
  obtain ⟨found, heq, hall⟩ := h.problems
  refine ⟨h.padded, h.padded', h.aligned, found ++ [p'], ?_, ?_⟩
  · simp [heq]
  · simpa using List.rel_append hall (.cons hp .nil)

/-- At a semicolon that ends the first list, no other semicolon follows it in the second one. -/
theorem ahead_kind_ne (h : P.Shadow s s') (hnone : P.next ≠ none) (heof : s.ahead.kind = .eof) :
    s'.ahead.kind ≠ .semicolon := by
  obtain ⟨b, hnext⟩ := Option.ne_none_iff_exists'.1 hnone
  obtain ⟨_ | k, hk⟩ := h.ends hnext
  · have hkind : b.current.kind = s'.ahead.kind := (hk.further 0).kind
    rw [← hkind]
    exact P.next_kind b hnext
  · exact absurd heof (hk.upTo 1 (by omega)).1

end Shadow

/-! ## Two readers -/

variable {β γ δ ε : Type}

/-- The outcomes of two readers are the same, as far as `g` shows of the results, and the second state
stands where the first one does. After a result the first state is as `E` says. -/
structure Agree (P : Echo α) (m m' : Nat) (g : β → γ) (E : β → State → Prop)
    (o o' : Except Halt β × State) : Prop where
  shadow : P.Shadow o.2 o'.2
  left : o.2.left < m
  left' : o'.2.left < m'
  result : o.1.map g = o'.1.map g
  ends : ∀ a, o.1 = .ok a → E a o.2

/-- The readers go the same way from two states, the second of which stands where the first one does,
if the first one is as `C` says and less than `m` and `m'` tokens are to come: both give the same, or
the first list ended inside a block. -/
structure Mirrors (P : Echo α) (m m' : Nat) (C : State → Prop) (g : β → γ) (E : β → State → Prop)
    (r r' : Reader β) : Prop where
  near : ∀ {s s' : State}, P.Shadow s s' → s.left < m → s'.left < m' → C s →
    P.Lost (r s).2 ∨ P.Agree m m' g E (r s) (r' s')
  keep : ∀ {s : State}, P.Lost s → P.Lost (r s).2

theorem Lost.report {s : State} (h : P.Lost s) (p : Problem) : P.Lost (s.report p) := by
  obtain ⟨hnext, t, ht⟩ := h
  exact ⟨hnext, t, Array.mem_push_of_mem p ht⟩

theorem Lost.consume {s : State} (h : P.Lost s) : P.Lost s.consume := by
  rwa [Lost, State.problems_consume]

/-- What is left of an outcome if giving up is none. -/
def settled : Except Halt β → Except Halt (Option β)
  | .ok a => .ok (some a)
  | .error .rejected => .ok none
  | .error .tooDeep => .error .tooDeep

theorem attempt_apply (r : Reader β) (s : State) : Parse.attempt r s = (settled (r s).1, (r s).2) := by
  unfold Parse.attempt
  rcases r s with ⟨(_ | _) | a, s₁⟩ <;> rfl

theorem map_settled (g : β → γ) (x : Except Halt β) : (settled x).map (Option.map g) = settled (x.map g) := by
  rcases x with (_ | _) | a <;> rfl

theorem eq_ok_of_settled {x : Except Halt β} {a : β} (h : settled x = .ok (some a)) : x = .ok a := by
  rcases x with (_ | _) | b <;> cases h
  rfl

namespace Mirrors

variable {m m' : Nat} {C : State → Prop} {g : β → γ} {E : β → State → Prop} {r r' : Reader β}
  {g₂ : δ → ε} {E₂ : δ → State → Prop}

theorem pure {a a' : β} (h : g a = g a') (hE : ∀ s, C s → E a s) :
    P.Mirrors m m' C g E (Pure.pure a) (Pure.pure a') where
  near hs hm hm' hC := .inr ⟨hs, hm, hm', congrArg Except.ok h, by rintro _ ⟨⟩; exact hE _ hC⟩
  keep h := h

theorem throw (h : Halt) : P.Mirrors m m' C g E (throw h) (throw h) where
  near hs hm hm' _ := .inr ⟨hs, hm, hm', rfl, nofun⟩
  keep h := h

theorem reject {p p' : Problem} (h : P.Alike p p') :
    P.Mirrors m m' C g E (Parse.reject p) (Parse.reject p') where
  near hs hm hm' _ := .inr ⟨hs.report h, hm, hm', rfl, nofun⟩
  keep h := h.report p

theorem mono {C' : State → Prop} (h : P.Mirrors m m' C g E r r') (hC : ∀ s, C' s → C s) :
    P.Mirrors m m' C' g E r r' :=
  ⟨fun hs hm hm' hC' => h.near hs hm hm' (hC _ hC'), h.keep⟩

/-- **One reader after the other.** -/
theorem bind {k k' : β → Reader δ} (h : P.Mirrors m m' C g E r r')
    (hk : ∀ a a', g a = g a' → P.Mirrors m m' (E a) g₂ E₂ (k a) (k' a')) :
    P.Mirrors m m' C g₂ E₂ (r >>= k) (r' >>= k') where
  near {s s'} hs hm hm' hC := by
    rw [bind_apply, bind_apply]
    have hfirst := h.near hs hm hm' hC
    rcases hx : r s with ⟨e | a, s₁⟩ <;> rcases hx' : r' s' with ⟨e' | a', s₁'⟩ <;> rw [hx, hx'] at hfirst
    · refine hfirst.imp_right fun ha => ?_
      exact ⟨ha.shadow, ha.left, ha.left', by cases ha.result; rfl, nofun⟩
    · exact hfirst.imp_right fun ha => nomatch ha.result
    · rcases hfirst with hlost | ha
      · exact .inl ((hk a a rfl).keep hlost)
      · exact nomatch ha.result
    · rcases hfirst with hlost | ha
      · exact .inl ((hk a a rfl).keep hlost)
      · exact (hk a a' (Except.ok.inj ha.result)).near ha.shadow ha.left ha.left' (ha.ends a rfl)
  keep {s} hlost := by
    rw [bind_apply]
    have hfirst := h.keep hlost
    rcases hx : r s with ⟨e | a, s₁⟩ <;> rw [hx] at hfirst
    · exact hfirst
    · exact (hk a a rfl).keep hfirst

/-! ### The window -/

variable {f f' : Unit → Reader β} {k k' : Token → Reader β} {l l' : Nat → Reader β} {Q : State → Prop}

theorem current (h : ∀ t t', P.Like t t' →
    P.Mirrors m m' (fun s => C s ∧ s.current = t) g E (k t) (k' t')) :
    P.Mirrors m m' C g E (Parse.current >>= k) (Parse.current >>= k') where
  near hs hm hm' hC := (h _ _ hs.current).near hs hm hm' ⟨hC, rfl⟩
  keep {s} hlost := (h s.current s.current (.refl _)).keep hlost

/-- The current token, where the list is not at its end. -/
theorem token (hC : ∀ s, C s → s.current.kind ≠ .eof)
    (h : ∀ t t', P.view t = P.view t' → P.Mirrors m m' C g E (k t) (k' t')) :
    P.Mirrors m m' C g E (Parse.current >>= k) (Parse.current >>= k') where
  near {s _} hs hm hm' hs₀ := (h _ _ (hs.current.view (hC s hs₀))).near hs hm hm' hs₀
  keep {s} hlost := (h s.current s.current rfl).keep hlost

theorem ahead (hin : ∀ s, C s → P.Inside s) (h : ∀ t t', P.Like t t' →
    P.Mirrors m m' (fun s => C s ∧ s.ahead = t) g E (k t) (k' t')) :
    P.Mirrors m m' C g E (Parse.ahead >>= k) (Parse.ahead >>= k') where
  near hs hm hm' hC := (h _ _ (hs.ahead (hs.room (hin _ hC)))).near hs hm hm' ⟨hC, rfl⟩
  keep {s} hlost := (h s.ahead s.ahead (.refl _)).keep hlost

/-- The budget is enough for all tokens that are to come. -/
theorem budget (h : ∀ n n' m m', m ≤ n → m' ≤ n' → P.Mirrors m m' C g E (l n) (l' n')) :
    P.Mirrors m m' C g E (Parse.budget >>= l) (Parse.budget >>= l') where
  near {s s'} hs hm hm' hC := by
    have hl := h s.budget s'.budget (s.left + 1) (s'.left + 1) s.left_lt_budget s'.left_lt_budget
    refine (hl.near hs (Nat.lt_succ_self _) (Nat.lt_succ_self _) hC).imp_right fun ha => ?_
    exact { ha with
      left := Nat.lt_of_lt_of_le ha.left hm
      left' := Nat.lt_of_lt_of_le ha.left' hm' }
  keep {s} hlost := (h s.budget s.budget 0 0 (Nat.zero_le _) (Nat.zero_le _)).keep hlost

theorem consume (hin : ∀ s, C s → P.Inside s) (hQ : ∀ s, C s → Q s.consume)
    (h : P.Mirrors m m' Q g E (f ()) (f' ())) :
    P.Mirrors m m' C g E (Parse.consume >>= f) (Parse.consume >>= f') where
  near {s _} hs hm hm' hC := h.near (hs.consume (hs.room (hin s hC)))
    (Nat.lt_of_le_of_lt (State.left_consume_le hs.padded) hm)
    (Nat.lt_of_le_of_lt (State.left_consume_le hs.padded') hm') (hQ s hC)
  keep hlost := h.keep hlost.consume

/-- Over a token of the list, so that one less is to come. -/
theorem consume_token (hin : ∀ s, C s → P.Inside s) (hahead : ∀ s, C s → s.ahead.kind ≠ .eof)
    (hQ : ∀ s, C s → Q s.consume) (h : P.Mirrors (m - 1) (m' - 1) Q g E (f ()) (f' ())) :
    P.Mirrors m m' C g E (Parse.consume >>= f) (Parse.consume >>= f') where
  near {s s'} hs hm hm' hC := by
    have hroom := hs.room (hin s hC)
    have hleft := State.left_consume hs.padded (hahead s hC)
    have hleft' := State.left_consume hs.padded' ((hs.ahead hroom).kind ▸ hahead s hC)
    refine (h.near (hs.consume hroom) (by omega) (by omega) (hQ s hC)).imp_right fun ha => ?_
    exact { ha with
      left := Nat.lt_of_lt_of_le ha.left (Nat.sub_le m 1)
      left' := Nat.lt_of_lt_of_le ha.left' (Nat.sub_le m' 1) }
  keep hlost := h.keep hlost.consume

theorem expect {kind : Kind} (hin : ∀ s, C s → P.Inside s)
    (h : P.Mirrors m m' (fun s => s.current.kind = kind) g E (f ()) (f' ())) :
    P.Mirrors m m' C g E (Parse.expect kind >>= f) (Parse.expect kind >>= f') where
  near {s s'} hs hm hm' hC := by
    have hroom := hs.room (hin s hC)
    have hahead := hs.ahead hroom
    by_cases hk : s.ahead.kind = kind
    · rw [bind_of_ok (expect_of_eq hk), bind_of_ok (expect_of_eq (hahead.kind ▸ hk))]
      exact h.near (hs.consume hroom) (Nat.lt_of_le_of_lt (State.left_consume_le hs.padded) hm)
        (Nat.lt_of_le_of_lt (State.left_consume_le hs.padded') hm') (by rwa [State.current_consume])
    · rw [bind_of_error (expect_of_ne hk), bind_of_error (expect_of_ne (hahead.kind ▸ hk))]
      exact .inr ⟨hs.report (.expected hahead), hm, hm', rfl, nofun⟩
  keep {s} hlost := by
    by_cases hk : s.ahead.kind = kind
    · rw [bind_of_ok (expect_of_eq hk)]
      exact h.keep hlost.consume
    · rw [bind_of_error (expect_of_ne hk)]
      exact hlost.report _

/-- A semicolon is passed over in both lists or in none, also where the first one ends. -/
theorem skip (h : P.Mirrors m m' (fun _ => True) g E (f ()) (f' ())) :
    P.Mirrors m m' C g E (Parse.skip .semicolon >>= f) (Parse.skip .semicolon >>= f') where
  near {s s'} hs hm hm' _ := by
    by_cases hk : s.ahead.kind = .semicolon
    · have hroom : P.next = none ∨ s.ahead.kind ≠ .eof := .inr (by simp [hk])
      rw [bind_of_ok (skip_of_eq hk), bind_of_ok (skip_of_eq ((hs.ahead hroom).kind ▸ hk))]
      exact h.near (hs.consume hroom) (Nat.lt_of_le_of_lt (State.left_consume_le hs.padded) hm)
        (Nat.lt_of_le_of_lt (State.left_consume_le hs.padded') hm') trivial
    · have hk' : s'.ahead.kind ≠ .semicolon := by
        by_cases hroom : P.next = none ∨ s.ahead.kind ≠ .eof
        · exact (hs.ahead hroom).kind ▸ hk
        · rw [not_or, not_not] at hroom
          exact hs.ahead_kind_ne hroom.1 hroom.2
      rw [bind_of_ok (skip_of_ne hk), bind_of_ok (skip_of_ne hk')]
      exact h.near hs hm hm' trivial
  keep {s} hlost := by
    by_cases hk : s.ahead.kind = .semicolon
    · rw [bind_of_ok (skip_of_eq hk)]
      exact h.keep hlost.consume
    · rw [bind_of_ok (skip_of_ne hk)]
      exact h.keep hlost

/-! ### Other rules -/

theorem traced {phrase : Phrase} (hC : ∀ s, C s → C (s.enter phrase))
    (hE : ∀ a s, E a s → E a (s.leave phrase)) (h : P.Mirrors m m' C g E r r') :
    P.Mirrors m m' C g E (Parse.traced phrase r) (Parse.traced phrase r') where
  near {s _} hs hm hm' hs₀ :=
    (h.near (hs.enter phrase) hm hm' (hC s hs₀)).imp id fun ha =>
      ⟨ha.shadow.leave phrase, ha.left, ha.left', ha.result, fun a ho => hE a _ (ha.ends a ho)⟩
  keep {s} hlost := h.keep (s := s.enter phrase) hlost

theorem attempt (h : P.Mirrors m m' C g E r r') :
    P.Mirrors m m' C (Option.map g) (fun a? s => ∀ a, a? = some a → E a s) (Parse.attempt r)
      (Parse.attempt r') where
  near {s s'} hs hm hm' hC := by
    rw [attempt_apply, attempt_apply]
    refine (h.near hs hm hm' hC).imp_right fun ha =>
      ⟨ha.shadow, ha.left, ha.left', ?_, fun a? ho a ha? => ha.ends a ?_⟩
    · rw [map_settled, map_settled, ha.result]
    · rw [ha?] at ho
      exact eq_ok_of_settled ho
  keep {s} hlost := by
    rw [attempt_apply]
    exact h.keep hlost

/-- **Loops.** The rounds of both readers are enough for the tokens that are to come, so that neither
of them stops early. -/
theorem loop {ι : Type} {u : ι → δ} {p q : ι → Nat → Reader β}
    (zero : ∀ i s, P.Lost s → P.Lost (p i 0 s).2)
    (step : ∀ n n',
      (∀ i i' m m', u i = u i' → m ≤ n → m' ≤ n' → P.Mirrors m m' C g E (p i n) (q i' n')) →
      ∀ i i' m m', u i = u i' → m ≤ n + 1 → m' ≤ n' + 1 →
        P.Mirrors m m' C g E (p i (n + 1)) (q i' (n' + 1))) :
    ∀ n n' i i' m m', u i = u i' → m ≤ n → m' ≤ n' → P.Mirrors m m' C g E (p i n) (q i' n')
  | 0, _, i, _, m, _, _, hm, _ =>
    ⟨fun _ hlt => absurd hlt (by omega), fun hlost => zero i _ hlost⟩
  | n + 1, 0, i, i', m, m', hi, _, hm' => by
    have hone := step n 0 (loop zero step n 0) i i' 0 0 hi (Nat.zero_le _) (Nat.zero_le _)
    exact ⟨fun _ _ hlt => absurd hlt (by omega), hone.keep⟩
  | n + 1, n' + 1, i, i', m, m', hi, hm, hm' => step n n' (loop zero step n n') i i' m m' hi hm hm'

end Mirrors

end Echo

end SepiaLang.Parse
