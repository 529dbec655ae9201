import SepiaLang.Proofs.Parse.NestingLimit

/-!
# Closing the blocks that are open

A list of tokens may end inside blocks. It is read twice, as it is and with `end`s after it, and the two
readers go side by side up to the end of the list. There every block that is open is reported by the first
one, and closed by one of the `end`s for the second one. Whatever else is open there is a problem for both:
no `end` closes a parenthesis, and none starts an expression.

* `State.Holds`: the tokens that are to come.
* `Level`, `Late`, `Fresh`: two states, the second of which has some `end`s more to come.
* `Spoilt`, `Both`: there is a problem that no `end` helps against, or both have read a phrase.
* `Matches`: two readers that go side by side, with a rule for each way to build them.
* `matches_expression`: expressions, at every depth of nesting.
* **`closed_by_ends`**: a list lacks nothing but so many `end`s if and only if they make it a program.
-/

namespace SepiaLang.Parse

open SepiaLang.Computation

variable {α β : Type}

/-! ## The tokens to come -/

/-- These tokens are to come after the current one, and then nothing but `eof`. -/
structure State.Holds (us : List Token) (s : State) : Prop where
  padded : s.Padded
  inner : ∀ u ∈ us, u.kind ≠ .eof
  list : ∃ pads, (∀ t ∈ pads, t.kind = .eof) ∧ s.ahead :: s.rest = us ++ pads

namespace State.Holds

variable {u : Token} {us : List Token} {s : State}

theorem ahead_eq (h : s.Holds (u :: us)) : s.ahead = u := by
  obtain ⟨pads, -, hlist⟩ := h.list
  exact (List.cons.inj hlist).1

theorem ahead_kind (h : s.Holds []) : s.ahead.kind = .eof := by
  obtain ⟨pads, hpads, hlist⟩ := h.list
  exact hpads _ (List.nil_append pads ▸ hlist ▸ List.mem_cons_self)

theorem consume (h : s.Holds us) : s.consume.Holds us.tail := by
  obtain ⟨pads, hpads, hlist⟩ := h.list
  refine ⟨h.padded.consume, fun v hv => h.inner v (List.mem_of_mem_tail hv), ?_⟩
  have hending : ∀ t ∈ [s.ending], t.kind = .eof := fun t ht => List.mem_singleton.1 ht ▸ h.padded
  unfold State.consume
  rcases hrest : s.rest with _ | ⟨t, rest⟩ <;> rw [hrest] at hlist <;> rcases us with _ | ⟨u, us⟩
  · exact ⟨[s.ending], hending, rfl⟩
  · obtain ⟨rfl, -⟩ := List.append_eq_nil_iff.1 (List.cons.inj hlist).2.symm
    exact ⟨[s.ending], hending, rfl⟩
  · rw [List.nil_append] at hlist
    exact ⟨t :: rest, fun v hv => hpads v (hlist ▸ List.mem_cons_of_mem _ hv), rfl⟩
  · exact ⟨pads, hpads, (List.cons.inj hlist).2⟩

theorem of_window {s' : State} (h : s.Holds us) (hwindow : s'.window = s.window) : s'.Holds us := by
  obtain ⟨-, hahead, hrest, hending⟩ : _ ∧ s'.ahead = s.ahead ∧ s'.rest = s.rest ∧ s'.ending = s.ending := by
    simpa [State.window] using hwindow
  exact ⟨by rw [State.Padded, hending]; exact h.padded, h.inner, by rw [hahead, hrest]; exact h.list⟩

end State.Holds

/-- At the start the window is on the first token. -/
theorem holds_start {tokens us pads : List Token} (htokens : tokens = us ++ pads)
    (hus : ∀ u ∈ us, u.kind ≠ .eof) (hpads : ∀ t ∈ pads, t.kind = .eof) :
    (State.start tokens).Holds us.tail ∧ (us = [] → (State.start tokens).current.kind = .eof) ∧
      ∀ u vs, us = u :: vs → (State.start tokens).current = u := by
  let ending : Token := { kind := .eof, literal := "" }
  let before : State := { current := ending, ahead := ending, rest := tokens, ending }
  have hbefore : before.consume.Holds us := by
    refine ⟨State.Padded.consume (s := before) rfl, hus, ?_⟩
    rcases tokens with _ | ⟨t, rest⟩
    · obtain ⟨rfl, rfl⟩ := List.append_eq_nil_iff.1 htokens.symm
      exact ⟨[ending], by simp [ending], rfl⟩
    · exact ⟨pads, hpads, htokens⟩
  refine ⟨hbefore.consume, ?_, ?_⟩
  · rintro rfl
    exact State.current_consume before.consume ▸ hbefore.ahead_kind
  · rintro u vs rfl
    exact (State.current_consume before.consume).trans hbefore.ahead_eq

/-! ## Two states -/

/-- The first state has the tokens `us` to come, and the second one the same tokens and some `end`s after
them: as many as are missing, if with the blocks that were reported there are `k` of them. -/
structure Level (k : Nat) (us ends : List Token) (s s' : State) : Prop where
  first : s.Holds us
  second : s'.Holds (us ++ ends)
  closing : ∀ e ∈ ends, e.kind = .closeBlock
  same : us ≠ [] → s'.current = s.current ∧ s.current.kind ≠ .eof
  blocks : ∀ p ∈ s.problems, p.isOpenBlock = true
  clean : s'.problems = #[]
  count : s.problems.size + ends.length = k

/-- The states are level. -/
def Lined (k : Nat) (s s' : State) : Prop := ∃ us ends, Level k us ends s s'

/-- The states are level, and the windows are on the same token. -/
def On (k : Nat) (s s' : State) : Prop := Lined k s s' ∧ s'.current = s.current ∧ s.current.kind ≠ .eof

/-- The kinds of tokens that stand past the end of the first list. -/
def pastEnd : List Kind := [.eof, .closeBlock]

/-- The states are level, and the windows have the same token ahead. -/
def Next (k : Nat) (s s' : State) : Prop := Lined k s s' ∧ On k s.consume s'.consume

/-- The window of the first state is past the end, and that of the second one has come to an `end` that
is one of those that are missing, or is past the end as well. -/
structure Late (k : Nat) (ends : List Token) (s s' : State) : Prop where
  first : s.Holds []
  current : s.current.kind = .eof
  second : s'.Holds ends
  closing : ∀ e ∈ ends, e.kind = .closeBlock
  current' : s'.current.kind = .closeBlock ∧ s.problems.size + ends.length + 1 = k ∨
    s'.current.kind = .eof ∧ ends = [] ∧ s.problems.size = k
  blocks : ∀ p ∈ s.problems, p.isOpenBlock = true
  clean : s'.problems = #[]

/-- The windows have moved on to the same token, or to the end of the first list. -/
def Fresh (k : Nat) (s s' : State) : Prop := On k s s' ∨ ∃ ends, Late k ends s s'

section States

variable {k : Nat} {us ends : List Token} {s s' : State} {phrase : Phrase}

theorem Level.enter (h : Level k us ends s s') : Level k us ends (s.enter phrase) (s'.enter phrase) :=
  ⟨h.first.of_window rfl, h.second.of_window rfl, h.closing, h.same, h.blocks, h.clean, h.count⟩

theorem Level.leave (h : Level k us ends s s') : Level k us ends (s.leave phrase) (s'.leave phrase) :=
  ⟨h.first.of_window rfl, h.second.of_window rfl, h.closing, h.same, h.blocks, h.clean, h.count⟩

theorem Lined.enter (h : Lined k s s') : Lined k (s.enter phrase) (s'.enter phrase) :=
  have ⟨us, ends, h⟩ := h
  ⟨us, ends, h.enter⟩

theorem Lined.padded (h : Lined k s s') : s.Padded ∧ s'.Padded :=
  have ⟨_, _, h⟩ := h
  ⟨h.first.padded, h.second.padded⟩

theorem On.enter (h : On k s s') : On k (s.enter phrase) (s'.enter phrase) := ⟨h.1.enter, h.2⟩

theorem Fresh.enter (h : Fresh k s s') : Fresh k (s.enter phrase) (s'.enter phrase) :=
  h.imp On.enter fun ⟨ends, h⟩ => ⟨ends, h.first.of_window rfl, h.current, h.second.of_window rfl, h.closing,
    h.current', h.blocks, h.clean⟩

theorem Fresh.padded (h : Fresh k s s') : s.Padded ∧ s'.Padded :=
  h.elim (fun h => h.1.padded) fun ⟨_, h⟩ => ⟨h.first.padded, h.second.padded⟩

theorem Late.kind (h : Late k ends s s') : s'.current.kind = .closeBlock ∨ s'.current.kind = .eof :=
  h.current'.imp And.left And.left

/-- The same token is ahead of both windows, or the first list is at its end. -/
theorem Lined.ahead_cases (h : Lined k s s') :
    s'.ahead = s.ahead ∧ s.ahead.kind ≠ .eof ∧ s'.current = s.current ∧ On k s.consume s'.consume ∨
      s.ahead.kind = .eof ∧ ∃ ends, (s'.ahead.kind = .closeBlock ∨ s'.ahead.kind = .eof) ∧
        Late k ends s.consume s'.consume := by
  obtain ⟨us, ends, h⟩ := h
  have hfirst := h.first.consume
  have hsecond := h.second.consume
  have hblocks : ∀ p ∈ s.consume.problems, p.isOpenBlock = true := by simpa using h.blocks
  have hclean : s'.consume.problems = #[] := by simpa using h.clean
  have hcount : s.consume.problems.size + ends.length = k := by simpa using h.count
  rcases us with _ | ⟨u, us⟩
  · have hend := h.first.ahead_kind
    have hcurrent : s.consume.current.kind = .eof := by simpa using hend
    refine .inr ⟨hend, ends.tail, ?_⟩
    rcases ends with _ | ⟨e, ends⟩
    · have hend' := h.second.ahead_kind
      have hcurrent' : s'.consume.current.kind = .eof := by simpa using hend'
      exact ⟨.inr hend', hfirst, hcurrent, hsecond, nofun, .inr ⟨hcurrent', rfl, hcount⟩, hblocks, hclean⟩
    · have hend' : s'.ahead.kind = .closeBlock := by
        rw [State.Holds.ahead_eq h.second]
        exact h.closing e List.mem_cons_self
      have hcurrent' : s'.consume.current.kind = .closeBlock := by simpa using hend'
      exact ⟨.inl hend', hfirst, hcurrent, hsecond, fun d hd => h.closing d (.tail _ hd),
        .inl ⟨hcurrent', hcount⟩, hblocks, hclean⟩
  · have hahead : s.ahead = u := h.first.ahead_eq
    have hahead' : s'.ahead = u := State.Holds.ahead_eq h.second
    have hkind : u.kind ≠ .eof := h.first.inner u List.mem_cons_self
    have hsame : s'.consume.current = s.consume.current ∧ s.consume.current.kind ≠ .eof := by
      simpa [hahead, hahead'] using hkind
    exact .inl ⟨by rw [hahead, hahead'], by rwa [hahead], (h.same nofun).1,
      ⟨us, ends, hfirst, hsecond, h.closing, fun _ => hsame, hblocks, hclean, hcount⟩, hsame⟩

theorem Lined.consume (h : Lined k s s') : Fresh k s.consume s'.consume :=
  h.ahead_cases.imp (·.2.2.2) fun ⟨_, ends, _, h⟩ => ⟨ends, h⟩

end States

/-! ## Outcomes -/

/-- Nothing is wrong but up to `k` blocks without an end. -/
def State.Blocks (k : Nat) (s : State) : Prop := s.problems.size ≤ k ∧ ∀ p ∈ s.problems, p.isOpenBlock = true

/-- Nothing is wrong. -/
def State.Clean (s : State) : Prop := s.problems = #[]

/-- What is true of a state was true before, with fewer problems, and there was nothing nested too deeply. -/
structure Lasts (P : State → Prop) : Prop where
  before : ∀ {s s' : State}, s.KeptBy s' → P s' → P s
  report : ∀ {s : State} {p : Problem}, P (s.report p) → p.isOpenBlock = true

theorem lasts_blocks (k : Nat) : Lasts (State.Blocks k) where
  before h hs := ⟨Nat.le_trans h.length_le hs.1, fun p hp => hs.2 p (Array.mem_toList_iff.1 (h.subset hp.val))⟩
  report hs := hs.2 _ Array.mem_push_self

theorem lasts_clean : Lasts State.Clean where
  before h hs := by
    rw [State.KeptBy, State.Clean.eq_1] at *
    simpa [hs] using h
  report hs := absurd hs (by simp [State.Clean])

/-- The limit has stopped the reader, or something is wrong that `P` does not allow. -/
def Spoilt (P : State → Prop) (o : Except Halt α × State) : Prop := o.1 = .error .tooDeep ∨ ¬ P o.2

/-- An outcome that is spoilt stays so, whatever is read after it. -/
theorem Spoilt.bind {P : State → Prop} (hP : Lasts P) {r : Reader α} {f : α → Reader β} {s : State}
    (h : Spoilt P (r s)) (hf : ∀ (a : α) (s : State), s.KeptBy (f a s).2) : Spoilt P ((r >>= f) s) := by
  rw [bind_apply]
  rcases hx : r s with ⟨e | a, s₁⟩ <;> rw [hx] at h
  · exact h.imp (fun he => congrArg _ (Except.error.inj he)) id
  · exact .inr fun hs => h.elim nofun fun hne => hne (hP.before (hf a s₁) hs)

theorem Spoilt.attempt {P : State → Prop} {r : Reader α} {s : State} (h : Spoilt P (r s)) :
    Spoilt P (attempt r s) := by
  rw [Echo.attempt_apply]
  exact h.imp (fun he => by rw [he]; rfl) id

theorem spoilt_reject {P : State → Prop} (hP : Lasts P) {p : Problem} (hp : p.isOpenBlock = false) (s : State) :
    Spoilt P (reject p s : Except Halt α × State) := .inr fun hs => by
  have := hP.report hs
  rw [hp] at this
  cases this

theorem kept_regardless_after {after : Reader Unit} (hafter : ∀ s : State, s.KeptBy (after s).2) (make : α → β)
    (found : Option α) : ∀ s : State, s.KeptBy ((do
      after
      match found with | some a => return make a | none => throw .rejected : Reader β) s).2 :=
  kept_bind hafter fun _ => match found with
    | some _ => .refl
    | none => .refl

theorem Spoilt.regardless {P : State → Prop} (hP : Lasts P) {r : Reader α} {after : Reader Unit} {s : State}
    (h : Spoilt P (r s)) (hafter : ∀ s : State, s.KeptBy (after s).2) (make : α → β) :
    Spoilt P (regardless r after make s) :=
  .bind hP h.attempt (kept_regardless_after hafter make)

/-- Both outcomes are spoilt, or both are results, with states as `D` says. -/
inductive Both (k : Nat) (D : State → State → Prop) : Except Halt α × State → Except Halt α × State → Prop
  | spoilt {o o' : Except Halt α × State} (h : Spoilt (State.Blocks k) o) (h' : Spoilt State.Clean o') :
      Both k D o o'
  | read {a a' : α} {s s' : State} (h : D s s') : Both k D (.ok a, s) (.ok a', s')

/-! ## Readers -/

/-- From states as `C` says the readers go side by side, to states as `D` says. They do not forget
problems. -/
structure Matches (k : Nat) (C D : State → State → Prop) (r r' : Reader α) : Prop where
  near : ∀ {s s' : State}, C s s' → Both k D (r s) (r' s')
  kept : ∀ s : State, s.KeptBy (r s).2
  kept' : ∀ s : State, s.KeptBy (r' s).2

namespace Matches

variable {k : Nat} {C C' D E : State → State → Prop} {r r' q q' : Reader α} {kind : Kind}

/-- Both outcomes are spoilt, or both are results. -/
theorem outcomes (h : Matches k C D r r') {s s' : State} (hs : C s s') :
    (Spoilt (State.Blocks k) (r s) ∧ Spoilt State.Clean (r' s')) ∨
      ∃ a a' s₁ s₁', r s = (.ok a, s₁) ∧ r' s' = (.ok a', s₁') ∧ D s₁ s₁' := by
  have hnear := h.near hs
  generalize r s = o at hnear ⊢
  generalize r' s' = o' at hnear ⊢
  cases hnear with
  | spoilt h h' => exact .inl ⟨h, h'⟩
  | read h => exact .inr ⟨_, _, _, _, rfl, rfl, h⟩

theorem pure (h : ∀ {s s' : State}, C s s' → D s s') (a a' : α) :
    Matches k C D (Pure.pure a : Reader α) (Pure.pure a') :=
  ⟨fun hs => .read (h hs), .refl, .refl⟩

theorem reject {p p' : Problem} (hp : p.isOpenBlock = false) (hp' : p'.isOpenBlock = false) :
    Matches k C D (Parse.reject p : Reader α) (Parse.reject p') where
  near _ := .spoilt (spoilt_reject (lasts_blocks k) hp _) (spoilt_reject lasts_clean hp' _)
  kept s := (State.KeptBy.refl s).report p
  kept' s := (State.KeptBy.refl s).report p'

/-- **One reader after the other.** -/
theorem bind {f f' : α → Reader β} (hr : Matches k C D r r') (hf : ∀ a a', Matches k D E (f a) (f' a')) :
    Matches k C E (r >>= f) (r' >>= f') where
  kept := kept_bind hr.kept fun a => (hf a a).kept
  kept' := kept_bind hr.kept' fun a => (hf a a).kept'
  near {s s'} hs := by
    rcases hr.outcomes hs with ⟨h, h'⟩ | ⟨a, a', s₁, s₁', ho, ho', h⟩
    · exact .spoilt (h.bind (lasts_blocks k) fun a => (hf a a).kept) (h'.bind lasts_clean fun a => (hf a a).kept')
    · rw [bind_of_ok ho, bind_of_ok ho']
      exact (hf a a').near h

theorem mono (h : Matches k C D r r') (hC : ∀ {s s' : State}, C' s s' → C s s') : Matches k C' D r r' :=
  ⟨fun hs => h.near (hC hs), h.kept, h.kept'⟩

theorem current {f f' : Token → Reader α} (h : ∀ t t', Matches k C D (f t) (f' t')) :
    Matches k C D (current >>= f) (current >>= f') where
  near {s s'} hs := (h s.current s'.current).near hs
  kept s := (h s.current s.current).kept s
  kept' s := (h s.current s.current).kept' s

/-- The windows are on the same token. -/
theorem current_same {f f' : Token → Reader α} (h : ∀ t, Matches k (On k) D (f t) (f' t)) :
    Matches k (On k) D (Parse.current >>= f) (Parse.current >>= f') where
  near {s s'} hs := by
    change Both k D (f s.current s) (f' s'.current s')
    rw [hs.2.1]
    exact (h s.current).near hs
  kept s := (h s.current).kept s
  kept' s := (h s.current).kept' s

theorem consume : Matches k (Lined k) (Fresh k) Parse.consume Parse.consume where
  near hs := .read hs.consume
  kept s := (State.KeptBy.refl s).consume
  kept' s := (State.KeptBy.refl s).consume

/-- The same token is ahead, and the window moves on to it. -/
theorem pass : Matches k (Next k) (On k) Parse.consume Parse.consume where
  near hs := .read hs.2
  kept s := (State.KeptBy.refl s).consume
  kept' s := (State.KeptBy.refl s).consume

/-- A test of the token ahead that fails past the end of the first list. -/
theorem ahead_ite {p : Token → Prop} [DecidablePred p] {q q' : Token → Reader α}
    (hp : ∀ t, p t → t.kind ∉ pastEnd) (h : Matches k (Next k) D r r')
    (h' : ∀ t t', Matches k (Lined k) D (q t) (q' t')) :
    Matches k (Lined k) D (do let found ← ahead; if p found then r else q found)
      (do let found ← ahead; if p found then r' else q' found) where
  near {s s'} hs := by
    change Both k D ((if p s.ahead then r else q s.ahead) s) ((if p s'.ahead then r' else q' s'.ahead) s')
    rcases hs.ahead_cases with ⟨hahead, -, -, hon⟩ | ⟨hend, ends, hend', -⟩
    · rw [hahead]
      split
      · exact h.near ⟨hs, hon⟩
      · exact (h' _ _).near hs
    · have hpast : s.ahead.kind ∈ pastEnd := by simp [pastEnd, hend]
      have hpast' : s'.ahead.kind ∈ pastEnd := by simpa [pastEnd] using hend'.symm
      rw [if_neg fun hne => hp _ hne hpast, if_neg fun hne => hp _ hne hpast']
      exact (h' _ _).near hs
  kept s := by
    change s.KeptBy ((if p s.ahead then r else q s.ahead) s).2
    split
    · exact h.kept s
    · exact (h' s.ahead s.ahead).kept s
  kept' s := by
    change s.KeptBy ((if p s.ahead then r' else q' s.ahead) s).2
    split
    · exact h.kept' s
    · exact (h' s.ahead s.ahead).kept' s

/-- A token of one kind is passed over, if it comes next. -/
theorem kind_ite {q q' : Token → Reader α} (hkind : kind ∉ pastEnd) (h : Matches k (Lined k) D r r')
    (h' : ∀ t t', Matches k (Lined k) D (q t) (q' t')) :
    Matches k (Lined k) D
      (do let found ← ahead; if found.kind = kind then (do Parse.consume; r) else q found)
      (do let found ← ahead; if found.kind = kind then (do Parse.consume; r') else q' found) :=
  .ahead_ite (fun _ ht => ht ▸ hkind) (pass.bind fun _ _ => h.mono And.left) h'

theorem expect (hkind : kind ∉ pastEnd) : Matches k (Lined k) (Lined k) (expect kind) (expect kind) :=
  kind_ite hkind (.pure id () ()) fun _ _ => .reject rfl rfl

theorem skip (hkind : kind ∉ pastEnd) : Matches k (Lined k) (Lined k) (skip kind) (skip kind) :=
  kind_ite hkind (.pure id () ()) fun _ _ => .pure id () ()

/-- Loops that take as many rounds as they need. -/
theorem budget {l l' : Nat → Reader α} (hC : ∀ {s s' : State}, C s s' → s.Padded ∧ s'.Padded) (hl : Steady l)
    (hl' : Steady l') (h : ∀ n, Matches k C D (l n) (l' n)) : Matches k C D (budget >>= l) (budget >>= l') where
  near {s s'} hs := by
    obtain ⟨hpadded, hpadded'⟩ := hC hs
    rw [hl.at_budget hpadded (Nat.le_max_left s.budget s'.budget),
      hl'.at_budget hpadded' (Nat.le_max_right s.budget s'.budget)]
    exact (h _).near hs
  kept s := (h s.budget).kept s
  kept' s := (h s.budget).kept' s

theorem traced (hC : ∀ {s s' : State} {phrase : Phrase}, C s s' → C (s.enter phrase) (s'.enter phrase))
    (h : Matches k C (Lined k) r r') (phrase : Phrase) :
    Matches k C (Lined k) (traced phrase r) (traced phrase r') where
  near {s s'} hs := by
    unfold Parse.traced
    rcases h.outcomes (@hC _ _ phrase hs) with ⟨h, h'⟩ | ⟨a, a', s₁, s₁', ho, ho', us, ends, h⟩
    · exact .spoilt h h'
    · rw [ho, ho']
      exact .read ⟨us, ends, h.leave⟩
  kept s := h.kept (s.enter phrase)
  kept' s := h.kept' (s.enter phrase)

theorem attempt (h : Matches k C D r r') : Matches k C D (attempt r) (attempt r') where
  near {s s'} hs := by
    rcases h.outcomes hs with ⟨h, h'⟩ | ⟨a, a', s₁, s₁', ho, ho', h⟩
    · exact .spoilt h.attempt h'.attempt
    · rw [Echo.attempt_apply, Echo.attempt_apply, ho, ho']
      exact .read h
  kept s := by
    rw [Echo.attempt_apply]
    exact h.kept s
  kept' s := by
    rw [Echo.attempt_apply]
    exact h.kept' s

/-- What is given up is spoilt, and stays so. -/
theorem regardless {after after' : Reader Unit} (hr : Matches k C (Lined k) r r')
    (ha : Matches k (Lined k) (Lined k) after after') (make make' : α → β) :
    Matches k C (Lined k) (regardless r after make) (regardless r' after' make') := by
  refine ⟨fun {s s'} hs => ?_, kept_bind hr.attempt.kept (kept_regardless_after ha.kept make),
    kept_bind hr.attempt.kept' (kept_regardless_after ha.kept' make')⟩
  rcases hr.outcomes hs with ⟨h, h'⟩ | ⟨a, a', s₁, s₁', ho, ho', h⟩
  · exact .spoilt (h.regardless (lasts_blocks k) ha.kept make) (h'.regardless lasts_clean ha.kept' make')
  · have hfound : Parse.attempt r s = (.ok (some a), s₁) := by rw [Echo.attempt_apply, ho]; rfl
    have hfound' : Parse.attempt r' s' = (.ok (some a'), s₁') := by rw [Echo.attempt_apply, ho']; rfl
    unfold Parse.regardless
    rw [bind_of_ok hfound, bind_of_ok hfound']
    exact (ha.bind fun _ _ => .pure id (make a) (make' a')).near h

end Matches

/-! ## Lists -/

variable {k : Nat}

theorem matches_moreParams : ∀ n : Nat, Matches k (Lined k) (Lined k) (moreParams n) (moreParams n)
  | 0 => .pure id _ _
  | n + 1 => by
    refine .kind_ite (by decide) ?_ fun _ _ => .pure id _ _
    refine .bind (.expect (by decide)) fun _ _ => .current fun _ _ => ?_
    exact (matches_moreParams n).bind fun _ _ => .pure id _ _

theorem matches_params : Matches k (Lined k) (Lined k) params params := by
  refine .kind_ite (by decide) (.pure id _ _) fun _ _ => ?_
  refine .bind (.expect (by decide)) fun _ _ => .current fun _ _ => ?_
  refine .budget Lined.padded (steady_moreParams.bind _) (steady_moreParams.bind _) fun n => ?_
  refine (matches_moreParams n).bind fun _ _ => .bind (.expect (by decide)) fun _ _ => ?_
  exact .pure id _ _

/-- What stands after a key of a map, and then what follows the map. -/
def entryThen (sub : Sub) (n : Nat) (g : List (Node Token × Node Token) → Reader α) (key : Node Token) :
    Reader α := do
  expect .colon
  consume
  let value ← sub lowest
  if (← ahead).kind = .rbrace then (do let es ← entries sub n; g ((key, value) :: es))
  else do
    expect .comma
    let es ← entries sub n
    g ((key, value) :: es)

/-- One entry of a map after the other, and then what follows the map. -/
theorem entries_then {sub : Sub} (g : List (Node Token × Node Token) → Reader α) (n : Nat) (s : State) :
    (entries sub (n + 1) >>= g) s = if s.ahead.kind = .rbrace ∨ s.ahead.kind = .eof then g [] s
      else (do consume; let key ← sub lowest; entryThen sub n g key) s := by
  change ((if s.ahead.kind = .rbrace ∨ s.ahead.kind = .eof then pure [] else _ : Reader _) >>= g) s = _
  have hcomma (key value : Node Token) (t : Token) :
      ((if t.kind = .rbrace then do return (key, value) :: (← entries sub n)
        else do expect .comma; return (key, value) :: (← entries sub n)) >>= g : Reader α) =
      if t.kind = .rbrace then (do let es ← entries sub n; g ((key, value) :: es))
      else (do expect .comma; let es ← entries sub n; g ((key, value) :: es)) := by
    split <;> simp
  split
  · rfl
  · simp only [bind_assoc, hcomma, ite_not, entryThen]

/-- Expressions go side by side, and none starts with an `end`. -/
structure Sub.Matching (k : Nat) (sub : Sub) : Prop where
  kept : Sub.Related (fun _ => Outlasts) sub sub
  near : ∀ level, lowest ≤ level → Matches k (Fresh k) (Lined k) (sub level) (sub level)
  stops : ∀ (level : Nat) (s : State), s.current.kind = .closeBlock → Spoilt State.Clean (sub level s)

section Phrases

variable {sub : Sub} (hsub : sub.Matching k)
include hsub

theorem matches_moreItems : ∀ n : Nat, Matches k (Lined k) (Lined k) (moreItems sub n) (moreItems sub n)
  | 0 => .pure id _ _
  | n + 1 => by
    refine .kind_ite (by decide) ?_ fun _ _ => .pure id _ _
    refine .bind .consume fun _ _ => .bind (hsub.near _ (Nat.le_refl _)) fun _ _ => ?_
    exact (matches_moreItems n).bind fun _ _ => .pure id _ _

theorem matches_items {closing : Kind} (hclosing : closing ∉ pastEnd) :
    Matches k (Lined k) (Lined k) (items sub closing) (items sub closing) := by
  refine .kind_ite hclosing (.pure id _ _) fun _ _ => ?_
  refine .bind .consume fun _ _ => .bind (hsub.near _ (Nat.le_refl _)) fun _ _ => ?_
  have hsteady := steady_moreItems (hsub.kept.forward _ (Nat.le_refl _))
  refine .budget Lined.padded (hsteady.bind _) (hsteady.bind _) fun n => ?_
  exact (matches_moreItems hsub n).bind fun _ _ => .bind (.expect hclosing) fun _ _ => .pure id _ _

/-- The entries of a map and the brace after them. Where the list ends inside a map, the first reader misses
the brace, and the second one finds an `end` in the place of a key. -/
theorem matches_entries : ∀ (n : Nat) {g g' : List (Node Token × Node Token) → Reader α}
    (_ : ∀ es es', Matches k (Lined k) (Lined k) (g es) (g' es')),
    Matches k (Lined k) (Lined k) (do let es ← entries sub n; expect .rbrace; g es)
      (do let es ← entries sub n; expect .rbrace; g' es)
  | 0, _, _, hg => by
    change Matches k (Lined k) (Lined k) (expect .rbrace >>= fun _ => _) (expect .rbrace >>= fun _ => _)
    exact .bind (.expect (by decide)) fun _ _ => hg [] []
  | n + 1, g, g', hg => by
    have hbrace : Matches k (Lined k) (Lined k) (expect .rbrace) (expect .rbrace) := .expect (by decide)
    have hdone := hbrace.bind fun _ _ => hg [] []
    have hvalue (key key' : Node Token) : Matches k (Lined k) (Lined k)
        (entryThen sub n (fun es => do expect .rbrace; g es) key)
        (entryThen sub n (fun es => do expect .rbrace; g' es) key') := by
      refine .bind (.expect (by decide)) fun _ _ => ?_
      refine .bind .consume fun _ _ => .bind (hsub.near _ (Nat.le_refl _)) fun value value' => ?_
      have hmore := matches_entries n fun es es' => hg ((key, value) :: es) ((key', value') :: es')
      refine .ahead_ite (fun t (ht : t.kind = .rbrace) => ht ▸ by decide) (hmore.mono And.left) fun _ _ => ?_
      exact .bind (.expect (by decide)) fun _ _ => hmore
    have hentry := Matches.bind .consume fun _ _ => (hsub.near lowest (Nat.le_refl _)).bind hvalue
    refine ⟨fun {s s'} hs => ?_, fun s => ?_, fun s => ?_⟩
    · rw [entries_then, entries_then]
      rcases hs.ahead_cases with ⟨hahead, -, -, -⟩ | ⟨hend, ends, hend', hlate⟩
      · rw [hahead]
        split
        · exact hdone.near hs
        · exact hentry.near hs
      · rw [if_pos (.inr hend)]
        split
        · exact hdone.near hs
        next hopen =>
          -- the first reader misses the brace, and the second one comes to an `end`
          have hclose : s'.ahead.kind = .closeBlock := hend'.resolve_right fun h => hopen (.inr h)
          have hclose' : s'.consume.current.kind = .closeBlock := by simpa using hclose
          refine .spoilt (Spoilt.bind (lasts_blocks k) ?_ fun _ => (hg [] []).kept) ?_
          · rw [expect_of_ne (by rw [hend]; decide)]
            exact spoilt_reject (lasts_blocks k) rfl s
          · exact Spoilt.bind (r := sub lowest) (s := s'.consume) lasts_clean (hsub.stops _ _ hclose')
              fun key => (hvalue key key).kept'
    · rw [entries_then]
      split
      · exact hdone.kept s
      · exact hentry.kept s
    · rw [entries_then]
      split
      · exact hdone.kept' s
      · exact hentry.kept' s

/-! ## Statements -/

theorem matches_binding : Matches k (Lined k) (Lined k) (binding sub) (binding sub) := by
  refine .bind (.expect (by decide)) fun _ _ => .current fun _ _ => ?_
  refine .bind (.expect (by decide)) fun _ _ => .bind .consume fun _ _ => ?_
  refine .bind (hsub.near _ (Nat.le_refl _)) fun _ _ => ?_
  exact .bind (.skip (by decide)) fun _ _ => .pure id _ _

omit hsub in
theorem matches_skipToSemicolon : ∀ n : Nat,
    Matches k (Lined k) (Lined k) (skipToSemicolon n) (skipToSemicolon n)
  | 0 => .pure id _ _
  | n + 1 => by
    have hkept := (related_skipToSemicolon compatible_outlasts (n + 1)).kept
    refine ⟨fun {s s'} hs => ?_, hkept, hkept⟩
    change Both k (Lined k)
      ((if s.current.kind = .semicolon ∨ s.current.kind = .eof ∨ s.ahead.kind = .eof ∨
        s.ahead.kind = .closeBlock then pure () else (do consume; skipToSemicolon n) : Reader Unit) s)
      ((if s'.current.kind = .semicolon ∨ s'.current.kind = .eof ∨ s'.ahead.kind = .eof ∨
        s'.ahead.kind = .closeBlock then pure () else (do consume; skipToSemicolon n) : Reader Unit) s')
    rcases hs.ahead_cases with ⟨hahead, -, hcurrent, hon⟩ | ⟨hend, ends, hend', -⟩
    · rw [hahead, hcurrent]
      split
      · exact .read hs
      · exact (matches_skipToSemicolon n).near hon.1
    · rw [if_pos (.inr (.inr (.inl hend))), if_pos (.inr (.inr hend'.symm))]
      exact .read hs

/-- A statement begins with the same token for both, or where the first list is at its end. -/
theorem matches_statement : Matches k (Fresh k) (Lined k) (statement sub) (statement sub) := by
  have hkept := (related_statement compatible_outlasts hsub.kept).kept
  have hbinding (make : Token → Ident Token × Node Token → Node Token) (phrase : Phrase) :
      Matches k (Lined k) (Lined k) (traced phrase do
        let first ← current
        let parts ← binding sub
        return make first parts) (traced phrase do
        let first ← current
        let parts ← binding sub
        return make first parts) :=
    .traced Lined.enter (.current fun _ _ => .bind (matches_binding hsub) fun _ _ => .pure id _ _) phrase
  have hreturn : Matches k (Lined k) (Lined k) (returnStatement sub) (returnStatement sub) := by
    rw [returnStatement_eq]
    refine .traced Lined.enter (.current fun _ _ => .bind .consume fun _ _ => ?_) _
    refine .regardless (hsub.near _ (Nat.le_refl _)) ?_ _ _
    exact .budget Lined.padded steady_skipToSemicolon steady_skipToSemicolon (matches_skipToSemicolon)
  have hexpression : Matches k (Fresh k) (Lined k) (expressionStatement sub) (expressionStatement sub) := by
    rw [expressionStatement_eq]
    refine .traced Fresh.enter (.current fun _ _ => ?_) _
    exact .regardless (hsub.near _ (Nat.le_refl _)) (.skip (by decide)) _ _
  refine ⟨fun {s s'} hs => ?_, hkept, hkept⟩
  rw [statement_apply, statement_apply]
  rcases hs with hon | ⟨ends, hlate⟩
  · rw [hon.2.1]
    split
    · exact (hbinding (fun first parts => .valueStmt first parts.1 parts.2) .valueStatement).near hon.1
    · exact (hbinding (fun first parts => .updateStmt first parts.1 parts.2) .updateStatement).near hon.1
    · exact hreturn.near hon.1
    · exact hexpression.near (.inl hon)
  · rw [hlate.current]
    rcases hlate.kind with hkind | hkind <;> rw [hkind] <;> exact hexpression.near (.inr ⟨ends, hlate⟩)

theorem matches_statements : ∀ n : Nat, Matches k (Fresh k) (Fresh k) (statements sub n) (statements sub n)
  | 0 => .pure id _ _
  | n + 1 => by
    have hkept := (related_statements compatible_outlasts hsub.kept (n + 1)).kept
    have hround : Matches k (Fresh k) (Fresh k) (do
        let found ← attempt (statement sub)
        consume
        return found.toList ++ (← statements sub n)) (do
        let found ← attempt (statement sub)
        consume
        return found.toList ++ (← statements sub n)) := by
      refine .bind (matches_statement hsub).attempt fun _ _ => .bind .consume fun _ _ => ?_
      exact (matches_statements n).bind fun _ _ => .pure id _ _
    refine ⟨fun {s s'} hs => ?_, hkept, hkept⟩
    by_cases hend : s.current.kind = .closeBlock ∨ s.current.kind = .eof
    · have hend' : s'.current.kind = .closeBlock ∨ s'.current.kind = .eof :=
        hs.elim (fun hon => hon.2.1 ▸ hend) fun ⟨_, hlate⟩ => hlate.kind
      rw [statements_of_closing hend, statements_of_closing hend']
      exact .read hs
    · rcases hs with hon | ⟨ends, hlate⟩
      · have hnear := hround.near (.inl hon)
        change Both k (Fresh k)
          ((if s.current.kind = .closeBlock ∨ s.current.kind = .eof then pure [] else _ : Reader _) s)
          ((if s'.current.kind = .closeBlock ∨ s'.current.kind = .eof then pure [] else _ : Reader _) s')
        rw [hon.2.1, if_neg hend]
        exact hnear
      · exact absurd (.inr hlate.current) hend

omit hsub in
theorem finishBlock_apply (t : Token) (body : List (Node Token)) (s : State) :
    (do if (← current).kind = .eof then report (.openBlock t)
        return Node.block t body : Reader (Node Token)) s =
      (.ok (.block t body), if s.current.kind = .eof then s.report (.openBlock t) else s) := by
  change (if s.current.kind = .eof then _ else _ : Reader (Node Token)) s = _
  split <;> rfl

omit hsub in
/-- The end of a block. Past the end of the first list one of the missing `end`s closes it for the second
reader, and the first one reports it. -/
theorem matches_finishBlock (t t' : Token) (body body' : List (Node Token)) :
    Matches k (Fresh k) (Lined k)
      (do if (← current).kind = .eof then report (.openBlock t)
          return Node.block t body)
      (do if (← current).kind = .eof then report (.openBlock t')
          return Node.block t' body') := by
  have hkept (t : Token) (s : State) :
      s.KeptBy (if s.current.kind = .eof then s.report (.openBlock t) else s) := by
    split
    · exact (State.KeptBy.refl s).report _
    · exact .refl s
  refine ⟨fun {s s'} hs => ?_, fun s => finishBlock_apply t body s ▸ hkept t s,
    fun s => finishBlock_apply t' body' s ▸ hkept t' s⟩
  rw [finishBlock_apply, finishBlock_apply]
  rcases hs with hon | ⟨ends, hlate⟩
  · rw [hon.2.1, if_neg hon.2.2, if_neg hon.2.2]
    exact .read hon.1
  · rw [if_pos hlate.current]
    rcases hlate.current' with ⟨hclose, hcount⟩ | ⟨hend, -, hcount⟩
    · rw [if_neg (by rw [hclose]; decide)]
      refine .read ⟨[], ends, hlate.first.of_window rfl, hlate.second, hlate.closing, nofun, fun p hp => ?_,
        hlate.clean, ?_⟩
      · rcases Array.mem_push.1 hp with hp | rfl
        · exact hlate.blocks p hp
        · rfl
      · rw [State.report, Array.size_push]
        omega
    · rw [if_pos hend]
      refine .spoilt (.inr fun hs => ?_) (.inr fun hs => ?_)
      · have := hs.1
        rw [State.report, Array.size_push] at this
        omega
      · simp [State.Clean, State.report] at hs

theorem matches_block : Matches k (Lined k) (Lined k) (block sub) (block sub) := by
  have hsteady := steady_statements hsub.kept.forward
  refine .traced Lined.enter (.current fun t t' => .bind .consume fun _ _ => ?_) _
  refine .budget Fresh.padded (hsteady.bind _) (hsteady.bind _) fun n => ?_
  exact (matches_statements hsub n).bind fun body body' => matches_finishBlock t t' body body'

/-! ## Expressions -/

omit hsub in
theorem matches_integer : Matches k (On k) (Lined k) integer integer := by
  refine .current_same fun t => ?_
  rcases Text.readInt t.literal with e | n
  · exact .reject rfl rfl
  · by_cases hn : n ≤ Word64.greatest
    · simp only [hn, if_true]
      exact .pure And.left _ _
    · simp only [hn, if_false]
      exact .reject rfl rfl

theorem matches_unary : Matches k (Lined k) (Lined k) (unary sub) (unary sub) := by
  refine .traced Lined.enter (.current fun _ _ => .bind .consume fun _ _ => ?_) _
  exact .bind (hsub.near _ (by decide)) fun _ _ => .pure id _ _

theorem matches_grouped : Matches k (Lined k) (Lined k) (grouped sub) (grouped sub) := by
  refine .bind .consume fun _ _ => .bind (hsub.near _ (Nat.le_refl _)) fun _ _ => ?_
  exact .bind (.expect (by decide)) fun _ _ => .pure id _ _

theorem matches_array : Matches k (Lined k) (Lined k) (array sub) (array sub) :=
  .current fun _ _ => .bind (matches_items hsub (by decide)) fun _ _ => .pure id _ _

theorem matches_map : Matches k (Lined k) (Lined k) (map sub) (map sub) := by
  have hsteady := steady_entries (hsub.kept.forward _ (Nat.le_refl _))
  refine .current fun _ _ => .budget Lined.padded (hsteady.bind _) (hsteady.bind _) fun n => ?_
  exact matches_entries hsub n fun _ _ => .pure id _ _

theorem matches_alternative : Matches k (Lined k) (Lined k) (alternative sub) (alternative sub) :=
  .kind_ite (by decide) (.bind (.expect (by decide)) fun _ _ => matches_block hsub) fun _ _ => .pure id _ _

theorem matches_conditional : Matches k (Lined k) (Lined k) (conditional sub) (conditional sub) := by
  refine .traced Lined.enter (.current fun _ _ => .bind (.expect (by decide)) fun _ _ => ?_) _
  refine .bind .consume fun _ _ => .bind (hsub.near _ (Nat.le_refl _)) fun _ _ => ?_
  refine .bind (.expect (by decide)) fun _ _ => .bind (.expect (by decide)) fun _ _ => ?_
  refine .bind (matches_block hsub) fun _ _ => .bind (matches_alternative hsub) fun _ _ => ?_
  exact .pure id _ _

theorem matches_function : Matches k (Lined k) (Lined k) (function sub) (function sub) := by
  refine .traced Lined.enter (.current fun _ _ => .bind (.expect (by decide)) fun _ _ => ?_) _
  refine .bind matches_params fun _ _ => .bind (.expect (by decide)) fun _ _ => ?_
  exact .bind (matches_block hsub) fun _ _ => .pure id _ _

/-- An expression begins with the same token for both. Past the end of the first list there is none. -/
theorem matches_primary : Matches k (Fresh k) (Lined k) (primary sub) (primary sub) := by
  have hkept := (related_primary compatible_outlasts hsub.kept).kept
  refine ⟨fun {s s'} hs => ?_, hkept, hkept⟩
  rw [primary_apply, primary_apply]
  rcases hs with hon | ⟨ends, hlate⟩
  · rw [hon.2.1]
    split
    case h_1 | h_3 | h_4 | h_5 => exact .read hon.1
    case h_2 => exact matches_integer.near hon
    case h_6 | h_7 | h_8 | h_9 => exact (matches_unary hsub).near hon.1
    case h_10 => exact (matches_grouped hsub).near hon.1
    case h_11 => exact (matches_array hsub).near hon.1
    case h_12 => exact (matches_map hsub).near hon.1
    case h_13 => exact (matches_conditional hsub).near hon.1
    case h_14 => exact (matches_function hsub).near hon.1
    case h_15 => exact (Matches.reject rfl rfl).near hon.1
  · rw [hlate.current]
    rcases hlate.kind with hkind | hkind <;> rw [hkind] <;>
      exact (Matches.reject (C := fun _ _ => True) rfl rfl).near trivial

theorem matches_extend (left left' : Node Token) :
    Matches k (On k) (Lined k) (extend sub left) (extend sub left') := by
  have hcall : Matches k (Lined k) (Lined k) (call sub left) (call sub left') := by
    refine .traced Lined.enter (.current fun _ _ => ?_) _
    exact .bind (matches_items hsub (by decide)) fun _ _ => .pure id _ _
  have hindex : Matches k (Lined k) (Lined k) (index sub left) (index sub left') := by
    refine .traced Lined.enter (.current fun _ _ => .bind .consume fun _ _ => ?_) _
    refine .bind (hsub.near _ (Nat.le_refl _)) fun _ _ => ?_
    exact .bind (.expect (by decide)) fun _ _ => .pure id _ _
  have hbinary : Matches k (On k) (Lined k) (binary sub left) (binary sub left') := by
    refine .traced On.enter (.current_same fun t => .mono (.bind .consume fun _ _ => ?_) And.left) _
    exact .bind (hsub.near _ (lowest_le_bindingPower t.kind)) fun _ _ => .pure id _ _
  have hkept (left : Node Token) := (related_extend compatible_outlasts hsub.kept left).kept
  refine ⟨fun {s s'} hon => ?_, hkept left, hkept left'⟩
  rw [extend_apply, extend_apply, hon.2.1]
  split
  · exact hcall.near hon.1
  · exact hindex.near hon.1
  · exact hbinary.near hon

omit hsub in
/-- Neither `eof` nor `end` is an operator. -/
theorem not_pastEnd_of_binds {level : Nat} (hlevel : lowest ≤ level) {kind : Kind}
    (h : level < bindingPower kind) : kind ∉ pastEnd := by
  have hlowest : ∀ kind ∈ pastEnd, bindingPower kind = lowest := by decide
  intro hpast
  rw [hlowest kind hpast] at h
  exact Nat.not_lt.2 hlevel h

theorem matches_climb {level : Nat} (hlevel : lowest ≤ level) : ∀ (n : Nat) (left left' : Node Token),
    Matches k (Lined k) (Lined k) (climb sub level n left) (climb sub level n left')
  | 0, _, _ => .pure id _ _
  | n + 1, left, left' => by
    refine .ahead_ite (fun _ => not_pastEnd_of_binds hlevel) ?_ fun _ _ => .pure id _ _
    refine .bind .pass fun _ _ => .bind (matches_extend hsub left left') fun longer longer' => ?_
    exact matches_climb hlevel n longer longer'

end Phrases

/-- **Expressions go side by side**, at every depth of nesting. -/
theorem matches_expression : ∀ depth : Nat, (expression depth).Matching k
  | 0 => {
      kept := outlasts_itself 0
      near := fun _ _ => ⟨fun _ => .spoilt (.inl rfl) (.inl rfl), .refl, .refl⟩
      stops := fun _ _ _ => .inl rfl }
  | depth + 1 => by
    have hsub := matches_expression depth
    refine ⟨outlasts_itself (depth + 1), fun level hlevel => ?_, fun level s hs => ?_⟩
    · refine .traced Fresh.enter (.bind (matches_primary hsub) fun left left' => ?_) _
      have hsteady := steady_climb hsub.kept.forward hlevel
      exact .budget Lined.padded (hsteady left) (hsteady left') fun n => matches_climb hsub hlevel n left left'
    · -- no expression starts with an `end`
      have hnone : Spoilt State.Clean (primary (expression depth) (s.enter .expression)) := by
        have hcurrent : (s.enter .expression).current.kind = .closeBlock := hs
        rw [primary_apply, hcurrent]
        exact spoilt_reject lasts_clean rfl _
      refine Spoilt.bind lasts_clean hnone fun left s => ?_
      exact (related_climb compatible_outlasts hsub.kept level s.budget left).kept s

/-! ## Programs -/

section Programs

variable {sub : Sub} (hsub : sub.Matching k)
include hsub

/-- What is wrong with a statement is wrong with the program. -/
theorem not_programBody_of_spoilt {P : State → Prop} (hP : Lasts P) (n : Nat) {s : State}
    (heof : s.current.kind ≠ .eof) (h : Spoilt P (statement sub s)) : ¬ P (programBody sub (n + 1) s).2 := by
  intro hfinal
  rcases h with htooDeep | hwrong
  · rw [programBody_succ, if_neg heof] at hfinal
    rcases hx : statement sub s with ⟨r, s₁⟩
    rw [hx] at htooDeep hfinal
    obtain rfl : r = .error .tooDeep := htooDeep
    exact absurd (hP.report hfinal) (by decide)
  · exact hwrong (hP.before (keptBy_statement_then hsub.kept n heof) hfinal)

/-- No statement starts with an `end`. -/
theorem spoilt_statement {s : State} (h : s.current.kind = .closeBlock) :
    Spoilt State.Clean (statement sub s) := by
  rw [statement_apply, h, expressionStatement_eq]
  exact Spoilt.regardless lasts_clean (hsub.stops lowest (s.enter .expressionStatement) h)
    ((compatible_outlasts.skip .semicolon).kept) _

/-- Where the first list is at its end, no block is missing an end unless the second one has an `end` too
many. -/
theorem programBody_iff_of_late {ends : List Token} {s s' : State} (h : Late k ends s s') (n : Nat) {n' : Nat}
    (hn' : s'.current.kind ≠ .eof → s'.Within n') :
    (programBody sub n s).2.Blocks k ∧ (programBody sub n s).2.problems.size = k ↔
      (programBody sub n' s').2.Clean := by
  rw [programBody_of_eof h.current]
  rcases h.current' with ⟨hclose, hcount⟩ | ⟨hend, -, hcount⟩
  · have hopen : s'.current.kind ≠ .eof := by rw [hclose]; decide
    obtain ⟨n', rfl⟩ := Nat.exists_eq_add_one.2 (Nat.zero_lt_of_lt (hn' hopen).2)
    have hwrong := not_programBody_of_spoilt hsub lasts_clean n' hopen (spoilt_statement hsub hclose)
    refine iff_of_false (fun hs => ?_) hwrong
    have hsize : s.problems.size = k := hs.2
    omega
  · rw [programBody_of_eof hend]
    exact iff_of_true ⟨⟨Nat.le_of_eq hcount, h.blocks⟩, hcount⟩ h.clean

/-- **Statement by statement.** The first reader reports `k` blocks and nothing else if and only if the second
one reports nothing. -/
theorem programBody_iff : ∀ (n n' : Nat) {s s' : State}, Fresh k s s' →
    (s.current.kind ≠ .eof → s.Within n) → (s'.current.kind ≠ .eof → s'.Within n') →
    ((programBody sub n s).2.Blocks k ∧ (programBody sub n s).2.problems.size = k ↔
      (programBody sub n' s').2.Clean)
  | n, n', _, _, .inr ⟨_, hlate⟩, _, hn' => programBody_iff_of_late hsub hlate n hn'
  | 0, _, _, _, .inl hon, hn, _ => absurd (hn hon.2.2).2 (Nat.not_lt_zero _)
  | _ + 1, 0, _, _, .inl hon, _, hn' => absurd (hn' (hon.2.1 ▸ hon.2.2)).2 (Nat.not_lt_zero _)
  | n + 1, n' + 1, s, s', .inl hon, hn, hn' => by
    have hopen : s'.current.kind ≠ .eof := hon.2.1 ▸ hon.2.2
    have hforward := related_statement compatible_forward (Sub.Forward.related hsub.kept.forward)
    have hwithin := hforward.within (hn hon.2.2)
    have hwithin' := hforward.within (hn' hopen)
    rcases (matches_statement hsub).outcomes (.inl hon) with ⟨h, h'⟩ | ⟨stmt, stmt', s₁, s₁', ho, ho', h⟩
    · exact iff_of_false (fun hs => not_programBody_of_spoilt hsub (lasts_blocks k) n hon.2.2 h hs.1)
        (not_programBody_of_spoilt hsub lasts_clean n' hopen h')
    · rw [ho] at hwithin
      rw [ho'] at hwithin'
      rw [programBody_succ, if_neg hon.2.2, programBody_succ, if_neg hopen, ho, ho']
      refine programBody_iff n n' h.consume (fun hne => ?_) fun hne => ?_
      · exact hwithin.consume_lt (by simpa using hne)
      · exact hwithin'.consume_lt (by simpa using hne)

end Programs

/-- Two lists of tokens at their first ones. -/
theorem fresh_start {us ends pads pads' : List Token} (hus : ∀ u ∈ us, u.kind ≠ .eof)
    (hends : ∀ e ∈ ends, e.kind = .closeBlock) (hpads : ∀ t ∈ pads, t.kind = .eof)
    (hpads' : ∀ t ∈ pads', t.kind = .eof) :
    Fresh ends.length (State.start (us ++ pads)) (State.start (us ++ ends ++ pads')) := by
  have hall : ∀ u ∈ us ++ ends, u.kind ≠ .eof := fun u hu =>
    (List.mem_append.1 hu).elim (hus u) fun hu => by rw [hends u hu]; decide
  obtain ⟨hfirst, hnil, hcons⟩ := holds_start rfl hus hpads
  obtain ⟨hsecond, hnil', hcons'⟩ := holds_start rfl hall hpads'
  have hproblems := State.problems_start (us ++ pads)
  have hclean := State.problems_start (us ++ ends ++ pads')
  have hblocks : ∀ p ∈ (State.start (us ++ pads)).problems, p.isOpenBlock = true := by simp [hproblems]
  rcases us with _ | ⟨u, us⟩
  · refine .inr ⟨ends.tail, hfirst, hnil rfl, hsecond, fun e he => hends e (List.mem_of_mem_tail he), ?_,
      hblocks, hclean⟩
    rcases ends with _ | ⟨e, ends⟩
    · exact .inr ⟨hnil' rfl, rfl, by rw [hproblems]; rfl⟩
    · have hcurrent := hcons' e ends rfl
      exact .inl ⟨by rw [hcurrent]; exact hends e List.mem_cons_self, by simp [State.problems_start]⟩
  · have hcurrent := hcons u us rfl
    have hsame : (State.start (u :: us ++ ends ++ pads')).current = (State.start (u :: us ++ pads)).current ∧
        (State.start (u :: us ++ pads)).current.kind ≠ .eof := by
      rw [hcurrent]
      exact ⟨hcons' u (us ++ ends) rfl, hus u List.mem_cons_self⟩
    exact .inl ⟨⟨us, ends, hfirst, hsecond, hends, fun _ => hsame, hblocks, hclean,
      by simp [State.problems_start]⟩, hsame⟩

/-- **Blocks are closed by `end`s.** What is wrong with a list of tokens is nothing but so many blocks without
an end if and only if with so many `end`s after it nothing is wrong, under every limit on how deeply expressions
are nested. -/
theorem closed_by_ends (limit : Nat) {us ends pads pads' : List Token} (hus : ∀ u ∈ us, u.kind ≠ .eof)
    (hends : ∀ e ∈ ends, e.kind = .closeBlock) (hpads : ∀ t ∈ pads, t.kind = .eof)
    (hpads' : ∀ t ∈ pads', t.kind = .eof) :
    (∀ p ∈ (program limit (us ++ pads)).problems, p.isOpenBlock = true) ∧
        (program limit (us ++ pads)).problems.length = ends.length ↔
      (program limit (us ++ ends ++ pads')).problems = [] := by
  have hfresh := fresh_start hus hends hpads hpads'
  have hiff := programBody_iff (matches_expression limit) _ _ hfresh
    (fun _ => ⟨State.padded_start (us ++ pads), State.left_lt_budget _⟩)
    (fun _ => ⟨State.padded_start (us ++ ends ++ pads'), State.left_lt_budget _⟩)
  change (∀ p ∈ Array.toList _, _) ∧ List.length (Array.toList _) = _ ↔ Array.toList _ = []
  rw [Array.toList_eq_nil_iff, Array.length_toList]
  refine .trans ⟨fun h => ⟨⟨Nat.le_of_eq h.2, fun p hp => h.1 p (Array.mem_toList_iff.2 hp)⟩, h.2⟩,
    fun h => ⟨fun p hp => h.1.2 p (Array.mem_toList_iff.1 hp), h.2⟩⟩ hiff

end SepiaLang.Parse
