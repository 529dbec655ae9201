import SepiaLang.Proofs.Parse.Related
import SepiaLang.Proofs.Parse.Resume
import SepiaLang.Proofs.Scan.Lexes

/-!
# Blocks without an end

An arrow opens a block and the next `end` that is not taken by another arrow closes it. A block is
reported as one without an end if its statements go on up to the end of the tokens. That is so if no
`end` is left for its arrow, or if an `end` was lost: found where an expression was needed, reported as
that, and passed over.

* `Bracketed`, `Closed`: arrows and their ends.
* `Strays`: how many ends have no arrow before them.
* `State.Honest`: every reported block is one without an end, but for the ends that were lost before.
* `Heeds`: an outcome that stays honest, where every stray end that the window has moved over was lost.
  `Tidy`, `TidyFrom`: readers with such outcomes, with a rule for each way to build them.
* **`tidyFrom_expression`**, **`honest_programBody`**: expressions and programs.
* **`unclosed_of_openBlock`**: the reported blocks of a text.
-/

namespace SepiaLang.Parse

open SepiaLang.Computation

variable {α β : Type}

/-! ## Arrows and ends -/

/-- The number of arrows. -/
def openings (ts : List Token) : Nat := ts.countP (·.kind = .openBlock)

/-- Every arrow has its `end`, and every `end` its arrow. -/
inductive Bracketed : List Token → Prop
  | nil : Bracketed []
  | other {t : Token} {ts : List Token} (hopen : t.kind ≠ .openBlock) (hclose : t.kind ≠ .closeBlock)
      (h : Bracketed ts) : Bracketed (t :: ts)
  | block {opening closing : Token} {ts us : List Token} (ho : opening.kind = .openBlock)
      (hts : Bracketed ts) (hc : closing.kind = .closeBlock) (hus : Bracketed us) :
      Bracketed (opening :: ts ++ closing :: us)

/-- Among the tokens after an arrow there is the `end` that belongs to it. -/
def Closed (after : List Token) : Prop :=
  ∃ inner closing rest, after = inner ++ closing :: rest ∧ Bracketed inner ∧ closing.kind = .closeBlock

@[simp] theorem openings_append (ts us : List Token) : openings (ts ++ us) = openings ts + openings us :=
  List.countP_append

theorem openings_cons (t : Token) (ts : List Token) :
    openings (t :: ts) = openings ts + if t.kind = .openBlock then 1 else 0 := by
  simp [openings, List.countP_cons]

theorem closings_cons_eq (t : Token) (ts : List Token) :
    closings (t :: ts) = closings ts + if t.kind = .closeBlock then 1 else 0 := by
  simp [closings, List.countP_cons]

theorem Bracketed.closings_eq {ts : List Token} (h : Bracketed ts) : closings ts = openings ts := by
  induction h with
  | nil => rfl
  | other hopen hclose _ ih => rw [closings_cons hclose, openings_cons, if_neg hopen, ih, Nat.add_zero]
  | @block opening closing _ _ ho _ hc _ ih ih' =>
    have hopening : opening.kind ≠ .closeBlock := by rw [ho]; decide
    have hclosing : closing.kind ≠ .openBlock := by rw [hc]; decide
    rw [List.cons_append, closings_cons hopening, openings_cons, if_pos ho, closings_append, openings_append,
      closings_cons_eq, openings_cons, if_pos hc, if_neg hclosing, ih, ih']
    omega

/-- From the left, the ends outnumber the arrows by no more than `k`. -/
def Strays (k : Nat) (ts : List Token) : Prop := ∀ us, us <+: ts → closings us ≤ openings us + k

namespace Strays

variable {k l : Nat} {t : Token} {ts us : List Token}

theorem mono (h : Strays k ts) (hle : k ≤ l) : Strays l ts := fun us hus =>
  (h us hus).trans (Nat.add_le_add_left hle _)

theorem of_prefix (h : Strays k ts) (hus : us <+: ts) : Strays k us := fun vs hvs => h vs (hvs.trans hus)

theorem nil : Strays 0 [] := by
  intro us hus
  rw [List.prefix_nil.1 hus]
  exact Nat.zero_le _

theorem append (hts : Strays k ts) (hus : Strays l us) : Strays (k + l) (ts ++ us) := by
  intro vs hvs
  rcases List.prefix_or_prefix_of_prefix hvs (List.prefix_append ts us) with hle | ⟨ws, rfl⟩
  · have := hts vs hle
    omega
  · have hfirst := hts ts (List.prefix_refl ts)
    have hsecond := hus ws ((List.prefix_append_right_inj ts).1 hvs)
    rw [closings_append, openings_append]
    omega

/-- One token has no more than one stray end. -/
theorem one (t : Token) : Strays 1 [t] := fun _ hus =>
  List.countP_le_length.trans (hus.length_le.trans (Nat.le_add_left _ _))

theorem other (h : t.kind ≠ .closeBlock) : Strays 0 [t] := by
  intro us hus
  refine (Nat.le_of_eq (closings_eq_zero fun u hu => ?_)).trans (Nat.zero_le _)
  rw [List.mem_singleton.1 (hus.subset hu)]
  exact h

/-- An arrow makes up for one stray end after it. -/
theorem opening (ht : t.kind = .openBlock) (h : Strays (k + 1) ts) : Strays k (t :: ts) := by
  intro us hus
  rcases List.prefix_cons_iff.1 hus with rfl | ⟨vs, rfl, hvs⟩
  · exact Nat.zero_le _
  · have := h vs hvs
    rw [closings_cons (by rw [ht]; decide), openings_cons, if_pos ht]
    omega

/-- Without stray ends there is no `end` for an arrow before the tokens. -/
theorem not_closed (h : Strays 0 ts) : ¬ Closed ts := by
  rintro ⟨inner, closing, rest, rfl, hinner, hclosing⟩
  have hstray := h (inner ++ [closing]) ⟨rest, by simp⟩
  rw [closings_append, openings_append, hinner.closings_eq, closings_cons_eq, if_pos hclosing,
    openings_cons, if_neg (by rw [hclosing]; decide), closings_nil, openings, openings,
    List.countP_nil] at hstray
  omega

end Strays

/-! ## States -/

/-- The number of ends that were found where an expression was needed. -/
def lostEnds (ps : List Problem) : Nat := ps.count (.noExpression .closeBlock)

@[simp] theorem lostEnds_append (ps qs : List Problem) : lostEnds (ps ++ qs) = lostEnds ps + lostEnds qs :=
  List.count_append

/-- The token is an arrow of the list, and up to the end of the list no more than `k` ends after it have
no arrow between it and them. -/
def Unclosed (tokens : List Token) (k : Nat) (t : Token) : Prop :=
  ∃ before after, tokens = before ++ t :: after ∧ t.kind = .openBlock ∧ Strays k (upToEnd after)

namespace State

variable {tokens : List Token} {s s' : State}

/-- The window is on the list, which goes on with `eof` after its last token. -/
def OnList (tokens : List Token) (s : State) : Prop :=
  ∃ before pads, (∀ t ∈ pads, t.kind = .eof) ∧ before ++ s.current :: s.ahead :: s.rest = tokens ++ pads

/-- Every block that was reported is one without an end, but for the ends that were lost before. -/
structure Honest (tokens : List Token) (s : State) : Prop where
  padded : s.Padded
  onList : s.OnList tokens
  unclosed : ∀ {front t back}, s.problems.toList = front ++ .openBlock t :: back →
    Unclosed tokens (lostEnds front) t

theorem OnList.consume (hs : s.Padded) (h : s.OnList tokens) : s.consume.OnList tokens := by
  obtain ⟨before, pads, hpads, hlist⟩ := h
  unfold State.consume
  split
  next hrest =>
    rw [hrest] at hlist
    refine ⟨before ++ [s.current], pads ++ [s.ending], ?_, ?_⟩
    · simpa [or_imp, forall_and] using ⟨hpads, hs⟩
    · rw [← List.append_assoc, ← hlist]
      simp [hrest]
  next t rest hrest =>
    rw [hrest] at hlist
    exact ⟨before ++ [s.current], pads, hpads, by simpa using hlist⟩

theorem onList_start (tokens : List Token) : (start tokens).OnList tokens := by
  let ending : Token := { kind := .eof, literal := "" }
  rcases tokens with _ | ⟨t, _ | ⟨u, rest⟩⟩
  · exact ⟨[], [ending, ending], by simp [ending], rfl⟩
  · refine ⟨[], [if t.kind = .eof then t else ending], ?_, rfl⟩
    rintro u hu
    rw [List.mem_singleton.1 hu]
    split
    · assumption
    · rfl
  · exact ⟨[], [], nofun, by rw [List.append_nil]; rfl⟩

/-- What fills the list up adds nothing to the tokens before the end. -/
theorem upToEnd_append_pads {ts pads : List Token} (h : ∀ t ∈ pads, t.kind = .eof) :
    upToEnd (ts ++ pads) = upToEnd ts := by
  induction ts with
  | nil =>
    cases pads with
    | nil => rfl
    | cons t pads => exact upToEnd_cons_of_eof (h t List.mem_cons_self) _
  | cons t ts ih =>
    by_cases ht : t.kind = .eof
    · rw [List.cons_append, upToEnd_cons_of_eof ht, upToEnd_cons_of_eof ht]
    · rw [List.cons_append, upToEnd_cons ht, upToEnd_cons ht, ih]

/-- The current token is one of the list, and the tokens after it are those to come. -/
theorem OnList.exists_eq (h : s.OnList tokens) (hcurrent : s.current.kind ≠ .eof) :
    ∃ before after, tokens = before ++ s.current :: after ∧ upToEnd after = s.coming := by
  obtain ⟨before, pads, hpads, hlist⟩ := h
  rcases List.append_eq_append_iff.1 hlist with ⟨inner, rfl, hinner⟩ | ⟨inner, rfl, hinner⟩
  · cases inner with
    | nil => exact absurd (hpads s.current (by rw [← List.nil_append pads, ← hinner]; simp)) hcurrent
    | cons t inner =>
      obtain ⟨rfl, hafter⟩ := List.cons.inj hinner
      refine ⟨before, inner, rfl, ?_⟩
      rw [coming, hafter]
      exact (upToEnd_append_pads hpads).symm
  · have hmem : s.current ∈ pads := by rw [hinner]; simp
    exact absurd (hpads _ hmem) hcurrent

namespace Honest

/-- Only the window and the problems matter. -/
theorem congr (h : s.Honest tokens) (hwindow : s'.window = s.window) (hproblems : s'.problems = s.problems) :
    s'.Honest tokens := by
  obtain ⟨hc, ha, hr, he⟩ : s'.current = s.current ∧ s'.ahead = s.ahead ∧ s'.rest = s.rest ∧
      s'.ending = s.ending := by simpa [window] using hwindow
  refine ⟨by rw [Padded, he]; exact h.padded, by rw [OnList, hc, ha, hr]; exact h.onList, ?_⟩
  rw [hproblems]
  exact h.unclosed

theorem consume (h : s.Honest tokens) : s.consume.Honest tokens :=
  ⟨h.padded.consume, h.onList.consume h.padded, by rw [problems_consume]; exact h.unclosed⟩

/-- One more report is as honest as its block. -/
theorem report {p : Problem} (h : s.Honest tokens)
    (hp : ∀ t, p = .openBlock t → Unclosed tokens (lostEnds s.problems.toList) t) :
    (s.report p).Honest tokens := by
  refine ⟨h.padded, h.onList, fun {front t back} heq => ?_⟩
  rw [problems_report, Array.toList_push] at heq
  rcases List.append_eq_append_iff.1 heq with ⟨inner, rfl, hinner⟩ | ⟨inner, hfront, hinner⟩
  · -- the last report
    cases inner with
    | nil =>
      rw [List.append_nil]
      exact hp t (List.cons.inj hinner).1
    | cons q inner => simp at hinner
  · cases inner with
    | nil =>
      rw [List.append_nil] at hfront
      rw [← hfront]
      exact hp t (List.cons.inj hinner).1.symm
    | cons q inner =>
      obtain ⟨rfl, -⟩ := List.cons.inj hinner
      exact h.unclosed hfront

end Honest

end State

/-- Where the window has moved over `eof`, it has moved over all tokens that were to come. -/
theorem Moves.coming_prefix {s s' : State} {ts : List Token} (h : Moves s ts s') (hs : s.Padded)
    (heof : ∃ t ∈ ts, t.kind = .eof) : s.coming <+: ts := by
  induction h with
  | none => simp at heof
  | @some s s' ts _ ih =>
    by_cases hahead : s.ahead.kind = .eof
    · rw [State.coming_eq_nil hahead]
      exact List.nil_prefix
    · rw [State.coming_eq_cons hs hahead]
      exact (List.prefix_cons_inj _).2 (ih hs.consume (by simpa [hahead] using heof))

/-! ## Outcomes -/

variable {tokens : List Token}

/-- The outcome is honest. From the tokens in `first` on, the window has moved over no more stray ends
than were lost, but for `spare` others. Where the limit has stopped it, nothing more is read. -/
structure Heeds (tokens : List Token) (spare : Nat) (first : List Token) (s : State)
    (o : Except Halt α × State) : Prop where
  honest : o.2.Honest tokens
  read : o.1 ≠ .error .tooDeep → ∃ ts found, Moves s ts o.2 ∧
    o.2.problems.toList = s.problems.toList ++ found ∧ Strays (lostEnds found + spare) (first ++ ts)

namespace Heeds

variable {spare spare' : Nat} {first : List Token} {s s₁ : State} {a : α} {x : Except Halt α}
  {o : Except Halt α × State}

theorem done (hs : s.Honest tokens) (h : Strays spare first) : Heeds tokens spare first s (x, s) := by
  refine ⟨hs, fun _ => ⟨[], [], .refl s, (List.append_nil _).symm, ?_⟩⟩
  rw [List.append_nil]
  exact h.mono (Nat.le_add_left _ _)

theorem tooDeep (hs : s.Honest tokens) :
    Heeds tokens spare first s ((.error .tooDeep, s) : Except Halt α × State) :=
  ⟨hs, fun h => absurd rfl h⟩

theorem mono (h : Heeds tokens spare first s o) (hle : spare ≤ spare') : Heeds tokens spare' first s o := by
  refine ⟨h.honest, fun hdeep => ?_⟩
  obtain ⟨ts, found, hmoves, hproblems, hstrays⟩ := h.read hdeep
  exact ⟨ts, found, hmoves, hproblems, hstrays.mono (Nat.add_le_add_left hle _)⟩

/-- Of the result it matters only whether the limit has stopped the reader. -/
theorem of_state {y : Except Halt β} (h : Heeds tokens spare first s (x, s₁))
    (hy : x = .error .tooDeep → y = .error .tooDeep) : Heeds tokens spare first s (y, s₁) :=
  ⟨h.honest, fun hdeep => h.read fun hx => hdeep (hy hx)⟩

theorem trans {o' : Except Halt β × State} (h : Heeds tokens spare first s (.ok a, s₁))
    (h' : Heeds tokens spare' [] s₁ o') : Heeds tokens (spare + spare') first s o' := by
  obtain ⟨ts, found, hmoves, hproblems, hstrays⟩ := h.read nofun
  refine ⟨h'.honest, fun hdeep => ?_⟩
  obtain ⟨us, found', hmoves', hproblems', hstrays'⟩ := h'.read hdeep
  refine ⟨ts ++ us, found ++ found', hmoves.trans hmoves', ?_, ?_⟩
  · rw [hproblems', hproblems, List.append_assoc]
  · rw [← List.append_assoc, lostEnds_append]
    exact (hstrays.append hstrays').mono (by omega)

/-- The window has moved on to its current token. -/
theorem of_consume (h : Heeds tokens spare [s.consume.current] s.consume o) : Heeds tokens spare [] s o := by
  refine ⟨h.honest, fun hdeep => ?_⟩
  obtain ⟨ts, found, hmoves, hproblems, hstrays⟩ := h.read hdeep
  rw [State.current_consume] at hstrays
  exact ⟨s.ahead :: ts, found, .some hmoves, by rw [hproblems, State.problems_consume], hstrays⟩

/-- Tokens without stray ends may be counted in. -/
theorem of_nil (hfirst : Strays spare first) (h : Heeds tokens 0 [] s o) : Heeds tokens spare first s o := by
  refine ⟨h.honest, fun hdeep => ?_⟩
  obtain ⟨ts, found, hmoves, hproblems, hstrays⟩ := h.read hdeep
  exact ⟨ts, found, hmoves, hproblems, (hfirst.append hstrays).mono (by omega)⟩

/-- An arrow takes one of the ends that were spared. -/
theorem opening (h : Heeds tokens (spare + 1) [] s o) {t : Token} (ht : t.kind = .openBlock) :
    Heeds tokens spare [t] s o := by
  refine ⟨h.honest, fun hdeep => ?_⟩
  obtain ⟨ts, found, hmoves, hproblems, hstrays⟩ := h.read hdeep
  exact ⟨ts, found, hmoves, hproblems, .opening ht hstrays⟩

/-- **One reader after the other.** -/
theorem bind {r : Reader α} {f : α → Reader β} (h : Heeds tokens spare first s (r s))
    (hf : ∀ a s', s'.Honest tokens → Heeds tokens 0 [] s' (f a s')) :
    Heeds tokens spare first s ((r >>= f) s) := by
  rw [bind_apply]
  rcases hx : r s with ⟨e | a, s₁⟩ <;> rw [hx] at h
  · exact h.of_state fun he => congrArg _ (Except.error.inj he)
  · exact h.trans (hf a s₁ h.honest)

/-- One more report. It may be that an end was lost. -/
theorem report {p : Problem} (h : Heeds tokens (lostEnds [p] + spare) first s (x, s₁))
    (hp : ∀ t, p = .openBlock t → Unclosed tokens (lostEnds s₁.problems.toList) t) :
    Heeds tokens spare first s (x, s₁.report p) := by
  refine ⟨h.honest.report hp, fun hdeep => ?_⟩
  obtain ⟨ts, found, hmoves, hproblems, hstrays⟩ := h.read hdeep
  refine ⟨ts, found ++ [p], ?_, ?_, ?_⟩
  · have hwindow : Moves s₁ [] (s₁.report p) := .none rfl
    simpa using hmoves.trans hwindow
  · rw [← List.append_assoc, ← hproblems]
    exact Array.toList_push
  · rwa [lostEnds_append, Nat.add_assoc]

theorem reject {p : Problem} (hs : s.Honest tokens) (hp : p.isOpenBlock = false)
    (hfirst : Strays (lostEnds [p] + spare) first) :
    Heeds tokens spare first s (Parse.reject p s : Except Halt α × State) := by
  refine Heeds.report (x := (.error .rejected : Except Halt α)) (.done hs hfirst) ?_
  rintro t rfl
  cases hp

theorem traced {r : Reader α} {phrase : Phrase}
    (h : Heeds tokens spare first (s.enter phrase) (r (s.enter phrase))) :
    Heeds tokens spare first s (traced phrase r s) := by
  refine ⟨h.honest.congr rfl rfl, fun hdeep => ?_⟩
  obtain ⟨ts, found, hmoves, hproblems, hstrays⟩ := h.read hdeep
  exact ⟨ts, found, hmoves.enter.leave phrase, hproblems, hstrays⟩

theorem attempt {r : Reader α} (h : Heeds tokens spare first s (r s)) :
    Heeds tokens spare first s (attempt r s) := by
  rw [Echo.attempt_apply]
  exact h.of_state fun hdeep => by rw [hdeep]; rfl

/-- If the window has come from an arrow to the end of the list, and no end was spared on the way, then the
arrow has none, but for those that were lost. -/
theorem unclosed (h : Heeds tokens 0 [] s (.ok a, s₁)) (hs : s.Honest tokens)
    (hcurrent : s.current.kind = .openBlock) (heof : s₁.current.kind = .eof) :
    Unclosed tokens (lostEnds s₁.problems.toList) s.current := by
  obtain ⟨ts, found, hmoves, hproblems, hstrays⟩ := h.read nofun
  have hlast := hmoves.current_eq
  have hends : ∃ t ∈ ts, t.kind = .eof := by
    rcases List.eq_nil_or_concat' ts with rfl | ⟨us, t, rfl⟩
    · rw [show s₁.current = s.current from hlast, hcurrent] at heof
      cases heof
    · rw [List.getLastD_concat] at hlast
      exact ⟨t, by simp, hlast ▸ heof⟩
  obtain ⟨before, after, htokens, hafter⟩ := hs.onList.exists_eq (by rw [hcurrent]; decide)
  refine ⟨before, after, htokens, hcurrent, ?_⟩
  rw [hafter, show s₁.problems.toList = _ from hproblems, lostEnds_append]
  exact (hstrays.of_prefix (hmoves.coming_prefix hs.padded hends)).mono (by omega)

end Heeds

/-! ## Readers -/

/-- From every state the reader stays honest, and every stray end after the current token is lost. -/
def Tidy (tokens : List Token) (r : Reader α) : Prop :=
  ∀ s : State, s.Honest tokens → Heeds tokens 0 [] s (r s)

/-- From every state the reader stays honest, and every stray end from the current token on is lost. -/
def TidyFrom (tokens : List Token) (r : Reader α) : Prop :=
  ∀ s : State, s.Honest tokens → Heeds tokens 0 [s.current] s (r s)

theorem TidyFrom.bind {r : Reader α} {f : α → Reader β} (hr : TidyFrom tokens r)
    (hf : ∀ a, Tidy tokens (f a)) : TidyFrom tokens (r >>= f) := fun s hs =>
  (hr s hs).bind fun a s' hs' => hf a s' hs'

namespace Tidy

theorem pure (a : α) : Tidy tokens (Pure.pure a : Reader α) := fun _ hs => .done hs .nil

theorem reject {p : Problem} (hp : p.isOpenBlock = false) : Tidy tokens (Parse.reject p : Reader α) :=
  fun _ hs => .reject hs hp (Strays.nil.mono (Nat.zero_le _))

theorem bind {r : Reader α} {f : α → Reader β} (hr : Tidy tokens r) (hf : ∀ a, Tidy tokens (f a)) :
    Tidy tokens (r >>= f) := fun s hs => (hr s hs).bind fun a s' hs' => hf a s' hs'

theorem ite {c : Prop} [Decidable c] {r r' : Reader α} (h : Tidy tokens r) (h' : Tidy tokens r') :
    Tidy tokens (if c then r else r') := by
  split
  · exact h
  · exact h'

theorem current {f : Token → Reader α} (h : ∀ t, Tidy tokens (f t)) : Tidy tokens (current >>= f) :=
  fun s hs => h s.current s hs

theorem ahead {f : Token → Reader α} (h : ∀ t, Tidy tokens (f t)) : Tidy tokens (ahead >>= f) :=
  fun s hs => h s.ahead s hs

theorem budget {l : Nat → Reader α} (h : ∀ n, Tidy tokens (l n)) : Tidy tokens (budget >>= l) :=
  fun s hs => h s.budget s hs

theorem traced {r : Reader α} (h : Tidy tokens r) (phrase : Phrase) : Tidy tokens (traced phrase r) :=
  fun _ hs => .traced (h _ (hs.congr rfl rfl))

theorem consume {f : Unit → Reader α} (h : TidyFrom tokens (f ())) : Tidy tokens (consume >>= f) :=
  fun s hs => Heeds.of_consume (h s.consume hs.consume)

/-- The window moves on to a token that is no `end`. -/
theorem pass {s : State} {f : Unit → Reader α} (h : Tidy tokens (f ())) (hs : s.Honest tokens)
    (hahead : s.ahead.kind ≠ .closeBlock) : Heeds tokens 0 [] s ((Parse.consume >>= f) s) := by
  have hcurrent : Strays 0 [s.consume.current] := .other (by rwa [State.current_consume])
  exact Heeds.of_consume (.of_nil hcurrent (h s.consume hs.consume))

/-- A token of one kind is passed over, if it comes next. -/
theorem ahead_ite {kind : Kind} {r r' : Reader α} (hkind : kind ≠ .closeBlock) (h : Tidy tokens r)
    (h' : Tidy tokens r') :
    Tidy tokens (do if (← Parse.ahead).kind = kind then (do Parse.consume; r) else r') := by
  intro s hs
  change Heeds tokens 0 [] s ((if s.ahead.kind = kind then _ else r' : Reader α) s)
  split
  next heq => exact pass h hs (heq ▸ hkind)
  next => exact h' s hs

theorem expect {kind : Kind} {f : Unit → Reader α} (hkind : kind ≠ .closeBlock) (h : Tidy tokens (f ())) :
    Tidy tokens (expect kind >>= f) := by
  intro s hs
  by_cases heq : s.ahead.kind = kind
  · rw [bind_of_ok (expect_of_eq heq)]
    exact pass h hs (heq ▸ hkind)
  · rw [bind_of_error (expect_of_ne heq)]
    exact reject rfl s hs

theorem skip {kind : Kind} (hkind : kind ≠ .closeBlock) : Tidy tokens (skip kind) := by
  intro s hs
  by_cases heq : s.ahead.kind = kind
  · rw [skip_of_eq heq]
    exact pass (pure ()) hs (heq ▸ hkind)
  · rw [skip_of_ne heq]
    exact pure () s hs

end Tidy

/-- What is passed over after a phrase is passed over with care. -/
theorem TidyFrom.regardless {r : Reader α} {after : Reader Unit} {make : α → β} (hr : TidyFrom tokens r)
    (hafter : Tidy tokens after) : TidyFrom tokens (regardless r after make) := by
  intro s hs
  refine (hr s hs).attempt.bind fun found s₁ hs₁ => (hafter s₁ hs₁).bind fun _ s₂ hs₂ => ?_
  cases found with
  | none => exact .done hs₂ .nil
  | some a => exact .done hs₂ .nil

theorem TidyFrom.traced {r : Reader α} (h : TidyFrom tokens r) (phrase : Phrase) :
    TidyFrom tokens (traced phrase r) := fun s hs => .traced (h (s.enter phrase) (hs.congr rfl rfl))

/-! ## Lists -/

theorem tidy_moreParams : ∀ n : Nat, Tidy tokens (moreParams n)
  | 0 => .pure _
  | n + 1 => by
    refine .ahead_ite (by decide) (.expect (by decide) (.current fun _ => ?_)) (.pure _)
    exact (tidy_moreParams n).bind fun _ => .pure _

theorem tidy_params : Tidy tokens params := by
  refine .ahead_ite (by decide) (.pure _) (.expect (by decide) (.current fun _ => .budget fun n => ?_))
  exact (tidy_moreParams n).bind fun _ => .expect (by decide) (.pure _)

section Phrases

variable {sub : Sub} (hsub : ∀ level, lowest ≤ level → TidyFrom tokens (sub level))
include hsub

theorem tidy_moreItems : ∀ n : Nat, Tidy tokens (moreItems sub n)
  | 0 => .pure _
  | n + 1 => by
    refine .ahead_ite (by decide) (.consume ((hsub _ (Nat.le_refl _)).bind fun _ => ?_)) (.pure _)
    exact (tidy_moreItems n).bind fun _ => .pure _

theorem tidy_items {closing : Kind} (hclosing : closing ≠ .closeBlock) : Tidy tokens (items sub closing) := by
  refine .ahead_ite hclosing (.pure _) (.consume ((hsub _ (Nat.le_refl _)).bind fun _ => .budget fun n => ?_))
  exact (tidy_moreItems hsub n).bind fun _ => .expect hclosing (.pure _)

theorem tidy_entries : ∀ n : Nat, Tidy tokens (entries sub n)
  | 0 => .pure _
  | n + 1 => by
    have hrest (key value : Node Token) : Tidy tokens (do return (key, value) :: (← entries sub n)) :=
      (tidy_entries n).bind fun _ => .pure _
    refine .ahead fun _ => .ite (.pure _) (.consume ((hsub _ (Nat.le_refl _)).bind fun key => ?_))
    refine .expect (by decide) (.consume ((hsub _ (Nat.le_refl _)).bind fun value => .ahead fun _ => ?_))
    dsimp only
    exact .ite (.expect (by decide) (hrest key value)) (hrest key value)

/-! ## Statements -/

theorem tidy_binding : Tidy tokens (binding sub) := by
  refine .expect (by decide) (.current fun _ => .expect (by decide) (.consume ?_))
  exact (hsub _ (Nat.le_refl _)).bind fun _ => (Tidy.skip (by decide)).bind fun _ => .pure _

omit hsub in
theorem tidy_skipToSemicolon : ∀ n : Nat, Tidy tokens (skipToSemicolon n)
  | 0 => .pure _
  | n + 1 => by
    intro s hs
    change Heeds tokens 0 [] s ((if s.current.kind = .semicolon ∨ s.current.kind = .eof ∨
      s.ahead.kind = .eof ∨ s.ahead.kind = .closeBlock then pure () else _ : Reader Unit) s)
    split
    next => exact .done hs .nil
    next hopen => exact Tidy.pass (tidy_skipToSemicolon n) hs fun h => hopen (.inr (.inr (.inr h)))

/-- A statement begins with a token that is looked at: a word of its own, or the first of an expression. -/
theorem tidyFrom_statement : TidyFrom tokens (statement sub) := by
  have hbinding (make : Token → Ident Token × Node Token → Node Token) (phrase : Phrase) :
      Tidy tokens (traced phrase do
        let first ← current
        let parts ← binding sub
        return make first parts) :=
    (Tidy.current fun _ => (tidy_binding hsub).bind fun _ => .pure _).traced phrase
  intro s hs
  have hword {kind : Kind} (hcurrent : s.current.kind = kind) (hkind : kind ≠ .closeBlock) :
      Strays 0 [s.current] := .other (hcurrent ▸ hkind)
  rw [statement_apply]
  split
  next hcurrent =>
    exact .of_nil (hword hcurrent (by decide))
      (hbinding (fun first parts => .valueStmt first parts.1 parts.2) .valueStatement s hs)
  next hcurrent =>
    exact .of_nil (hword hcurrent (by decide))
      (hbinding (fun first parts => .updateStmt first parts.1 parts.2) .updateStatement s hs)
  next hcurrent =>
    rw [returnStatement_eq]
    refine .of_nil (hword hcurrent (by decide)) (Tidy.traced (.current fun _ => .consume ?_) _ s hs)
    exact (hsub _ (Nat.le_refl _)).regardless (.budget fun n => tidy_skipToSemicolon n)
  next =>
    rw [expressionStatement_eq]
    refine TidyFrom.traced (fun s' hs' => ?_) _ s hs
    exact (hsub _ (Nat.le_refl _)).regardless (.skip (by decide)) s' hs'

omit hsub in
theorem statements_succ {n : Nat} {s : State} (h : ¬ (s.current.kind = .closeBlock ∨ s.current.kind = .eof)) :
    statements sub (n + 1) s = match attempt (statement sub) s with
      | (.ok found, s₁) =>
        ((statements sub n s₁.consume).1.map (found.toList ++ ·), (statements sub n s₁.consume).2)
      | (.error e, s₁) => (.error e, s₁) := by
  change (if s.current.kind = .closeBlock ∨ s.current.kind = .eof then (pure [] : Reader _) else _) s = _
  rw [if_neg h, bind_apply]
  rcases attempt (statement sub) s with ⟨e | found, s₁⟩
  · rfl
  · dsimp only
    change (statements sub n >>= fun ns => (pure (found.toList ++ ns) : Reader _)) s₁.consume = _
    rw [bind_apply]
    rcases statements sub n s₁.consume with ⟨e | ns, s₂⟩ <;> rfl

/-- **The statements of a block.** One stray end is spared, on which the window is left. -/
theorem heeds_statements : ∀ (n : Nat) {s : State}, s.Honest tokens →
    Heeds tokens 1 [s.current] s (statements sub n s) ∧
      ((statements sub n s).2.current.kind ≠ .closeBlock → Heeds tokens 0 [s.current] s (statements sub n s))
  | 0, s, hs => ⟨.done hs (.one _), fun hkind => .done hs (.other hkind)⟩
  | n + 1, s, hs => by
    by_cases hend : s.current.kind = .closeBlock ∨ s.current.kind = .eof
    · rw [statements_of_closing hend]
      exact ⟨.done hs (.one _), fun hkind => .done hs (.other hkind)⟩
    · have hfirst := (tidyFrom_statement hsub s hs).attempt
      rw [statements_succ hend]
      rcases hx : attempt (statement sub) s with ⟨e | found, s₁⟩ <;> rw [hx] at hfirst
      · have hstop := hfirst.of_state (y := (.error e : Except Halt (List (Node Token))))
          fun he => congrArg _ (Except.error.inj he)
        exact ⟨hstop.mono (Nat.zero_le _), fun _ => hstop⟩
      · obtain ⟨hrest, hopen⟩ := heeds_statements n hfirst.honest.consume
        have hdeep : (statements sub n s₁.consume).1 = .error .tooDeep →
            (statements sub n s₁.consume).1.map (found.toList ++ ·) = .error .tooDeep := fun h => by rw [h]; rfl
        refine ⟨(hfirst.trans hrest.of_consume).of_state hdeep, fun hkind => ?_⟩
        exact (hfirst.trans (hopen hkind).of_consume).of_state hdeep

/-- **A block** takes one stray end for its arrow. It is reported if the tokens have come to their end,
so that there was none to take. -/
theorem heeds_block {s : State} (hs : s.Honest tokens) (hcurrent : s.current.kind = .openBlock) :
    Heeds tokens 0 [s.current] s (block sub s) := by
  have heq : block sub s = traced .blockStatement (do
      let opening ← current
      consume
      let body ← statements sub (← budget)
      if (← current).kind = .eof then report (.openBlock opening)
      return .block opening body) s := rfl
  rw [heq]
  refine Heeds.traced ?_
  generalize hu : s.enter .blockStatement = u
  have hhonest : u.Honest tokens := hu ▸ hs.congr rfl rfl
  have hkind : u.current.kind = .openBlock := hu ▸ hcurrent
  rw [show s.current = u.current from hu ▸ rfl]
  obtain ⟨hbody, hopen⟩ := heeds_statements hsub u.consume.budget hhonest.consume
  have harrow := hbody.of_consume.opening hkind
  change Heeds tokens 0 [u.current] u ((do
    let body ← statements sub u.consume.budget
    if (← current).kind = .eof then report (.openBlock u.current)
    return .block u.current body : Reader (Node Token)) u.consume)
  rw [Echo.finishBlock_apply]
  rcases hx : statements sub u.consume.budget u.consume with ⟨e | body, s₁⟩ <;> rw [hx] at harrow hopen
  · exact harrow.of_state fun he => congrArg _ (Except.error.inj he)
  · have hdone := harrow.of_state (y := .ok (Node.block u.current body)) nofun
    dsimp only
    split
    next heof =>
      refine hdone.report fun t ht => ?_
      cases ht
      exact (hopen (by rw [heof]; decide)).of_consume.unclosed hhonest hkind heof
    next => exact hdone

/-! ## Expressions -/

/-- The arrow that is needed opens a block. -/
theorem tidy_expect_block {f : Node Token → Reader α} (hf : ∀ b, Tidy tokens (f b)) :
    Tidy tokens (expect .openBlock >>= fun _ => block sub >>= f) := by
  intro s hs
  by_cases hahead : s.ahead.kind = .openBlock
  · rw [bind_of_ok (expect_of_eq hahead)]
    have hblock := heeds_block hsub hs.consume (by rwa [State.current_consume])
    exact Heeds.of_consume (hblock.bind fun b s' hs' => hf b s' hs')
  · rw [bind_of_error (expect_of_ne hahead)]
    exact Tidy.reject rfl s hs

omit hsub in
theorem tidy_integer : Tidy tokens integer := by
  refine .current fun t => ?_
  split
  · exact .ite (.pure _) (.reject rfl)
  · exact .reject rfl

theorem tidy_unary : Tidy tokens (unary sub) :=
  (Tidy.current fun _ => .consume ((hsub _ (by decide)).bind fun _ => .pure _)).traced _

theorem tidy_grouped : Tidy tokens (grouped sub) :=
  .consume ((hsub _ (Nat.le_refl _)).bind fun expr => .expect (by decide) (.pure expr))

theorem tidy_map : Tidy tokens (map sub) := by
  refine .current fun _ => .budget fun n => (tidy_entries hsub n).bind fun _ => ?_
  exact .expect (by decide) (.pure _)

theorem tidy_alternative : Tidy tokens (alternative sub) := by
  have hblock : Tidy tokens (expect .openBlock >>= fun _ => block sub >>= pure) :=
    tidy_expect_block hsub fun b => .pure b
  simp only [bind_pure] at hblock
  exact .ahead_ite (by decide) hblock (.pure _)

theorem tidy_conditional : Tidy tokens (conditional sub) := by
  refine Tidy.traced (.current fun _ => .expect (by decide) (.consume ?_)) _
  refine (hsub _ (Nat.le_refl _)).bind fun _ => .expect (by decide) (tidy_expect_block hsub fun _ => ?_)
  exact (tidy_alternative hsub).bind fun _ => .pure _

theorem tidy_function : Tidy tokens (function sub) := by
  refine Tidy.traced (.current fun _ => .expect (by decide) (tidy_params.bind fun _ => ?_)) _
  exact tidy_expect_block hsub fun _ => .pure _

/-- An `end` in the place of an expression is lost; every other token is none. -/
theorem tidyFrom_primary : TidyFrom tokens (primary sub) := by
  intro s hs
  by_cases hend : s.current.kind = .closeBlock
  · rw [primary_apply, hend]
    exact .reject hs rfl (.one _)
  · refine .of_nil (.other hend) ?_
    rw [primary_apply]
    split
    · exact .done hs .nil
    · exact tidy_integer s hs
    · exact .done hs .nil
    · exact .done hs .nil
    · exact .done hs .nil
    · exact tidy_unary hsub s hs
    · exact tidy_unary hsub s hs
    · exact tidy_unary hsub s hs
    · exact tidy_unary hsub s hs
    · exact tidy_grouped hsub s hs
    · exact Tidy.current (fun _ => (tidy_items hsub (by decide)).bind fun _ => .pure _) s hs
    · exact tidy_map hsub s hs
    · exact tidy_conditional hsub s hs
    · exact tidy_function hsub s hs
    · exact Tidy.reject rfl s hs

theorem tidy_extend (left : Node Token) : Tidy tokens (extend sub left) := by
  refine .current fun _ => ?_
  split
  · exact (Tidy.current fun _ => (tidy_items hsub (by decide)).bind fun _ => .pure _).traced _
  · refine Tidy.traced (.current fun _ => .consume ((hsub _ (Nat.le_refl _)).bind fun _ => ?_)) _
    exact .expect (by decide) (.pure _)
  · refine Tidy.traced (.current fun t => .consume ?_) _
    exact (hsub _ (lowest_le_bindingPower t.kind)).bind fun _ => .pure _

/-- An `end` is no operator. -/
theorem tidy_climb {level : Nat} (hlevel : lowest ≤ level) : ∀ (n : Nat) (left : Node Token),
    Tidy tokens (climb sub level n left)
  | 0, _ => .pure _
  | n + 1, left => by
    intro s hs
    change Heeds tokens 0 [] s ((if level < bindingPower s.ahead.kind then _ else pure left : Reader _) s)
    split
    next hpower =>
      refine Tidy.pass ((tidy_extend hsub left).bind fun longer => tidy_climb hlevel n longer) hs fun hend => ?_
      rw [hend] at hpower
      exact absurd hlevel (Nat.not_le.2 hpower)
    next => exact .done hs .nil

end Phrases

/-- **Expressions.** -/
theorem tidyFrom_expression : ∀ (depth level : Nat), lowest ≤ level → TidyFrom tokens (expression depth level)
  | 0, _, _ => fun _ hs => .tooDeep hs
  | depth + 1, level, hlevel => by
    have hsub := tidyFrom_expression depth
    refine TidyFrom.traced ((tidyFrom_primary hsub).bind fun left => .budget fun n => ?_) _
    exact tidy_climb hsub hlevel n left

/-! ## Programs -/

/-- **Programs.** Between statements it does not matter which ends were passed over. -/
theorem honest_programBody (limit : Nat) : ∀ (n : Nat) {s : State}, s.Honest tokens →
    (programBody (expression limit) n s).2.Honest tokens
  | 0, _, hs => hs
  | n + 1, s, hs => by
    rw [programBody_succ]
    split
    next => exact hs
    next =>
      have hfirst := (tidyFrom_statement (tidyFrom_expression limit) s hs).honest
      rcases hx : statement (expression limit) s with ⟨(_ | _) | stmt, s₁⟩ <;> rw [hx] at hfirst
      · exact honest_programBody limit n hfirst.consume
      · exact hfirst.report nofun
      · exact honest_programBody limit n hfirst.consume

/-- **The reported blocks of a list of tokens.** -/
theorem unclosed_program (limit : Nat) (tokens : List Token) {front back : List Problem} {t : Token}
    (h : (program limit tokens).problems = front ++ .openBlock t :: back) :
    Unclosed tokens (lostEnds front) t := by
  have hstart : (State.start tokens).Honest tokens := by
    refine ⟨State.padded_start tokens, State.onList_start tokens, fun heq => ?_⟩
    rw [State.problems_start] at heq
    simp at heq
  exact (honest_programBody limit (State.start tokens).budget hstart).unclosed h

end Parse

open Parse

/-- After an arrow of a text there are the tokens up to the end, and `eof`. -/
theorem strays_of_scan {source : String} {k : Nat} {t : Token} {before after : List Token}
    (hscan : scan source = before ++ t :: after) (ht : t.kind ≠ .eof) (h : Strays k (upToEnd after)) :
    Strays k after := by
  obtain ⟨tokens, last, htokens, hlast, hbefore⟩ := exists_scan_eq source
  rw [htokens] at hscan
  rcases List.eq_nil_or_concat' after with rfl | ⟨inner, u, rfl⟩
  · obtain ⟨-, hlast'⟩ := List.append_inj' hscan rfl
    exact absurd ((List.cons.inj hlast').1 ▸ hlast) ht
  · rw [← List.cons_append, ← List.append_assoc] at hscan
    obtain ⟨rfl, hlast'⟩ := List.append_inj' hscan rfl
    obtain rfl : last = u := (List.cons.inj hlast').1
    have hinner : ∀ t ∈ inner, t.kind ≠ .eof := fun t ht => hbefore t (by simp [ht])
    rw [upToEnd_concat hlast hinner] at h
    exact h.append (.other (by rw [hlast]; decide))

/-- **A block is reported only if it has no end.** Its token is an arrow of the text, and no `end` after it
belongs to it. That is so as long as no `end` was found before where an expression was needed. -/
theorem unclosed_of_openBlock (source : String) {front back : List Problem} {t : Token}
    (h : (parseSource source).problems = front ++ .openBlock t :: back)
    (hlost : .noExpression .closeBlock ∉ front) : ∃ before after,
    scan source = before ++ t :: after ∧ t.kind = .openBlock ∧ ¬ Closed after := by
  obtain ⟨before, after, hscan, hkind, hstrays⟩ := unclosed_program nestingLimit (scan source) h
  rw [lostEnds, List.count_eq_zero_of_not_mem hlost] at hstrays
  exact ⟨before, after, hscan, hkind, (strays_of_scan hscan (by rw [hkind]; decide) hstrays).not_closed⟩

/-- The first arrow has no end here, though there is an `end` after it; what is wrong with the statement
before it does not matter. -/
theorem unclosed_of_openBlock_nested :
    (parseSource "value 1; fn(x) -> if (x) -> 1 end").problems =
        [.expected .ident ⟨.int, "1", 1, 7⟩] ++ .openBlock ⟨.openBlock, "->", 1, 16⟩ :: [] ∧
      ∃ before after, scan "value 1; fn(x) -> if (x) -> 1 end" =
        before ++ ⟨.openBlock, "->", 1, 16⟩ :: after ∧ Kind.openBlock = .openBlock ∧ ¬ Closed after :=
  have h : (parseSource "value 1; fn(x) -> if (x) -> 1 end").problems =
      [.expected .ident ⟨.int, "1", 1, 7⟩] ++ .openBlock ⟨.openBlock, "->", 1, 16⟩ :: [] := by decide +kernel
  ⟨h, unclosed_of_openBlock _ h (by decide)⟩

/-- In `fn() -> return end` the `end` is lost, and the arrow is reported although it has one. -/
theorem openBlock_of_lost_end :
    ¬ ∀ (source : String) (t : Token), .openBlock t ∈ (parseSource source).problems →
      ∃ before after, scan source = before ++ t :: after ∧ t.kind = .openBlock ∧ ¬ Closed after := by
  intro h
  have hreported : .openBlock ⟨.openBlock, "->", 1, 6⟩ ∈ (parseSource "fn() -> return end").problems := by
    decide +kernel
  have hscan : scan "fn() -> return end" =
      [⟨.fnWord, "fn", 1, 1⟩, ⟨.lparen, "(", 1, 3⟩, ⟨.rparen, ")", 1, 4⟩, ⟨.openBlock, "->", 1, 6⟩,
        ⟨.returnWord, "return", 1, 9⟩, ⟨.closeBlock, "end", 1, 16⟩, ⟨.eof, "", 1, 19⟩] := by decide +kernel
  obtain ⟨before, after, hsplit, -, hopen⟩ := h _ _ hreported
  rw [hscan] at hsplit
  have hafter :
      before = [⟨.fnWord, "fn", 1, 1⟩, ⟨.lparen, "(", 1, 3⟩, ⟨.rparen, ")", 1, 4⟩] ∧
        after = [⟨.returnWord, "return", 1, 9⟩, ⟨.closeBlock, "end", 1, 16⟩, ⟨.eof, "", 1, 19⟩] := by
    simpa [List.cons_eq_append_iff] using hsplit
  have hinner : Bracketed [⟨.returnWord, "return", 1, 9⟩] := .other (by decide) (by decide) .nil
  exact hopen ⟨_, ⟨.closeBlock, "end", 1, 16⟩, [⟨.eof, "", 1, 19⟩], hafter.2, hinner, rfl⟩

end SepiaLang
