/-!
# Computations with a state that may stop

Reading a program and running one are computations of the same sort: they change a state, and they
give a result or stop early, where the state survives either way.

* `bind_apply`, `tryCatch_apply`: what a computation does to one state.
* `Keeps`: the computation keeps an invariant of the state, and its results and stops are as they
  should be (`Keeps.bind`, `Keeps.tryCatch`).
* `EqOn`: two computations do the same to all states with the invariant (`EqOn.bind`).
* `Relates`: two computations keep a relation of their states, and their results and stops are related
  (`Relates.bind`, `Relates.tryCatch`).
-/

namespace SepiaLang

/-- A computation on states `σ` that gives a result or stops with a cause in `ε`. -/
abbrev Computation (ε σ α : Type) := ExceptT ε (StateM σ) α

namespace Computation

variable {ε σ α β : Type}

/-! ## One state -/

theorem bind_apply (m : Computation ε σ α) (f : α → Computation ε σ β) (s : σ) :
    (m >>= f) s = match m s with
      | (.ok a, s') => f a s'
      | (.error e, s') => (.error e, s') := by
  change (match m s with | (x, s') => ExceptT.bindCont f x s') = _
  rcases m s with ⟨e | a, s'⟩ <;> rfl

theorem bind_of_ok {m : Computation ε σ α} {s s' : σ} {a : α} (h : m s = (.ok a, s'))
    (f : α → Computation ε σ β) : (m >>= f) s = f a s' := by
  rw [bind_apply, h]

theorem bind_of_error {m : Computation ε σ α} {s s' : σ} {e : ε} (h : m s = (.error e, s'))
    (f : α → Computation ε σ β) : (m >>= f) s = (.error e, s') := by
  rw [bind_apply, h]

/-- A sequence with a result has gone through all its steps. -/
theorem exists_of_bind_ok {m : Computation ε σ α} {f : α → Computation ε σ β} {s s' : σ} {b : β}
    (h : (m >>= f) s = (.ok b, s')) : ∃ a s₁, m s = (.ok a, s₁) ∧ f a s₁ = (.ok b, s') := by
  rw [bind_apply] at h
  rcases hx : m s with ⟨e | a, s₁⟩ <;> rw [hx] at h
  · cases h
  · exact ⟨a, s₁, rfl, h⟩

/-- Two sequences that do the same step by step do the same. -/
theorem bind_congr_at {m m' : Computation ε σ α} {f f' : α → Computation ε σ β} {s : σ}
    (h : m s = m' s) (hf : ∀ a s', m s = (.ok a, s') → f a s' = f' a s') :
    (m >>= f) s = (m' >>= f') s := by
  rw [bind_apply, bind_apply, ← h]
  rcases hx : m s with ⟨e | a, s'⟩
  · rfl
  · exact hf a s' hx

theorem tryCatch_apply (m : Computation ε σ α) (h : ε → Computation ε σ α) (s : σ) :
    (tryCatch m h) s = match m s with
      | (.ok a, s') => (.ok a, s')
      | (.error e, s') => h e s' := by
  change (match m s with
    | (x, s') => (match x with
      | .ok a => (pure (Except.ok a) : StateM σ (Except ε α))
      | .error e => h e) s') = _
  rcases m s with ⟨e | a, s'⟩ <;> rfl

/-! ## Invariants -/

/-- From a state with the invariant `I` the computation leads to a state with the invariant, whether
it gives a result, which then satisfies `V`, or stops, with a cause that satisfies `E`. -/
def Keeps (I : σ → Prop) (E : ε → Prop) (V : α → Prop) (m : Computation ε σ α) : Prop :=
  ∀ s, I s → I (m s).2 ∧ match (m s).1 with
    | .ok a => V a
    | .error e => E e

section Keeps

variable {I : σ → Prop} {E : ε → Prop} {V : α → Prop} {W : β → Prop}
  {m : Computation ε σ α} {f : α → Computation ε σ β}

theorem Keeps.pure {a : α} (h : V a) : Keeps I E V (Pure.pure a) := fun _ hs => ⟨hs, h⟩

theorem Keeps.throw {e : ε} (h : E e) : Keeps I E V (throw e) := fun _ hs => ⟨hs, h⟩

theorem Keeps.get : Keeps I E I (MonadState.get : Computation ε σ σ) := fun _ hs => ⟨hs, hs⟩

theorem Keeps.set {s' : σ} (h : I s') :
    Keeps I E (fun _ => True) (MonadState.set s' : Computation ε σ PUnit) := fun _ _ => ⟨h, trivial⟩

theorem Keeps.modify {g : σ → σ} (h : ∀ s, I s → I (g s)) :
    Keeps I E (fun _ => True) (modify g : Computation ε σ PUnit) :=
  fun s hs => ⟨h s hs, trivial⟩

theorem Keeps.mono {V' : α → Prop} (hm : Keeps I E V m) (h : ∀ a, V a → V' a) : Keeps I E V' m := by
  intro s hs
  obtain ⟨h1, h2⟩ := hm s hs
  refine ⟨h1, ?_⟩
  cases hx : (m s).1 with
  | ok a => rw [hx] at h2; exact h a h2
  | error e => rw [hx] at h2; exact h2

/-- **One computation after the other.** -/
theorem Keeps.bind (hm : Keeps I E V m) (hf : ∀ a, V a → Keeps I E W (f a)) :
    Keeps I E W (m >>= f) := by
  intro s hs
  obtain ⟨h1, h2⟩ := hm s hs
  rw [bind_apply]
  rcases hx : m s with ⟨e | a, s'⟩
  · rw [hx] at h1 h2
    exact ⟨h1, h2⟩
  · rw [hx] at h1 h2
    exact hf a h2 s' h1

theorem Keeps.forM {g : α → Computation ε σ PUnit} (hg : ∀ a, Keeps I E (fun _ => True) (g a)) :
    ∀ l : List α, Keeps I E (fun _ => True) (l.forM g)
  | [] => Keeps.pure trivial
  | a :: l => Keeps.bind (hg a) fun _ _ => Keeps.forM hg l

/-- **A computation whose stops are taken care of.** -/
theorem Keeps.tryCatch {E' : ε → Prop} {h : ε → Computation ε σ α} (hm : Keeps I E V m)
    (hh : ∀ e, E e → Keeps I E' V (h e)) : Keeps I E' V (tryCatch m h) := by
  intro s hs
  obtain ⟨h1, h2⟩ := hm s hs
  rw [tryCatch_apply]
  rcases hx : m s with ⟨e | a, s'⟩
  · rw [hx] at h1 h2
    exact hh e h2 s' h1
  · rw [hx] at h1 h2
    exact ⟨h1, h2⟩

theorem Keeps.of_ok {s s' : σ} {a : α} (hm : Keeps I E V m) (hs : I s) (h : m s = (.ok a, s')) :
    I s' ∧ V a := by
  have := hm s hs
  rwa [h] at this

theorem Keeps.of_error {s s' : σ} {e : ε} (hm : Keeps I E V m) (hs : I s)
    (h : m s = (.error e, s')) : I s' ∧ E e := by
  have := hm s hs
  rwa [h] at this

end Keeps

/-! ## Equality on an invariant -/

/-- The two computations do the same to every state with the invariant `I`. -/
def EqOn (I : σ → Prop) (m m' : Computation ε σ α) : Prop := ∀ s, I s → m s = m' s

section EqOn

variable {I : σ → Prop} {E : ε → Prop} {V : α → Prop} {m m' : Computation ε σ α}

theorem EqOn.refl (m : Computation ε σ α) : EqOn I m m := fun _ _ => rfl

theorem EqOn.trans {m'' : Computation ε σ α} (h : EqOn I m m') (h' : EqOn I m' m'') :
    EqOn I m m'' := fun s hs => (h s hs).trans (h' s hs)

/-- **One computation after the other**, where the first one keeps the invariant. -/
theorem EqOn.bind {f f' : α → Computation ε σ β} (h : EqOn I m m') (hm : Keeps I E V m)
    (hf : ∀ a, V a → EqOn I (f a) (f' a)) : EqOn I (m >>= f) (m' >>= f') := by
  intro s hs
  obtain ⟨h1, h2⟩ := hm s hs
  rw [bind_apply, bind_apply, ← h s hs]
  rcases hx : m s with ⟨e | a, s'⟩
  · rfl
  · rw [hx] at h1 h2
    exact hf a h2 s' h1

end EqOn

/-! ## Two computations -/

section Relates

variable {ε' τ α' β' : Type}

/-- Both are results, which `R` relates, or both are stops, with causes that `E` relates. -/
inductive Outcomes (E : ε → ε' → Prop) (R : α → α' → Prop) : Except ε α → Except ε' α' → Prop
  | ok {a : α} {a' : α'} (h : R a a') : Outcomes E R (.ok a) (.ok a')
  | error {e : ε} {e' : ε'} (h : E e e') : Outcomes E R (.error e) (.error e')

/-- From states that `S` relates the two computations lead to such states, and what comes of them is
related as well. -/
def Relates (S : σ → τ → Prop) (E : ε → ε' → Prop) (R : α → α' → Prop) (m : Computation ε σ α)
    (m' : Computation ε' τ α') : Prop :=
  ∀ s t, S s t → S (m s).2 (m' t).2 ∧ Outcomes E R (m s).1 (m' t).1

variable {S : σ → τ → Prop} {E : ε → ε' → Prop} {R : α → α' → Prop} {R' : β → β' → Prop}
  {m : Computation ε σ α} {m' : Computation ε' τ α'}

namespace Relates

theorem pure {a : α} {a' : α'} (h : R a a') : Relates S E R (Pure.pure a) (Pure.pure a') :=
  fun _ _ hs => ⟨hs, .ok h⟩

theorem throw {e : ε} {e' : ε'} (h : E e e') : Relates S E R (throw e) (throw e') :=
  fun _ _ hs => ⟨hs, .error h⟩

theorem get : Relates S E S (MonadState.get : Computation ε σ σ) (MonadState.get : Computation ε' τ τ) :=
  fun _ _ hs => ⟨hs, .ok hs⟩

theorem modify {g : σ → σ} {g' : τ → τ} (h : ∀ s t, S s t → S (g s) (g' t)) :
    Relates S E (fun _ _ => True) (modify g : Computation ε σ PUnit)
      (modify g' : Computation ε' τ PUnit) :=
  fun s t hs => ⟨h s t hs, .ok trivial⟩

/-- **One computation after the other.** -/
theorem bind {f : α → Computation ε σ β} {f' : α' → Computation ε' τ β'} (hm : Relates S E R m m')
    (hf : ∀ a a', R a a' → Relates S E R' (f a) (f' a')) : Relates S E R' (m >>= f) (m' >>= f') := by
  intro s t hs
  obtain ⟨h1, h2⟩ := hm s t hs
  rw [bind_apply, bind_apply]
  rcases hx : m s with ⟨e | a, s'⟩ <;> rcases hx' : m' t with ⟨e' | a', t'⟩ <;> rw [hx, hx'] at h1 h2 <;>
    cases h2
  · next he => exact ⟨h1, .error he⟩
  · next ha => exact hf a a' ha s' t' h1

/-- **Computations whose stops are taken care of.** -/
theorem tryCatch {h : ε → Computation ε σ α} {h' : ε' → Computation ε' τ α'} (hm : Relates S E R m m')
    (hh : ∀ e e', E e e' → Relates S E R (h e) (h' e')) :
    Relates S E R (tryCatch m h) (tryCatch m' h') := by
  intro s t hs
  obtain ⟨h1, h2⟩ := hm s t hs
  rw [tryCatch_apply, tryCatch_apply]
  rcases hx : m s with ⟨e | a, s'⟩ <;> rcases hx' : m' t with ⟨e' | a', t'⟩ <;> rw [hx, hx'] at h1 h2 <;>
    cases h2
  · next he => exact hh e e' he s' t' h1
  · next ha => exact ⟨h1, .ok ha⟩

end Relates

end Relates

end Computation

end SepiaLang
