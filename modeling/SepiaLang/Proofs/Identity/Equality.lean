import SepiaLang.Proofs.Identity.Passing
import SepiaLang.Session

/-!
# Equality by identity

Two values other than integers are equal for a program if they are one and the same. This makes sense at
every moment: between the runs of programs, and while one runs, with the values that the evaluations
under way have at hand.

* `Holding`, `Task.Visits`: the evaluations on the way of another one, with the values at hand.
* `Session`, `Step`: what is done with an interpreter. `Moment`: the moments of its life.
* `Moment.coherent`: identities are coherent at every one of them.
* `Value.Equal`, `Store.EqualitySound`: what the operator `==` finds, and what is expected of it.
* **`identities_coherent`**: identities and equality at every moment.
-/

namespace SepiaLang

open SepiaLang.Computation

/-! ## Values at hand -/

section Holding

variable {cfg : Config} {ev : Evaluator} {scope : Nat}

/-- The evaluation of a node in a scope, from a store, starts the evaluation of another one, and holds
values meanwhile: those of the parts before, of the condition, or of the function and its arguments. -/
inductive Holding (cfg : Config) (ev : Evaluator) :
    Node Unit → Nat → Store → List Value → Node Unit → Nat → Store → Prop
  | part {n m : Node Unit} {before after : List (Node Unit)} {scope : Nat} {vs : List Value} {s s' : Store}
      (hn : n.parts = before ++ m :: after) (h : operands ev scope before s = (.ok vs, s')) :
      Holding cfg ev n scope s vs m scope s'
  | branch {c t e : Node Unit} {scope : Nat} {v : Value} {s s₁ s₂ : Store}
      (hc : operand ev c scope s = (.ok v, s₁)) (h : note cfg 3 (.tested v) s₁ = (.ok (), s₂)) :
      Holding cfg ev (.conditional () c t e) scope s [v] (if v.truthy then t else e) scope s₂
  | body {f body : Node Unit} {args : List (Node Unit)} {scope id outer inner : Nat}
      {params : List String} {values : List Value} {s s₁ s₂ s₃ : Store}
      (hf : operand ev f scope s = (.ok (.function id params body outer), s₁))
      (hargs : operands ev scope args s₁ = (.ok values, s₂))
      (h : enterCall cfg (.function id params body outer) params outer values s₂ = (.ok inner, s₃)) :
      Holding cfg ev (.call () f args) scope s (values ++ [.function id params body outer]) body inner s₃

theorem operand_of_ok {n : Node Unit} {v : Value} {s s' : Store} (h : ev n scope s = (.ok v, s'))
    (hv : ∀ w, v ≠ .returned w) : operand ev n scope s = (.ok v, s') := by
  rw [operand, bind_of_ok h]
  cases v with
  | returned w => exact absurd rfl (hv w)
  | _ => rfl

/-- Parts that pass have values for use. -/
theorem passes_iff {ns : List (Node Unit)} {s s' : Store} :
    Passes ev scope ns s s' ↔ ∃ vs, operands ev scope ns s = (.ok vs, s') := by
  constructor
  · intro h
    induction h with
    | nil s => exact ⟨[], rfl⟩
    | cons hn hv _ ih =>
      obtain ⟨vs, hvs⟩ := ih
      exact ⟨_ :: vs, operands_cons_ok.2 ⟨_, vs, _, rfl, operand_of_ok hn hv, hvs⟩⟩
  · rintro ⟨vs, h⟩
    induction ns generalizing s vs with
    | nil =>
      cases h
      exact .nil _
    | cons n ns ih =>
      obtain ⟨v, ws, s₁, rfl, hv, hws⟩ := operands_cons_ok.1 h
      exact .cons_operand hv (ih ws hws)

/-- These are the evaluations that the node starts. -/
theorem starts_iff_holding {n m : Node Unit} {scope' : Nat} {s s' : Store} :
    Starts cfg ev n scope s m scope' s' ↔ ∃ vs, Holding cfg ev n scope s vs m scope' s' := by
  constructor
  · intro h
    cases h with
    | part hn h =>
      obtain ⟨vs, hvs⟩ := passes_iff.1 h
      exact ⟨vs, .part hn hvs⟩
    | branch hc h => exact ⟨_, .branch hc h⟩
    | body hf hargs h => exact ⟨_, .body hf hargs h⟩
  · rintro ⟨vs, h⟩
    cases h with
    | part hn h => exact .part hn (passes_iff.2 ⟨vs, h⟩)
    | branch hc h => exact .branch hc h
    | body hf hargs h => exact .body hf hargs h

end Holding

/-- The second evaluation is made on the way of the first one, while the values are at hand. -/
inductive Task.Visits (cfg : Config) : Task → List Value → Task → Prop
  | refl (t : Task) : Visits cfg t [] t
  | step {depth : Nat} {n m : Node Unit} {scope scope' : Nat} {s s' : Store} {vs held : List Value} {t : Task}
      (h : Holding cfg (eval cfg depth) n scope s vs m scope' s')
      (ht : Visits cfg ⟨depth, m, scope', s'⟩ held t) : Visits cfg ⟨depth + 1, n, scope, s⟩ (held ++ vs) t

/-- All evaluations on the way are visited. -/
theorem Task.reaches_iff_visits {cfg : Config} {t t' : Task} :
    t.Reaches cfg t' ↔ ∃ held, t.Visits cfg held t' := by
  constructor
  · intro h
    induction h with
    | refl t => exact ⟨[], .refl t⟩
    | step h _ ih =>
      obtain ⟨held, hheld⟩ := ih
      obtain ⟨vs, hvs⟩ := starts_iff_holding.1 h
      exact ⟨held ++ vs, .step hvs hheld⟩
  · rintro ⟨held, h⟩
    induction h with
    | refl t => exact .refl t
    | step h _ ih => exact .step (starts_iff_holding.2 ⟨_, h⟩) ih

section Coherent

variable {cfg : Config}

theorem coheres_enterCall (cfg : Config) (f : Value) (params : List String) (outer : Nat)
    {used args : List Value} (h : args ⊆ used) :
    Coheres used (fun _ => []) (enterCall cfg f params outer args) := by
  refine .bind (coheres_newScope _) fun inner => ?_
  refine .bind (coheres_bindParams inner params args h) fun _ => ?_
  exact .bind (coheres_note cfg 3 _) fun _ => .pure nofun

/-- An evaluation is started from a coherent store if the one that starts it is. -/
theorem Holding.coherent {ev : Evaluator} (hev : ev.Coheres) {n m : Node Unit} {scope scope' : Nat}
    {s s' : Store} {held vs : List Value} (h : Holding cfg ev n scope s held m scope' s')
    (hs : s.Coherent vs) : s.Precedes s' ∧ s'.Coherent (held ++ vs) := by
  have hnil {vs : List Value} : [] ⊆ vs := List.nil_subset vs
  cases h with
  | part _ h => exact (coheres_operands hev scope _).of_ok hnil hs h
  | branch hc hnote =>
    obtain ⟨h1, hs₁⟩ := (coheres_operand hev scope _).of_ok hnil hs hc
    obtain ⟨h2, hs₂⟩ := (coheres_note cfg 3 _).of_ok hnil hs₁ hnote
    exact ⟨h1.trans h2, hs₂⟩
  | body hf hargs henter =>
    obtain ⟨h1, hs₁⟩ := (coheres_operand hev scope _).of_ok hnil hs hf
    obtain ⟨h2, hs₂⟩ := (coheres_operands hev scope _).of_ok hnil hs₁ hargs
    obtain ⟨h3, hs₃⟩ := (coheres_enterCall cfg _ _ _ (List.subset_append_left _ _)).of_ok
      (List.Subset.refl _) hs₂ henter
    refine ⟨(h1.trans h2).trans h3, ?_⟩
    rw [List.append_assoc]
    exact hs₃

/-- **Every evaluation on the way is made from a coherent store.** -/
theorem Task.Visits.coherent (hn : cfg.natives.Coheres) {t t' : Task} {held vs : List Value}
    (h : t.Visits cfg held t') (hs : t.store.Coherent vs) :
    t.store.Precedes t'.store ∧ t'.store.Coherent (held ++ vs) := by
  induction h generalizing vs with
  | refl => exact ⟨.refl _, hs⟩
  | step hholding _ ih =>
    obtain ⟨h1, hs₁⟩ := hholding.coherent (eval_coheres hn _) hs
    obtain ⟨h2, hs₂⟩ := ih hs₁
    rw [List.append_assoc]
    exact ⟨h1.trans h2, hs₂⟩

end Coherent

/-! ## Sessions -/

/-- Something that is done with an interpreter: a program is run in a scope, a scope without a parent
is made, a program is read, the output is taken, or the log is closed. -/
inductive Step where
  | run (limit : Nat) (body : List (Node Unit)) (scope : Nat)
  | newRoot
  | read (source : String)
  | takeOutput
  | closeLog

/-- The store of an interpreter, and the results of the programs that it has run. -/
structure Session where
  store : Store
  results : List Value := []

/-- What a step leads to. -/
def Session.after (cfg : Config) (session : Session) : Step → Session
  | .run limit body scope =>
    let r := runWithin cfg limit (.program body) scope session.store
    ⟨r.2, atHand (fun v => [v]) r.1 ++ session.results⟩
  | .newRoot => ⟨(session.store.addScope none).2, session.results⟩
  | .read source => ⟨(readSource cfg source session.store).2, session.results⟩
  | .takeOutput => ⟨session.store.takeOutput.2, session.results⟩
  | .closeLog => ⟨session.store.closeLog, session.results⟩

/-- What steps lead to, from a new interpreter. -/
def Config.reached (cfg : Config) (steps : List Step) : Session :=
  steps.foldl (Session.after cfg) ⟨cfg.start, []⟩

theorem coheres_readSource (cfg : Config) (source : String) :
    Coheres [] (fun _ => []) (readSource cfg source) := by
  refine .bind (Coheres.forM (fun line => coheres_note cfg 4 _) _) fun _ => ?_
  exact .bind (coheres_note cfg 1 _) fun _ => .pure nofun

/-- A step keeps a session coherent. -/
theorem Session.after_coherent {cfg : Config} (hn : cfg.natives.Coheres) {session : Session}
    (h : session.store.Coherent session.results) (step : Step) :
    session.store.Precedes (session.after cfg step).store ∧
      (session.after cfg step).store.Coherent (session.after cfg step).results := by
  cases step with
  | run limit body scope => exact runWithin_coheres hn limit body scope _ _ (List.nil_subset _) h
  | newRoot => exact coheres_newScope none _ _ (List.nil_subset _) h
  | read source =>
    obtain ⟨h1, h2⟩ := coheres_readSource cfg source _ _ (List.nil_subset _) h
    exact ⟨h1, h2.subset (List.subset_append_right _ _)⟩
  | takeOutput | closeLog => exact ⟨⟨Nat.le_refl _, Nat.le_refl _⟩, h.of_scopes rfl rfl⟩

theorem Session.foldl_coherent {cfg : Config} (hn : cfg.natives.Coheres) (steps : List Step) :
    ∀ {session : Session}, session.store.Coherent session.results →
      session.store.Precedes (steps.foldl (Session.after cfg) session).store ∧
        (steps.foldl (Session.after cfg) session).store.Coherent
          (steps.foldl (Session.after cfg) session).results := by
  induction steps with
  | nil => exact fun h => ⟨.refl _, h⟩
  | cons step steps ih =>
    intro session h
    obtain ⟨h1, h2⟩ := Session.after_coherent hn h step
    obtain ⟨h3, h4⟩ := ih h2
    exact ⟨h1.trans h3, h4⟩

/-- **Identities are coherent between the runs.** -/
theorem Config.reached_coherent {cfg : Config} (hn : cfg.natives.Coheres) (steps : List Step) :
    (cfg.reached steps).store.Coherent (cfg.reached steps).results :=
  (Session.foldl_coherent hn steps (.start _)).2

/-- Time goes on: what steps lead to comes before what more steps lead to. -/
theorem Config.reached_precedes {cfg : Config} (hn : cfg.natives.Coheres) (steps more : List Step) :
    (cfg.reached steps).store.Precedes (cfg.reached (steps ++ more)).store := by
  unfold Config.reached
  rw [List.foldl_append]
  exact (Session.foldl_coherent hn more (cfg.reached_coherent hn steps)).1

/-! ## Moments -/

/-- The evaluation of a program that is run after the steps. -/
def Config.running (cfg : Config) (steps : List Step) (limit : Nat) (body : List (Node Unit))
    (scope : Nat) : Task :=
  ⟨limit, .program body, scope, (note cfg 1 .running (cfg.reached steps).store).2⟩

/-- **The moments of the life of an interpreter**, with the store and the values at hand: between the
runs of programs, and during a run before and after each evaluation that is made on its way. The
results of earlier runs are kept at hand. -/
inductive Moment (cfg : Config) : Store → List Value → Prop
  | between (steps : List Step) : Moment cfg (cfg.reached steps).store (cfg.reached steps).results
  | before {steps : List Step} {limit scope : Nat} {body : List (Node Unit)} {held : List Value} {t : Task}
      (h : (cfg.running steps limit body scope).Visits cfg held t) :
      Moment cfg t.store (held ++ (cfg.reached steps).results)
  | after {steps : List Step} {limit scope : Nat} {body : List (Node Unit)} {held : List Value} {t : Task}
      (h : (cfg.running steps limit body scope).Visits cfg held t) :
      Moment cfg (t.result cfg).2
        (atHand (fun v => [settle v]) (t.result cfg).1 ++ (held ++ (cfg.reached steps).results))

section Moment

variable {cfg : Config} (hn : cfg.natives.Coheres)
include hn

theorem Config.running_coherent (steps : List Step) (limit : Nat) (body : List (Node Unit)) (scope : Nat) :
    (cfg.reached steps).store.Precedes (cfg.running steps limit body scope).store ∧
      (cfg.running steps limit body scope).store.Coherent (cfg.reached steps).results :=
  (coheres_note cfg 1 .running).of_ok (List.nil_subset _) (cfg.reached_coherent hn steps)
    (note_running cfg _)

/-- **Identities are coherent at every moment.** -/
theorem Moment.coherent {s : Store} {vs : List Value} (h : Moment cfg s vs) : s.Coherent vs := by
  cases h with
  | between steps => exact cfg.reached_coherent hn steps
  | before h => exact (h.coherent hn (cfg.running_coherent hn _ _ _ _).2).2
  | after h =>
    obtain ⟨-, ht⟩ := h.coherent hn (cfg.running_coherent hn _ _ _ _).2
    exact (eval_coheres hn _ _ _ _ _ (List.nil_subset _) ht).2

end Moment

/-! ## Equality -/

/-- The operator `==` finds the values equal, in whatever store. -/
def Value.Equal (l r : Value) : Prop :=
  ∀ s, applyBinary "==" l r s = (.ok (.boolean true), s)

/-- What is expected of the operators `==` and `!=` while a store and values are at hand. They never
fail, and one is the negation of the other; integers are compared by value, and all else by identity;
and equal values look the same. -/
structure Store.EqualitySound (s : Store) (vs : List Value) : Prop where
  total {l r : Value} (hl : s.Live vs l) (hr : s.Live vs r) :
    ∃ b, ∀ s', applyBinary "==" l r s' = (.ok (.boolean b), s') ∧
      applyBinary "!=" l r s' = (.ok (.boolean (!b)), s')
  equivalence : Equivalence fun l r : { v : Value // s.Live vs v } => l.1.Equal r.1
  integers (a b : Int) : (Value.integer a).Equal (.integer b) ↔ a = b
  others {l r : Value} (h : l.type ≠ .integer ∨ r.type ≠ .integer) : l.Equal r ↔ l.identical r = true
  alike {l r : Value} (hl : s.Live vs l) (hr : s.Live vs r) (h : l.Equal r) :
    l = r ∧ l.type = r.type ∧ l.inspect = r.inspect ∧ l.shown? = r.shown?

namespace Value

/-- What the operator `==` finds. -/
def equals : Value → Value → Bool
  | integer a, integer b => a == b
  | l, r => l.identical r

theorem equals_of_ne {l r : Value} (h : l.type ≠ .integer ∨ r.type ≠ .integer) :
    l.equals r = l.identical r := by
  cases l with
  | integer a =>
    cases r with
    | integer b => exact h.elim (absurd rfl) (absurd rfl)
    | _ => rfl
  | _ => rfl

theorem applyBinary_eq (l r : Value) : applyBinary "==" l r = pure (.boolean (l.equals r)) := by
  cases l with
  | integer a => cases r <;> rfl
  | _ => rfl

theorem applyBinary_ne (l r : Value) : applyBinary "!=" l r = pure (.boolean (!l.equals r)) := by
  cases l with
  | integer a => cases r <;> rfl
  | _ => rfl

theorem equal_iff {l r : Value} : l.Equal r ↔ l.equals r = true := by
  unfold Equal
  rw [applyBinary_eq]
  constructor
  · intro h
    have h := h {}
    injection h with h
    injection h with h
    injection h
  · intro h s
    rw [h]
    rfl

theorem equals_self {v : Value} (h : v.type ≠ .returned) : v.equals v = true := by
  cases v with
  | returned => exact absurd rfl h
  | null => rfl
  | _ => exact beq_self_eq_true _

/-- Values that are found equal have the same content or the same identity. -/
theorem cases_of_equals {l r : Value} (h : l.equals r = true) :
    l = r ∨ ∃ k, l.id? = some k ∧ r.id? = some k := by
  have identity {i j : Nat} (h : (i == j) = true) : ∃ k, some i = some k ∧ some j = some k :=
    ⟨j, congrArg some (eq_of_beq h), rfl⟩
  unfold equals at h
  split at h
  · exact Or.inl (congrArg integer (eq_of_beq h))
  · unfold identical at h
    split at h
    · exact Or.inl (congrArg boolean (eq_of_beq h))
    · exact Or.inl rfl
    · exact Or.inr (identity h)
    · exact Or.inr (identity h)
    · exact Or.inr (identity h)
    · exact Or.inr (identity h)
    · exact Or.inl (congrArg native (eq_of_beq h))
    · exact Or.inr (identity h)
    · cases h

end Value

/-- **In a coherent store the operator `==` finds the same values equal**, and no others. -/
theorem Store.Coherent.equal_iff {s : Store} {vs : List Value} (h : s.Coherent vs) {l r : Value}
    (hl : s.Live vs l) (hr : s.Live vs r) : l.Equal r ↔ l = r := by
  rw [Value.equal_iff]
  constructor
  · intro heq
    rcases Value.cases_of_equals heq with heq | ⟨k, hk, hk'⟩
    · exact heq
    · exact h.unique hl hr hk hk'
  · rintro rfl
    exact Value.equals_self (h.type_ne hl)

theorem Store.Coherent.equalitySound {s : Store} {vs : List Value} (h : s.Coherent vs) :
    s.EqualitySound vs where
  total {l r} _ _ := by
    refine ⟨l.equals r, fun s' => ?_⟩
    rw [Value.applyBinary_eq, Value.applyBinary_ne]
    exact ⟨rfl, rfl⟩
  equivalence := by
    have hiff (l r : { v : Value // s.Live vs v }) : l.1.Equal r.1 ↔ l.1 = r.1 := h.equal_iff l.2 r.2
    constructor
    · exact fun l => (hiff l l).2 rfl
    · exact fun {l r} hlr => (hiff r l).2 ((hiff l r).1 hlr).symm
    · exact fun {l r u} hlr hru => (hiff l u).2 (((hiff l r).1 hlr).trans ((hiff r u).1 hru))
  integers a b := by
    rw [Value.equal_iff]
    exact beq_iff_eq
  others hne := by rw [Value.equal_iff, Value.equals_of_ne hne]
  alike hl hr heq := by
    obtain rfl := (h.equal_iff hl hr).1 heq
    exact ⟨rfl, rfl, rfl, rfl⟩

/-- Comparing two parts of a tree. -/
theorem layer_compare {cfg : Config} {ev : Evaluator} {i : Nat} {s s₁ s₂ : Store} {l r : Node Unit}
    {left right : Value} (hright : operand ev r i s = (.ok right, s₁))
    (hleft : operand ev l i s₁ = (.ok left, s₂)) :
    layer cfg ev (.binary () "==" l r) i s = (.ok (.boolean (left.equals right)), s₂) ∧
      layer cfg ev (.binary () "!=" l r) i s = (.ok (.boolean (!left.equals right)), s₂) := by
  have hstep {text : String} {b : Bool} (happly : applyBinary text left right = pure (.boolean b))
      (htext : ¬ Assigns text) : layer cfg ev (.binary () text l r) i s = (.ok (.boolean b), s₂) := by
    have hv : applyBinary text left right s₂ = (.ok (.boolean b), s₂) := by rw [happly]; rfl
    change binary cfg ev i text l r s = _
    rw [binary, bind_of_ok hright, bind_of_ok hleft, bind_of_ok hv]
    dsimp only
    rw [if_neg (show ¬ ((BinaryOp.ofText? text).map (·.assigns)).getD false = true from htext)]
    rfl
  exact ⟨hstep (Value.applyBinary_eq _ _) nofun, hstep (Value.applyBinary_ne _ _) nofun⟩

/-- **Identities are coherent, and so is equality.** Consider any moment in the life of an interpreter.

* Identities of live values have been given out, live values with the same identity are the same value,
  and `==` and `!=` are sound for them.
* Identities are given out in order, as time goes on. Whatever is evaluated at the moment: where it makes
  its value, that value has an identity that was not given out before; where it does not, it passes on
  the very values that it has.
* Where both sides of a comparison have values, the comparison has one, which says whether the two are
  the same. -/
theorem identities_coherent (level : Nat) :
    let cfg : Config := { logLevel := level }
    (∀ s vs, Moment cfg s vs → s.Coherent vs ∧ s.EqualitySound vs) ∧
    (∀ steps more, (cfg.reached steps).store.nextId ≤ (cfg.reached (steps ++ more)).store.nextId) ∧
    (∀ steps limit body scope held t, (cfg.running steps limit body scope).Visits cfg held t →
      (cfg.reached steps).store.nextId ≤ t.store.nextId ∧ t.store.nextId ≤ (t.result cfg).2.nextId) ∧
    ∀ s vs, Moment cfg s vs → ∀ depth i,
      (∀ n v s', eval cfg (depth + 1) n i s = (.ok v, s') →
        (Makes (eval cfg depth) i s n v → v.MadeBetween s s' ∧ ∀ w, s.Live vs w → w.id? ≠ v.id?) ∧
        PassesOn cfg (eval cfg depth) i s n v s') ∧
      ∀ l r left right s₁ s₂, operand (eval cfg depth) r i s = (.ok right, s₁) →
        operand (eval cfg depth) l i s₁ = (.ok left, s₂) →
        ∃ b, eval cfg (depth + 1) (.binary () "==" l r) i s = (.ok (.boolean b), s₂) ∧
          eval cfg (depth + 1) (.binary () "!=" l r) i s = (.ok (.boolean (!b)), s₂) ∧
          (b = true ↔ left = right) ∧
          (b = true → left.type = right.type ∧ left.inspect = right.inspect) := by
  intro cfg
  have hn : cfg.natives.Coheres := standard_coheres
  refine ⟨fun s vs h => ⟨h.coherent hn, (h.coherent hn).equalitySound⟩,
    fun steps more => (cfg.reached_precedes hn steps more).nextId_le,
    fun steps limit body scope held t ht => ?_,
    fun s vs h depth i => ⟨fun n v s' hv => ⟨fun hmakes => ?_, ?_⟩,
      fun l r left right s₁ s₂ hright hleft => ?_⟩⟩
  · obtain ⟨h1, hs⟩ := cfg.running_coherent hn steps limit body scope
    obtain ⟨h2, ht'⟩ := ht.coherent hn hs
    have h3 := (eval_coheres hn t.depth t.tree t.scope t.store _ (List.nil_subset _) ht').1
    exact ⟨(h1.trans h2).nextId_le, h3.nextId_le⟩
  · have hmade := makes_new rfl (eval_coheres hn depth) (h.coherent hn) hmakes hv
    refine ⟨hmade, fun w hw hid => ?_⟩
    obtain ⟨k, hk, hle, -⟩ := hmade
    have hlt := (h.coherent hn).id_lt hw (hid.trans hk)
    omega
  · have hleads := (eval_coheres hn (depth + 1) n i).of_ok (List.nil_subset _) (h.coherent hn) hv
    exact layer_passesOn rfl hv hleads.1
  · have hev := eval_coheres hn depth
    obtain ⟨-, hs₁⟩ := (coheres_operand hev i r).of_ok (List.nil_subset _) (h.coherent hn) hright
    obtain ⟨-, hs₂⟩ := (coheres_operand hev i l).of_ok (List.nil_subset _) hs₁ hleft
    have hiff : left.equals right = true ↔ left = right := by
      rw [← Value.equal_iff]
      exact hs₂.equal_iff (.of_mem (by simp) (.self _)) (.of_mem (by simp) (.self _))
    refine ⟨left.equals right, (layer_compare hright hleft).1, (layer_compare hright hleft).2, hiff,
      fun hb => ?_⟩
    obtain rfl := hiff.1 hb
    exact ⟨rfl, rfl⟩

/-- Two strings with the same text are different ones, and a name stands for one and the same. -/
example :
    let a : Node Unit := .string () "a"
    let x : Node Unit := .identifier () "x"
    let result (body : List (Node Unit)) := (runWithin {} 9 (.program body) 0 (Store.start false)).1
    result [.binary () "==" a a] = .ok (.boolean false) ∧
      result [.valueStmt () ⟨"x", ()⟩ a, .binary () "==" x x] = .ok (.boolean true) := by
  with_unfolding_all exact ⟨rfl, rfl⟩

end SepiaLang
