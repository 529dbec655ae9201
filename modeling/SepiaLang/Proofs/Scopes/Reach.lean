import SepiaLang.Proofs.Discipline

/-!
# Scopes that an evaluation can reach

From a scope one gets to its parent and to the scopes that the functions in its bindings were made in.
An evaluation in a scope gets to no others, apart from new ones: it leaves all other scopes as they
were, and it does not hand out a way to them.

* `Value.Captures`: the scopes that a value leads to.
* `Store.Reach`: the scopes that scopes and values lead to. `Store.Reach.of_closed`: it is the least
  closed set of scopes.
* `Store.Framed`, `frame`: only scopes of a set have changed since, and the discipline of it.
* `Store.StaysAmong`: what comes of a computation that keeps to the scopes that it can reach.
* **`eval_frame`**: evaluations, calls and runs keep to the scopes that they can reach.
-/

namespace SepiaLang

/-! ## Reachable scopes -/

/-- A function in the value was made in the scope. -/
def Value.Captures (v : Value) (i : Nat) : Prop :=
  ∃ id params body, (Value.function id params body i).PartOf v

/-- The scopes that some scopes and values lead to: through functions in values, through parents, and
through what is bound in scopes. -/
inductive Store.Reach (s : Store) (scopes : List Nat) (values : List Value) : Nat → Prop
  | scope {i : Nat} (hi : i ∈ scopes) : Reach s scopes values i
  | value {v : Value} {i : Nat} (hv : v ∈ values) (h : v.Captures i) : Reach s scopes values i
  | parent {i p : Nat} {scope : Scope} (h : Reach s scopes values i) (hi : s.scopes[i]? = some scope)
      (hp : scope.parent = some p) : Reach s scopes values p
  | binding {i j : Nat} {scope : Scope} {b : String × Value} (h : Reach s scopes values i)
      (hi : s.scopes[i]? = some scope) (hb : b ∈ scope.bindings) (hj : b.2.Captures j) :
      Reach s scopes values j

/-- The scopes in the set lead to scopes in the set. -/
structure Store.Closed (s : Store) (P : Nat → Prop) : Prop where
  parent {i p : Nat} {scope : Scope} (h : P i) (hi : s.scopes[i]? = some scope)
    (hp : scope.parent = some p) : P p
  binding {i j : Nat} {scope : Scope} {b : String × Value} (h : P i) (hi : s.scopes[i]? = some scope)
    (hb : b ∈ scope.bindings) (hj : b.2.Captures j) : P j

namespace Store

variable {s s' : Store} {scopes : List Nat} {values : List Value} {P : Nat → Prop}

theorem closed_reach : s.Closed (s.Reach scopes values) := ⟨.parent, .binding⟩

/-- What can be reached is in every closed set that has the scopes and values to start from. -/
theorem Reach.of_closed (hP : s.Closed P) (hscopes : ∀ i ∈ scopes, P i)
    (hvalues : ∀ v ∈ values, ∀ i, v.Captures i → P i) {i : Nat} (h : s.Reach scopes values i) :
    P i := by
  induction h with
  | scope hi => exact hscopes _ hi
  | value hv h => exact hvalues _ hv _ h
  | parent _ hi hp ih => exact hP.parent ih hi hp
  | binding _ hi hb hj ih => exact hP.binding ih hi hb hj

/-- Only the scopes in the set matter. -/
theorem Closed.congr (hP : s.Closed P) (h : ∀ i, P i → s'.scopes[i]? = s.scopes[i]?) : s'.Closed P where
  parent hP' hi hp := hP.parent hP' ((h _ hP').symm.trans hi) hp
  binding hP' hi hb hj := hP.binding hP' ((h _ hP').symm.trans hi) hb hj

/-- From scopes that are the same one reaches the same scopes. -/
theorem reach_congr (h : ∀ i, s.Reach scopes values i → s'.scopes[i]? = s.scopes[i]?) (i : Nat) :
    s'.Reach scopes values i ↔ s.Reach scopes values i := by
  have hscope {i : Nat} (hi : i ∈ scopes) : s.Reach scopes values i := .scope hi
  have hvalue {v : Value} {i : Nat} (hv : v ∈ values) (hi : v.Captures i) : s.Reach scopes values i :=
    .value hv hi
  constructor
  · exact .of_closed (closed_reach.congr h) (fun _ => hscope) fun _ hv _ => hvalue hv
  · intro hi
    induction hi with
    | scope hi => exact .scope hi
    | value hv h => exact .value hv h
    | parent hreach hi hp ih => exact .parent ih ((h _ hreach).trans hi) hp
    | binding hreach hi hb hj ih => exact .binding ih ((h _ hreach).trans hi) hb hj

theorem Closed.set (hP : s.Closed P) {v : Value} (hv : ∀ j, v.Captures j → P j) (i : Nat) (x : String) :
    ({ s with scopes := s.scopes.set i x v } : Store).Closed P where
  parent h hj hp := by
    rcases Scopes.cases_set hj with hj | ⟨old, hold, rfl⟩
    · exact hP.parent h hj hp
    · exact hP.parent h hold hp
  binding h hj hb hk := by
    rcases Scopes.cases_set hj with hj | ⟨old, hold, rfl⟩
    · exact hP.binding h hj hb hk
    · rcases Assoc.eq_or_mem_of_mem_put hb with rfl | hb
      · exact hv _ hk
      · exact hP.binding h hold hb hk

theorem Closed.addScope (hP : s.Closed P) {i : Nat} (hi : P i) : (s.addScope (some i)).2.Closed P where
  parent h hj hp := by
    rcases Scopes.cases_add hj with hj | ⟨-, rfl⟩
    · exact hP.parent h hj hp
    · cases hp
      exact hi
  binding h hj hb hk := by
    rcases Scopes.cases_add hj with hj | ⟨-, rfl⟩
    · exact hP.binding h hj hb hk
    · exact absurd hb List.not_mem_nil

end Store

/-! ## Frames -/

/-- Since the store `s₀`, scopes that were there have changed only if they are in the set, and no way
leads out of the set and the new scopes. -/
structure Store.Framed (s₀ : Store) (R : Nat → Prop) (s : Store) : Prop where
  size_le : s₀.scopes.size ≤ s.scopes.size
  same {i : Nat} (hi : i < s₀.scopes.size) (hR : ¬ R i) : s.scopes[i]? = s₀.scopes[i]?
  closed : s.Closed fun i => R i ∨ s₀.scopes.size ≤ i

namespace Store.Framed

variable {s₀ s s' : Store} {R : Nat → Prop}

theorem of_scopes (h : s₀.Framed R s) (hs : s'.scopes = s.scopes) : s₀.Framed R s' where
  size_le := hs ▸ h.size_le
  same hi hR := hs ▸ h.same hi hR
  closed := h.closed.congr fun _ _ => by rw [hs]

/-- At first nothing has changed. -/
theorem start (scopes : List Nat) (values : List Value) : s.Framed (s.Reach scopes values) s where
  size_le := Nat.le_refl _
  same _ _ := rfl
  closed := by
    have hlt {i : Nat} {scope : Scope} (hi : s.scopes[i]? = some scope) : ¬ s.scopes.size ≤ i :=
      Nat.not_le_of_lt (Array.getElem?_eq_some_iff.1 hi).1
    refine ⟨fun h hi hp => ?_, fun h hi hb hj => ?_⟩
    · exact Or.inl (closed_reach.parent (h.resolve_right (hlt hi)) hi hp)
    · exact Or.inl (closed_reach.binding (h.resolve_right (hlt hi)) hi hb hj)

theorem set (h : s₀.Framed R s) {i : Nat} (hi : R i ∨ s₀.scopes.size ≤ i) {v : Value}
    (hv : ∀ j, v.Captures j → R j ∨ s₀.scopes.size ≤ j) (x : String) :
    s₀.Framed R { s with scopes := s.scopes.set i x v } where
  size_le := by
    change s₀.scopes.size ≤ (s.scopes.set i x v).size
    rw [Scopes.size_set]
    exact h.size_le
  same {j} hj hR := by
    have hne : i ≠ j := by
      rintro rfl
      exact hi.elim hR (Nat.not_le_of_lt hj)
    change (s.scopes.set i x v)[j]? = _
    rw [Scopes.getElem?_set, if_neg hne]
    exact h.same hj hR
  closed := h.closed.set hv i x

theorem addScope (h : s₀.Framed R s) {i : Nat} (hi : R i ∨ s₀.scopes.size ≤ i) :
    s₀.Framed R (s.addScope (some i)).2 where
  size_le := by
    have := h.size_le
    change s₀.scopes.size ≤ (s.scopes.add (some i)).size
    rw [Scopes.size_add]
    omega
  same {j} hj hR := by
    have hne : j ≠ s.scopes.size := Nat.ne_of_lt (Nat.lt_of_lt_of_le hj h.size_le)
    change (s.scopes.add (some i))[j]? = _
    rw [Scopes.getElem?_add, if_neg hne]
    exact h.same hj hR
  closed := h.closed.addScope hi

/-- What is reached now, from scopes in the set and from values that lead to it, is in the set or
new. -/
theorem reach (h : s₀.Framed R s) {scopes : List Nat} {values : List Value} (hscopes : ∀ i ∈ scopes, R i)
    (hvalues : ∀ v ∈ values, ∀ i, v.Captures i → R i ∨ s₀.scopes.size ≤ i) {j : Nat}
    (hj : s.Reach scopes values j) : R j ∨ s₀.scopes.size ≤ j :=
  hj.of_closed h.closed (fun i hi => Or.inl (hscopes i hi)) hvalues

end Store.Framed

/-- Evaluations work in scopes of the set and in new ones. -/
def frame (s₀ : Store) (R : Nat → Prop) : Discipline where
  Ok s := s₀.Framed R s
  Leads _ _ := True
  Open _ i := R i ∨ s₀.scopes.size ≤ i
  Word _ := True
  Closure _ _ i := R i ∨ s₀.scopes.size ≤ i
  Tree _ _ := True
  Binds _ _ := True
  refl _ := trivial
  trans _ _ := trivial
  open_mono _ hi := hi
  closure_mono _ hi := hi
  of_scopes hs h := ⟨hs.of_scopes h, trivial⟩
  get? hs hi h := by
    obtain ⟨j, scope, hj, hscope, hb⟩ := Scopes.get?_eq_some h
    -- the search goes from parent to parent, so the holder is in the set or new
    have hj := Scopes.holder?_closed (fun _ _ _ h hi hp => hs.closed.parent h hi hp) hi hj
    exact ⟨fun _ _ => trivial, fun _ _ _ k hk => hs.closed.binding hj hscope hb ⟨_, _, _, hk⟩⟩
  set hs hi _ hv := ⟨hs.set hi (fun j ⟨_, _, _, hj⟩ => hv.2 _ _ _ j hj) _, trivial⟩
  update? {s i x v scopes} hs hi hv h := by
    obtain ⟨j, hj, rfl⟩ := Option.map_eq_some_iff.1 h
    have hj := Scopes.holder?_closed (fun _ _ _ h hi hp => hs.closed.parent h hi hp) hi hj
    exact ⟨hs.set hj (fun k ⟨_, _, _, hk⟩ => hv.2 _ _ _ k hk) x, trivial⟩
  enter hs hi := ⟨⟨hs.addScope hi, trivial⟩, Or.inr hs.size_le, trivial, fun _ => trivial⟩
  function _ hi _ := hi
  part _ _ := trivial
  valueStmt _ := trivial
  integer _ := trivial
  wrap _ := trivial

theorem respects_frame {natives : Registry} (hn : natives = standard ∨ natives.Confined) (s₀ : Store)
    (R : Nat → Prop) : natives.Respects (frame s₀ R) fun _ => True :=
  (confined_of_standard_or hn).respects fun _ _ _ _ => trivial

theorem frame_has_iff {s₀ s : Store} {R : Nat → Prop} {v : Value} :
    (frame s₀ R).Has v s ↔ ∀ i, v.Captures i → R i ∨ s₀.scopes.size ≤ i :=
  ⟨fun h i ⟨id, params, body, hi⟩ => h.2 id params body i hi,
    fun h => ⟨fun _ _ => trivial, fun id params body i hi => h i ⟨id, params, body, hi⟩⟩⟩

/-- A computation from the store `s` has left the scopes as they were that the given scopes and values
did not lead to; and now these, with the value that it ended with, lead to no scopes that they did not
lead to before, apart from new ones. -/
def Store.StaysAmong (s : Store) (scopes : List Nat) (values : List Value)
    (r : Except Stop Value × Store) : Prop :=
  (∀ i, i < s.scopes.size → ¬ s.Reach scopes values i → r.2.scopes[i]? = s.scopes[i]?) ∧
  ∀ j, r.2.Reach scopes (values ++ (carried? r.1).toList) j →
    s.Reach scopes values j ∨ s.scopes.size ≤ j

theorem staysAmong_of_respects {s : Store} {scopes : List Nat} {values : List Value} {m : Run Value}
    (h : (frame s (s.Reach scopes values)).Respects
      (frame s (s.Reach scopes values)).Has m s) :
    s.StaysAmong scopes values (m s) := by
  obtain ⟨⟨hframed, -⟩, hcarried⟩ := h.carried (.start scopes values)
  refine ⟨fun i hi hR => hframed.same hi hR, fun j hj => ?_⟩
  refine hframed.reach (fun i hi => .scope hi) (fun v hv i hi => ?_) hj
  rcases List.mem_append.1 hv with hv | hv
  · exact Or.inl (.value hv hi)
  · exact frame_has_iff.1 (hcarried v (Option.mem_toList.1 hv)) i hi

/-- **Evaluations keep to the scopes that they can reach**, whether they have a value, return or go
wrong: the evaluation of a tree in a scope to those that this scope leads to, the call of a function to
those that the function and the arguments lead to. So the run of a program in one scope does not disturb
others that lead nowhere where that scope leads: all that they lead to stays as it is, and they lead to
nothing else. -/
theorem eval_frame (cfg : Config) (hn : cfg.natives = standard ∨ cfg.natives.Confined) (depth : Nat)
    (s : Store) :
    (∀ tree env, s.StaysAmong [env] [] (eval cfg depth tree env s)) ∧
    (∀ f args, s.StaysAmong [] (f :: args) (applyFunction cfg (eval cfg depth) f args s)) ∧
    ∀ program env others, (∀ i, s.Reach others [] i → i < s.scopes.size ∧ ¬ s.Reach [env] [] i) →
      let s' := (runWithin cfg depth program env s).2
      ∀ i, (s.Reach others [] i → s'.scopes[i]? = s.scopes[i]?) ∧
        (s'.Reach others [] i ↔ s.Reach others [] i) := by
  have hev (R : Nat → Prop) := eval_respects (respects_frame hn s R) depth
  have henv (env : Nat) : s.Reach [env] [] env := .scope List.mem_cons_self
  refine ⟨fun tree env => ?_, fun f args => ?_, fun program env others hothers => ?_⟩
  · apply staysAmong_of_respects
    exact .mono (hev _ tree env s (Or.inl (henv env)) trivial) fun _ _ => And.left
  · have hhas : ∀ v ∈ f :: args, (frame s (s.Reach [] (f :: args))).Has v s := fun v hv =>
      frame_has_iff.2 fun i hi => Or.inl (.value hv hi)
    apply staysAmong_of_respects
    exact respects_applyFunction (hev _) (respects_frame hn s _) (hhas f List.mem_cons_self)
      fun v hv => ⟨hhas v (List.mem_cons_of_mem _ hv), trivial⟩
  · intro s'
    have hrun : s.StaysAmong [env] [] (runWithin cfg depth program env s) := by
      apply staysAmong_of_respects
      apply respects_runWithin
      exact .mono (hev _ program env _ (Or.inl (henv env)) trivial) fun _ _ => And.left
    have hsame : ∀ i, s.Reach others [] i → s'.scopes[i]? = s.scopes[i]? := fun i hi =>
      hrun.1 i (hothers i hi).1 (hothers i hi).2
    exact fun i => ⟨hsame i, Store.reach_congr hsame i⟩

/-- Two scopes without a parent that bind the same name. A program in the first one makes a function
that binds it anew, and calls it; the second scope stays as it is. -/
theorem eval_frame_roots :
    let y (n : Int) : Scope := { bindings := [("y", .integer n)] }
    let s : Store := { Store.start false with scopes := #[y 1, y 2] }
    let body : Node Unit := .block () [.updateStmt () ⟨"y", ()⟩ (.integer () 3)]
    let program : Node Unit := .program [.call () (.function () [] body) []]
    let s' := (runWithin {} 5 program 0 s).2
    (∀ i, s.Reach [1] [] i → i < s.scopes.size ∧ ¬ s.Reach [0] [] i) ∧
      s.StaysAmong [0] [] (eval {} 5 program 0 s) ∧
      s'.scopes[0]?.map (·.bindings) = some [("y", .integer 3)] ∧
      s'.scopes[1]?.map (·.bindings) = some [("y", .integer 2)] := by
  intro y s body program s'
  have hclosed (k : Nat) : s.Closed (· = k) := by
    have hatomic (n : Int) (j : Nat) : ¬ (Value.integer n).Captures j := fun ⟨_, _, _, h⟩ => nomatch h
    constructor
    · rintro i p scope - hi hp
      match i, hi with
      | 0, hi | 1, hi => cases hi; cases hp
    · rintro i j scope b - hi hb hj
      match i, hi with
      | 0, hi | 1, hi =>
        cases hi
        rw [List.mem_singleton.1 hb] at hj
        exact absurd hj (hatomic _ _)
  have honly {k i : Nat} (h : s.Reach [k] [] i) : i = k :=
    h.of_closed (hclosed k) (fun _ => List.mem_singleton.1) fun _ hv => absurd hv List.not_mem_nil
  have hothers : ∀ i, s.Reach [1] [] i → i < s.scopes.size ∧ ¬ s.Reach [0] [] i := by
    intro i hi
    obtain rfl := honly hi
    exact ⟨by decide, fun h => nomatch honly h⟩
  obtain ⟨heval, -, hrun⟩ := eval_frame {} (Or.inl rfl) 5 s
  have hsame : s'.scopes[1]? = s.scopes[1]? := (hrun program 0 [1] hothers 1).1 (.scope (by decide))
  refine ⟨hothers, heval program 0, by with_unfolding_all rfl, ?_⟩
  rw [hsame]
  rfl

end SepiaLang
