import SepiaLang.Proofs.Sparing

/-!
# The moments of a run

While a tree is evaluated, its parts are, and their parts in turn, each from the store that was left
before. A property of every moment of a run is one of every evaluation that is reached in this way.

* `Starts`: the evaluations that a node starts. `layer_congr_of_starts`: there are no others, since
  the value of a node depends on them alone.
* `Task`, `Task.Reaches`: an evaluation about to be made, and those that are made on its way.
* `Starts.free`, `Task.Reaches.free`: no store that is reached holds values of inner types.
* **`hidden_types_stay_hidden`**: values on their way out and errors are never data of a program.
-/

namespace SepiaLang

open SepiaLang.Computation

/-! ## The evaluations that a node starts -/

/-- The parts that a node evaluates in its own scope, in this order, as long as none stops or
returns. -/
def Node.parts {α : Type} : Node α → List (Node α)
  | program body | block _ body => body
  | expressionStmt _ e | valueStmt _ _ e | updateStmt _ _ e | returnStmt _ e | unary _ _ e => [e]
  | binary _ _ l r => [r, l]
  | conditional _ c _ _ => [c]
  | call _ f args => f :: args
  | array _ es => es
  | index _ l i => [l, i]
  | map _ ps => ps.flatMap fun p => [p.1, p.2]
  | absent | integer .. | boolean .. | string .. | identifier .. | function .. => []

/-- Evaluating the nodes one after the other, none of which stops or returns, leads from the first
store to the second one. -/
inductive Passes (ev : Evaluator) (scope : Nat) : List (Node Unit) → Store → Store → Prop
  | nil (s : Store) : Passes ev scope [] s s
  | cons {n : Node Unit} {ns : List (Node Unit)} {v : Value} {s s₁ s₂ : Store}
      (h : ev n scope s = (.ok v, s₁)) (hv : ∀ w, v ≠ .returned w) (hns : Passes ev scope ns s₁ s₂) :
      Passes ev scope (n :: ns) s s₂

/-- The scope in which the body of a function runs, with its parameters bound. -/
def enterCall (cfg : Config) (f : Value) (params : List String) (outer : Nat) (args : List Value) :
    Run Nat := do
  let inner ← newScope (some outer)
  bindParams inner params args
  note cfg 3 (.called f args)
  return inner

/-- The evaluation of a node in a scope, from a store, starts the evaluation of another one: of a part
after those before it, of a branch after the condition, or of the body of a function after the
arguments. -/
inductive Starts (cfg : Config) (ev : Evaluator) :
    Node Unit → Nat → Store → Node Unit → Nat → Store → Prop
  | part {n m : Node Unit} {before after : List (Node Unit)} {scope : Nat} {s s' : Store}
      (hn : n.parts = before ++ m :: after) (h : Passes ev scope before s s') :
      Starts cfg ev n scope s m scope s'
  | branch {c t e : Node Unit} {scope : Nat} {v : Value} {s s₁ s₂ : Store}
      (hc : operand ev c scope s = (.ok v, s₁)) (h : note cfg 3 (.tested v) s₁ = (.ok (), s₂)) :
      Starts cfg ev (.conditional () c t e) scope s (if v.truthy then t else e) scope s₂
  | body {f body : Node Unit} {args : List (Node Unit)} {scope id outer inner : Nat}
      {params : List String} {values : List Value} {s s₁ s₂ s₃ : Store}
      (hf : operand ev f scope s = (.ok (.function id params body outer), s₁))
      (hargs : operands ev scope args s₁ = (.ok values, s₂))
      (h : enterCall cfg (.function id params body outer) params outer values s₂ = (.ok inner, s₃)) :
      Starts cfg ev (.call () f args) scope s body inner s₃

/-! ## They are all that matters -/

section Congr

variable {ev ev' : Evaluator} {scope : Nat}

/-- A part that has a value for use passes. -/
theorem Passes.cons_operand {n : Node Unit} {ns : List (Node Unit)} {v : Value} {s s₁ s₂ : Store}
    (h : operand ev n scope s = (.ok v, s₁)) (hns : Passes ev scope ns s₁ s₂) :
    Passes ev scope (n :: ns) s s₂ := by
  rw [operand, bind_apply] at h
  rcases hr : ev n scope s with ⟨stop | w, s'⟩ <;> rw [hr] at h
  · cases h
  · cases w with
    | returned w => cases h
    | _ =>
      cases h
      exact Passes.cons hr (fun _ => nofun) hns

/-- The two evaluators agree on the nodes, each after those before it. -/
def Agree (ev ev' : Evaluator) (scope : Nat) (ns : List (Node Unit)) (s : Store) : Prop :=
  ∀ before m after s', ns = before ++ m :: after → Passes ev scope before s s' →
    ev m scope s' = ev' m scope s'

theorem Agree.head {n : Node Unit} {ns : List (Node Unit)} {s : Store}
    (h : Agree ev ev' scope (n :: ns) s) : ev n scope s = ev' n scope s :=
  h [] n ns s rfl (.nil s)

theorem Agree.tail {n : Node Unit} {ns : List (Node Unit)} {v : Value} {s s₁ : Store}
    (h : Agree ev ev' scope (n :: ns) s) (hn : ev n scope s = (.ok v, s₁))
    (hv : ∀ w, v ≠ .returned w) : Agree ev ev' scope ns s₁ := by
  rintro before m after s' rfl hpass
  exact h (n :: before) m after s' rfl (.cons hn hv hpass)

theorem Agree.operand {n : Node Unit} {ns : List (Node Unit)} {s : Store}
    (h : Agree ev ev' scope (n :: ns) s) : operand ev n scope s = operand ev' n scope s :=
  bind_congr_at h.head fun _ _ _ => rfl

theorem Agree.after {n : Node Unit} {ns : List (Node Unit)} {v : Value} {s s₁ : Store}
    (h : Agree ev ev' scope (n :: ns) s) (hv : SepiaLang.operand ev n scope s = (.ok v, s₁)) :
    Agree ev ev' scope ns s₁ := by
  rintro before m after s' rfl hpass
  exact h (n :: before) m after s' rfl (.cons_operand hv hpass)

/-- A part for use, and what comes after it. -/
theorem Agree.bind {α : Type} {n : Node Unit} {ns : List (Node Unit)} {s : Store}
    {f f' : Value → Run α} (h : Agree ev ev' scope (n :: ns) s)
    (hf : ∀ v s', SepiaLang.operand ev n scope s = (.ok v, s') → Agree ev ev' scope ns s' →
      f v s' = f' v s') :
    (SepiaLang.operand ev n scope >>= f) s = (SepiaLang.operand ev' n scope >>= f') s :=
  bind_congr_at h.operand fun v s' hv => hf v s' hv (h.after hv)

theorem operands_congr : ∀ {ns : List (Node Unit)} {s : Store}, Agree ev ev' scope ns s →
    operands ev scope ns s = operands ev' scope ns s
  | [], _, _ => rfl
  | _ :: _, _, h => h.bind fun _ _ _ h' => bind_congr_at (operands_congr h') fun _ _ _ => rfl

theorem mapEntries_congr : ∀ {pairs : List (Node Unit × Node Unit)} {entries : List (Entry Value)}
    {s : Store}, Agree ev ev' scope (pairs.flatMap fun p => [p.1, p.2]) s →
      mapEntries ev scope entries pairs s = mapEntries ev' scope entries pairs s
  | [], _, _, _ => rfl
  | (k, v) :: pairs, entries, s, h => by
    have h : Agree ev ev' scope (k :: v :: pairs.flatMap fun p => [p.1, p.2]) s := h
    refine h.bind fun key s₁ _ h₁ => ?_
    dsimp only
    split
    · rfl
    · refine h₁.bind fun value s₂ _ h₂ => ?_
      cases hkey : key.key? with
      | none => simp only [keyOf, hkey]; rfl
      | some i => simp only [keyOf, hkey]; exact mapEntries_congr h₂

theorem blockBody_congr : ∀ {ns : List (Node Unit)} {result : Value} {s : Store},
    Agree ev ev' scope ns s → blockBody ev scope result ns s = blockBody ev' scope result ns s
  | [], _, _, _ => rfl
  | n :: ns, _, s, h => by
    refine bind_congr_at h.head fun v s' hv => ?_
    split
    · rfl
    · next hne => exact blockBody_congr (h.tail hv hne)

theorem catchReturn_congr {n : Node Unit} {s : Store} (h : ev n scope s = ev' n scope s) :
    catchReturn (ev n scope) s = catchReturn (ev' n scope) s := by
  rw [catchReturn, catchReturn, tryCatch_apply, tryCatch_apply, h]

theorem programBody_congr : ∀ {ns : List (Node Unit)} {result : Value} {s : Store},
    Agree ev ev' scope ns s → programBody ev scope result ns s = programBody ev' scope result ns s
  | [], _, _, _ => rfl
  | n :: ns, _, s, h => by
    refine bind_congr_at (catchReturn_congr h.head) fun v s' hv => ?_
    split
    · rfl
    · next hne =>
      refine programBody_congr (h.tail (v := v) ?_ hne)
      rw [catchReturn, tryCatch_apply] at hv
      rcases hr : ev n scope s with ⟨stop | w, s₁⟩ <;> rw [hr] at hv
      · cases stop <;> cases hv
        exact absurd rfl (hne _)
      · exact hv

theorem applyFunction_congr {cfg : Config} {f : Value} {args : List Value} {s : Store}
    (h : ∀ id params body outer inner s', f = .function id params body outer →
      enterCall cfg f params outer args s = (.ok inner, s') → ev body inner s' = ev' body inner s') :
    applyFunction cfg ev f args s = applyFunction cfg ev' f args s := by
  cases f with
  | function id params body outer =>
    unfold applyFunction
    dsimp only
    split
    · rfl
    · refine bind_congr_at rfl fun inner s₁ h₁ => bind_congr_at rfl fun _ s₂ h₂ =>
        bind_congr_at rfl fun _ s₃ h₃ => bind_congr_at ?_ fun _ _ _ => rfl
      refine catchReturn_congr (h id params body outer inner s₃ rfl ?_)
      rw [enterCall, bind_of_ok h₁, bind_of_ok h₂, bind_of_ok h₃]
      rfl
  | native | integer | boolean | null | string | array | map | returned | error => rfl

/-- **The value of a node depends on the evaluations that it starts, and on no others.** -/
theorem layer_congr_of_starts {cfg : Config} {n : Node Unit} {s : Store}
    (h : ∀ m scope' s', Starts cfg ev n scope s m scope' s' → ev m scope' s' = ev' m scope' s') :
    layer cfg ev n scope s = layer cfg ev' n scope s := by
  have hparts : Agree ev ev' scope n.parts s :=
    fun before m after s' hn hpass => h m scope s' (.part hn hpass)
  cases n with
  | absent | integer | boolean | string | identifier | function => rfl
  | program body => exact programBody_congr hparts
  | block _ body => exact blockBody_congr hparts
  | expressionStmt _ e => exact hparts.head
  | valueStmt | updateStmt | returnStmt | unary => exact hparts.bind fun _ _ _ _ => rfl
  | binary | index => exact hparts.bind fun _ _ _ h₁ => h₁.bind fun _ _ _ _ => rfl
  | conditional _ c t e =>
    refine hparts.bind fun v s₁ hc _ => bind_congr_at rfl fun _ s₂ hnote => ?_
    have hbranch := h _ scope s₂ (.branch hc hnote)
    split
    · next htrue => rwa [if_pos htrue] at hbranch
    · next hfalse =>
      rw [if_neg hfalse] at hbranch
      split
      · rfl
      · exact hbranch
  | call _ f args =>
    refine hparts.bind fun callee s₁ hf h₁ => ?_
    refine bind_congr_at (operands_congr h₁) fun values s₂ hargs => ?_
    refine applyFunction_congr fun id params body outer inner s₃ hcallee henter => ?_
    subst hcallee
    exact h body inner s₃ (.body hf hargs henter)
  | array _ es => exact bind_congr_at (operands_congr hparts) fun _ _ _ => rfl
  | map _ ps => exact bind_congr_at (mapEntries_congr hparts) fun _ _ _ => rfl

end Congr

/-! ## Evaluations on the way -/

/-- An evaluation about to be made: of a tree, in a scope, from a store, with at most `depth`
evaluations nested in each other. -/
structure Task where
  depth : Nat
  tree : Node Unit
  scope : Nat
  store : Store

namespace Task

/-- What comes of the evaluation, and the store that it leaves. -/
def result (cfg : Config) (t : Task) : Except Stop Value × Store :=
  eval cfg t.depth t.tree t.scope t.store

/-- The value that a node gets which uses the evaluation: an operand, an argument, a condition, a
key, the value to be bound. -/
def used? (cfg : Config) (t : Task) : Option Value :=
  (operand (eval cfg t.depth) t.tree t.scope t.store).1.toOption

/-- The second evaluation is made on the way of the first one. -/
inductive Reaches (cfg : Config) : Task → Task → Prop
  | refl (t : Task) : Reaches cfg t t
  | step {depth : Nat} {n m : Node Unit} {scope scope' : Nat} {s s' : Store} {t : Task}
      (h : Starts cfg (eval cfg depth) n scope s m scope' s')
      (ht : Reaches cfg ⟨depth, m, scope', s'⟩ t) : Reaches cfg ⟨depth + 1, n, scope, s⟩ t

end Task

variable {bad : ValueType → Prop}

theorem Passes.free {ev : Evaluator} (hev : ev.Spares bad) {scope : Nat} {ns : List (Node Unit)}
    {s s' : Store} (h : Passes ev scope ns s s') (hs : s.Free bad) : s'.Free bad := by
  induction h with
  | nil => exact hs
  | cons hn _ _ ih => exact ih ((hev _ scope).of_ok hs hn).1

theorem spares_enterCall (cfg : Config) (f : Value) (params : List String) (outer : Nat)
    {args : List Value} (h : ∀ v ∈ args, v.Free bad) :
    Spares bad (fun _ => True) (enterCall cfg f params outer args) := by
  refine Keeps.bind (spares_newScope _) fun inner _ => ?_
  refine Keeps.bind (spares_bindParams inner params args h) fun _ _ => ?_
  exact Keeps.bind (spares_note cfg 3 _) fun _ _ => Keeps.pure trivial

/-- An evaluation is started from a free store if the one that starts it is. -/
theorem Starts.free {cfg : Config} {ev : Evaluator} (hev : ev.Spares bad) {n m : Node Unit}
    {scope scope' : Nat} {s s' : Store} (h : Starts cfg ev n scope s m scope' s')
    (hs : s.Free bad) : s'.Free bad := by
  cases h with
  | part _ hpass => exact hpass.free hev hs
  | branch hc hnote =>
    have h₁ := (spares_operand hev scope _).of_ok hs hc
    exact ((spares_note cfg 3 _).of_ok h₁.1 hnote).1
  | body hf hargs henter =>
    have h₁ := (spares_operand hev scope _).of_ok hs hf
    have h₂ := (spares_operands hev scope _).of_ok h₁.1 hargs
    exact ((spares_enterCall cfg _ _ _ h₂.2).of_ok h₂.1 henter).1

/-- **Every evaluation on the way is made from a free store.** -/
theorem Task.Reaches.free {cfg : Config} (hb : Inner bad) (hn : cfg.natives.Spares bad) {t t' : Task}
    (h : t.Reaches cfg t') (hs : t.store.Free bad) : t'.store.Free bad := by
  induction h with
  | refl => exact hs
  | step hstarts _ ih => exact ih (hstarts.free (eval_spares hb hn _) hs)

/-! ## How a run ends -/

theorem note_stops (cfg : Config) (level : Nat) (entry : LogEntry) :
    Keeps (fun _ => True) (· = .tooDeep) (fun _ => True) (note cfg level entry) := by
  unfold note
  split
  · split
    · exact Keeps.modify fun _ _ => trivial
    · exact Keeps.throw rfl
  · exact Keeps.pure trivial

theorem note_running (cfg : Config) (s : Store) :
    note cfg 1 .running s = (.ok (), (note cfg 1 .running s).2) := by
  unfold note
  split <;> rfl

/-- A program takes every value that is on its way out. -/
theorem programBody_stops (ev : Evaluator) (scope : Nat) : ∀ (ns : List (Node Unit)) (result : Value),
    Keeps (fun _ => True) (fun e => ∀ v, e ≠ .returning v) (fun _ => True)
      (programBody ev scope result ns)
  | [], _ => Keeps.pure trivial
  | n :: ns, _ => by
    have hany : Keeps (fun _ => True) (fun _ => True) (fun _ => True) (ev n scope) := by
      intro s _
      refine ⟨trivial, ?_⟩
      split <;> trivial
    refine Keeps.bind (V := fun _ => True) (Keeps.tryCatch hany fun e _ => ?_) fun v _ => ?_
    · split
      · exact Keeps.pure trivial
      · next h => exact Keeps.throw h
    · split
      · exact Keeps.pure trivial
      · exact programBody_stops ev scope ns _

theorem eval_program_stops (cfg : Config) (limit : Nat) (body : List (Node Unit)) (scope : Nat) :
    Keeps (fun _ => True) (fun e => ∀ v, e ≠ .returning v) (fun _ => True)
      (eval cfg limit (.program body) scope) := by
  cases limit with
  | zero => exact Keeps.throw fun _ => nofun
  | succ depth => exact programBody_stops _ scope body .null

/-- The evaluation was stopped by something wrong with the program. -/
def IsError : Except Stop Value → Prop
  | .error .tooDeep | .error (.failed _) => True
  | _ => False

/-- An error of an evaluation that does not return becomes its value. -/
theorem catchError_cases {m : Run Value} {s : Store} (hm : ∀ v, (m s).1 ≠ .error (.returning v)) :
    (∃ v, (catchError m s).1 = .ok v ∧
      ((m s).1 = .ok v ∨ IsError (m s).1 ∧ ∃ id message, v = .error id message)) ∨
    ∃ f, (catchError m s).1 = .error (.fault f) := by
  rw [catchError, tryCatch_apply]
  rcases hr : m s with ⟨stop | v, s'⟩ <;> rw [hr] at hm
  · cases stop with
    | returning v => exact absurd rfl (hm v)
    | failed e => exact Or.inl ⟨_, rfl, Or.inr ⟨trivial, _, _, rfl⟩⟩
    | tooDeep => exact Or.inl ⟨_, rfl, Or.inr ⟨trivial, _, _, rfl⟩⟩
    | fault f => exact Or.inr ⟨f, rfl⟩
  · exact Or.inl ⟨v, rfl, Or.inl rfl⟩

/-- What is left to do after the evaluation does not change its result. -/
theorem finish_cases (cfg : Config) (v : Value) (s : Store) :
    ((do note cfg 1 (.finished v); return v : Run Value) s).1 = .ok v ∨
      ((do note cfg 1 (.finished v); return v : Run Value) s).1 = .error .tooDeep := by
  have hnote := (note_stops cfg 1 (.finished v) s trivial).2
  rw [bind_apply]
  rcases hx : note cfg 1 (.finished v) s with ⟨stop | _, s'⟩ <;> rw [hx] at hnote
  · exact Or.inr (congrArg _ hnote)
  · exact Or.inl rfl

/-- **How a run ends.** It neither fails nor returns. Its result is that of the evaluation, or an
error if the evaluation was stopped by one. -/
theorem runWithin_cases (cfg : Config) (limit : Nat) (body : List (Node Unit)) (scope : Nat)
    (s : Store) :
    let r := (eval cfg limit (.program body) scope (note cfg 1 .running s).2).1
    let final := (runWithin cfg limit (.program body) scope s).1
    (∃ v, final = .ok v ∧ (r = .ok v ∨ IsError r ∧ ∃ id message, v = .error id message)) ∨
      final = .error .tooDeep ∨ ∃ f, final = .error (.fault f) := by
  intro r final
  have hstops : ∀ v, r ≠ .error (.returning v) := fun v hv =>
    ((eval_program_stops cfg limit body scope).of_error trivial (Prod.ext hv rfl)).2 v rfl
  have hrun : final = ((catchError (eval cfg limit (.program body) scope) >>= fun v => do
      note cfg 1 (.finished v); return v : Run Value) (note cfg 1 .running s).2).1 :=
    congrArg Prod.fst (bind_of_ok (note_running cfg s) _)
  rw [hrun]
  rcases catchError_cases hstops with ⟨v, hv, hcase⟩ | ⟨f, hf⟩
  · rw [bind_of_ok (Prod.ext hv rfl)]
    rcases finish_cases cfg v (catchError (eval cfg limit (.program body) scope)
      (note cfg 1 .running s).2).2 with h | h
    · exact Or.inl ⟨v, h, hcase⟩
    · exact Or.inr (Or.inl h)
  · rw [bind_of_error (Prod.ext hf rfl)]
    exact Or.inr (Or.inr ⟨f, rfl⟩)

/-! ## Hidden types -/

/-- The types of values that no program sees while it runs. -/
def hidden (t : ValueType) : Prop := t = .returned ∨ t = .error

/-- **Values on their way out and errors are never data.** Let a program run in a store that holds
none, with the native functions of the language or others that give none back, an error as a whole
result apart. Then no store that is reached holds one, nor one that is left, whatever stopped the
evaluation; no operand, argument, condition or key is one or has one in it; the run neither fails
nor returns; and its result has none in it, unless it is the error that stopped the evaluation. -/
theorem hidden_types_stay_hidden (cfg : Config)
    (hn : cfg.natives = standard ∨ cfg.natives.Spares hidden) (limit : Nat)
    (body : List (Node Unit)) (scope : Nat) (s : Store)
    (hs : ∀ v : Value, s.Holds v → ¬ hidden v.type) :
    let start : Task := ⟨limit, .program body, scope, (note cfg 1 .running s).2⟩
    let final := runWithin cfg limit (.program body) scope s
    (∀ t : Task, start.Reaches cfg t →
      (∀ v : Value, t.store.Holds v → ¬ hidden v.type) ∧
      (∀ v : Value, (t.result cfg).2.Holds v → ¬ hidden v.type) ∧
      ∀ v w : Value, t.used? cfg = some v → w.PartOf v → ¬ hidden w.type) ∧
    (∀ v : Value, final.2.Holds v → ¬ hidden v.type) ∧
    (∀ e, final.1 ≠ .error (.failed e)) ∧ (∀ v, final.1 ≠ .error (.returning v)) ∧
    ∀ v w : Value, final.1 = .ok v → w.PartOf v →
      w.type ≠ .returned ∧ (w.type = .error → IsError (start.result cfg).1) := by
  intro start final
  have hb : Inner hidden := inner_returned_error
  have hn : cfg.natives.Spares hidden := hn.elim (fun h => h ▸ standard_spares hb) id
  have hstart : start.store.Free hidden := ((spares_note cfg 1 .running) s hs).1
  have hends := runWithin_cases cfg limit body scope s
  refine ⟨fun t ht => ?_, (runWithin_spares hb hn limit body scope s hs).1, fun e he => ?_,
    fun v hv => ?_, fun v w hv hw => ?_⟩
  · have hstore := ht.free hb hn hstart
    refine ⟨hstore, (eval_spares hb hn t.depth t.tree t.scope t.store hstore).1, fun v w hv => ?_⟩
    have huse := (spares_operand (eval_spares hb hn t.depth) t.scope t.tree t.store hstore).2
    unfold Task.used? at hv
    rcases hr : (operand (eval cfg t.depth) t.tree t.scope t.store).1 with stop | v'
    · rw [hr] at hv
      cases hv
    · rw [hr] at hv huse
      cases hv
      exact huse w
  · rcases hends with ⟨v, h, -⟩ | h | ⟨f, h⟩ <;> cases he.symm.trans h
  · rcases hends with ⟨v, h, -⟩ | h | ⟨f, h⟩ <;> cases hv.symm.trans h
  · rcases hends with ⟨v', h, hcase⟩ | h | ⟨f, h⟩ <;> cases hv.symm.trans h
    rcases hcase with hr | ⟨herror, id, message, rfl⟩
    · have hfree := (eval_program_spares hb hn limit body scope start.store hstart).2
      rw [hr] at hfree
      exact ⟨fun h => hfree w hw (Or.inl h), fun h => absurd (Or.inr h) (hfree w hw)⟩
    · cases hw
      exact ⟨nofun, fun _ => herror⟩

/-- A program that goes wrong after it has bound a name. The operand that it goes wrong with is
reached from the store with the binding. -/
theorem hidden_types_stay_hidden_failure :
    let binding : Node Unit := .valueStmt () ⟨"x", ()⟩ (.integer () 7)
    let body := [binding, .unary () "-" (.boolean () true)]
    let s := Store.start false
    let t : Task := ⟨3, .boolean () true, 0, (eval {} 4 binding 0 s).2⟩
    (∀ v : Value, s.Holds v → ¬ hidden v.type) ∧
      Task.Reaches {} ⟨5, .program body, 0, s⟩ t ∧ t.used? {} = some (.boolean true) ∧
      IsError (Task.result {} ⟨5, .program body, 0, s⟩).1 ∧
      (∀ v : Value, t.store.Holds v → ¬ hidden v.type) ∧
      (∀ w : Value, w.PartOf (.boolean true) → ¬ hidden w.type) ∧
      ∀ v : Value, (runWithin {} 5 (.program body) 0 s).2.Holds v → ¬ hidden v.type := by
  intro binding body s t
  have hs : ∀ v : Value, s.Holds v → ¬ hidden v.type := fun v h => absurd h (holds_start false v)
  have hmain := hidden_types_stay_hidden {} (Or.inl rfl) 5 body 0 s hs
  let failing : Node Unit := .unary () "-" (.boolean () true)
  have hbound : Passes (eval {} 4) 0 [binding] s t.store :=
    .cons (v := .null) rfl (fun _ => nofun) (.nil _)
  have hbody : (Node.program body).parts = [binding] ++ failing :: [] := rfl
  have hoperand : failing.parts = [] ++ .boolean () true :: [] := rfl
  have hreach : Task.Reaches {} ⟨5, .program body, 0, s⟩ t :=
    .step (.part hbody hbound) (.step (.part hoperand (.nil _)) (.refl t))
  exact ⟨hs, hreach, rfl, trivial, (hmain.1 t hreach).1,
    fun w => (hmain.1 t hreach).2.2 (.boolean true) w rfl, hmain.2.1⟩

end SepiaLang
