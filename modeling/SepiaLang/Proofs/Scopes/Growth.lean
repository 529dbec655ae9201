import SepiaLang.Proofs.Discipline

/-!
# Scopes only grow

Evaluation never takes a scope away, moves one to another parent or removes a name. It adds scopes
inside scopes that are there already, and among the scopes that are there it adds names only to the
one that it works in: those that statements of the tree bind outside the bodies of functions.

* `Store.WellFormed`: parents come before their children, and functions are made in scopes that are
  there. `Store.WellFormed.wellFounded`, `Store.WellFormed.search`: searches upwards end.
* `Node.Declares`: the names that a tree binds in its own scope.
* `Scope.Grows`, `Store.Grows`: what may become of the scopes.
* `growth`: the discipline.
* **`eval_grows`**: evaluation from a well-formed store.
-/

namespace SepiaLang

/-! ## Well-formed stores -/

/-- Every parent comes before its children, and every function in a binding was made in a scope that is
there. -/
structure Store.WellFormed (s : Store) : Prop where
  parent_lt {i p : Nat} {scope : Scope} (hi : s.scopes[i]? = some scope)
    (hp : scope.parent = some p) : p < i
  scope_lt {id k : Nat} {params : List String} {body : Node Unit}
    (h : s.Holds (.function id params body k)) : k < s.scopes.size

/-- The functions in the value were made in scopes that are there. -/
def Value.Allocated (s : Store) (v : Value) : Prop :=
  ∀ id params body k, (Value.function id params body k).PartOf v → k < s.scopes.size

/-- The search for a name from a scope upwards: it ends at the first scope that binds the name, or
without a result at one that has no parent. -/
inductive Scopes.Search (scopes : Scopes) (x : String) : Nat → Option Nat → Prop
  | found {i : Nat} {scope : Scope} (hi : scopes[i]? = some scope) (hx : scope.binds x = true) :
      Search scopes x i (some i)
  | missing {i : Nat} {scope : Scope} (hi : scopes[i]? = some scope) (hx : scope.binds x = false)
      (hp : scope.parent = none) : Search scopes x i none
  | up {i p : Nat} {scope : Scope} {result : Option Nat} (hi : scopes[i]? = some scope)
      (hx : scope.binds x = false) (hp : scope.parent = some p) (h : Search scopes x p result) :
      Search scopes x i result

/-- **Searches upwards end** where parents come before their children, with what `holder?` finds. -/
theorem Scopes.search_holder? {scopes : Scopes}
    (hlt : ∀ {i p : Nat} {scope : Scope}, scopes[i]? = some scope → scope.parent = some p → p < i)
    (x : String) (i : Nat) (hi : i < scopes.size) : scopes.Search x i (scopes.holder? x i) := by
  fun_induction holder? scopes x i with
  | case1 i hnone =>
    rw [Array.getElem?_eq_none_iff] at hnone
    omega
  | case2 i scope hscope hx => exact .found hscope hx
  | case3 i scope hscope hx hp => exact .missing hscope (by simpa using hx) hp
  | case4 i scope hscope hx p hp hbefore ih => exact .up hscope (by simpa using hx) hp (ih (by omega))
  | case5 i scope hscope hx p hp hge => exact absurd (hlt hscope hp) hge

namespace Store.WellFormed

variable {s s' : Store}

theorem of_scopes (h : s.WellFormed) (hs : s'.scopes = s.scopes) : s'.WellFormed where
  parent_lt hi hp := h.parent_lt (hs ▸ hi) hp
  scope_lt hf := hs ▸ h.scope_lt ((holds_congr hs _).1 hf)

theorem start (logging : Bool) : (Store.start logging).WellFormed where
  parent_lt {i} := by
    intro p scope hi hp
    cases i with
    | zero => cases hi; cases hp
    | succ i => cases hi
  scope_lt hf := absurd hf (holds_start logging _)

theorem set (h : s.WellFormed) {v : Value} (hv : v.Allocated s) (i : Nat) (x : String) :
    ({ s with scopes := s.scopes.set i x v } : Store).WellFormed where
  parent_lt hj hp := by
    rcases Scopes.cases_set hj with hj | ⟨old, hold, rfl⟩
    · exact h.parent_lt hj hp
    · exact h.parent_lt hold hp
  scope_lt {id k params body} hf := by
    change k < (s.scopes.set i x v).size
    rw [Scopes.size_set]
    rcases holds_set hf with hf | hf
    · exact hv id params body k hf
    · exact h.scope_lt hf

theorem addScope (h : s.WellFormed) {i : Nat} (hi : i < s.scopes.size) :
    (s.addScope (some i)).2.WellFormed where
  parent_lt hj hp := by
    rcases Scopes.cases_add hj with hj | ⟨rfl, rfl⟩
    · exact h.parent_lt hj hp
    · cases hp
      exact hi
  scope_lt {id k params body} hf := by
    have := h.scope_lt (holds_addScope hf)
    change k < (s.scopes.add (some i)).size
    rw [Scopes.size_add]
    omega

/-- The chains of parents have no cycles. -/
theorem wellFounded (h : s.WellFormed) :
    WellFounded fun (p i : Nat) => ∃ scope, s.scopes[i]? = some scope ∧ scope.parent = some p :=
  Subrelation.wf (fun ⟨_, hi, hp⟩ => h.parent_lt hi hp) Nat.lt_wfRel.wf

/-- Searches upwards end. -/
theorem search (h : s.WellFormed) (x : String) (i : Nat) (hi : i < s.scopes.size) :
    s.scopes.Search x i (s.scopes.holder? x i) := Scopes.search_holder? h.parent_lt x i hi

end Store.WellFormed

/-! ## Growth -/

/-- A statement of the tree binds the name in the scope of the tree. -/
inductive Node.Declares (x : String) : Node Unit → Prop
  | here {name : Ident Unit} {e : Node Unit} (h : name.text = x) : Declares x (.valueStmt () name e)
  | inside {n m : Node Unit} (hm : m ∈ n.inner) (h : Declares x m) : Declares x n

/-- The second scope is the first one with the same parent, with all its names, and with others only if
they satisfy `may`. -/
structure Scope.Grows (may : String → Prop) (old new : Scope) : Prop where
  parent_eq : new.parent = old.parent
  binds_of_binds {x : String} (h : old.binds x = true) : new.binds x = true
  gains {x : String} (h : new.binds x = true) : old.binds x = true ∨ may x

namespace Scope.Grows

variable {may : String → Prop} {a b c : Scope}

theorem refl (may : String → Prop) (a : Scope) : Grows may a a := ⟨rfl, id, Or.inl⟩

theorem trans (h : Grows may a b) (h' : Grows may b c) : Grows may a c where
  parent_eq := h'.parent_eq.trans h.parent_eq
  binds_of_binds hx := h'.binds_of_binds (h.binds_of_binds hx)
  gains hx := (h'.gains hx).elim h.gains Or.inr

theorem mono {may' : String → Prop} (h : Grows may a b) (hmay : ∀ x, may x → may' x) :
    Grows may' a b := ⟨h.parent_eq, h.binds_of_binds, fun hx => (h.gains hx).imp_right (hmay _)⟩

theorem bind {x : String} (v : Value) (hx : a.binds x = true ∨ may x) : Grows may a (a.bind x v) where
  parent_eq := rfl
  binds_of_binds hy := (binds_bind a x _ v).2 (Or.inr hy)
  gains hy := by
    rcases (binds_bind a x _ v).1 hy with rfl | hy
    · exact hx
    · exact Or.inl hy

end Scope.Grows

/-- Every scope of the first store has grown in the second one, by names that `may` allows. -/
def Store.Grows (may : Nat → String → Prop) (s s' : Store) : Prop :=
  ∀ (i : Nat) (scope : Scope), s.scopes[i]? = some scope →
    ∃ scope', s'.scopes[i]? = some scope' ∧ scope.Grows (may i) scope'

namespace Store.Grows

variable {may : Nat → String → Prop} {s s₁ s₂ : Store}

theorem of_scopes (h : s₁.scopes = s.scopes) : s.Grows may s₁ :=
  fun _ scope hi => ⟨scope, h ▸ hi, .refl _ _⟩

theorem trans (h : s.Grows may s₁) (h' : s₁.Grows may s₂) : s.Grows may s₂ := by
  intro i scope hi
  obtain ⟨scope₁, hi₁, h₁⟩ := h i scope hi
  obtain ⟨scope₂, hi₂, h₂⟩ := h' i scope₁ hi₁
  exact ⟨scope₂, hi₂, h₁.trans h₂⟩

theorem size_le (h : s.Grows may s₁) : s.scopes.size ≤ s₁.scopes.size := by
  refine Nat.le_of_not_lt fun hlt => ?_
  obtain ⟨scope, hi, -⟩ := h _ _ (Array.getElem?_eq_getElem hlt)
  rw [Array.getElem?_eq_none (Nat.le_refl _)] at hi
  cases hi

theorem set (v : Value) {i : Nat} {x : String}
    (hx : ∀ scope, s.scopes[i]? = some scope → scope.binds x = true ∨ may i x) :
    s.Grows may { s with scopes := s.scopes.set i x v } := by
  intro j scope hj
  change ∃ scope', (s.scopes.set i x v)[j]? = some scope' ∧ _
  rw [Scopes.getElem?_set, hj]
  by_cases h : i = j
  · subst h
    rw [if_pos rfl]
    exact ⟨_, rfl, .bind v (hx scope hj)⟩
  · rw [if_neg h]
    exact ⟨scope, rfl, .refl _ _⟩

theorem addScope (s : Store) (parent : Option Nat) : s.Grows may (s.addScope parent).2 := by
  intro j scope hj
  refine ⟨scope, ?_, .refl _ _⟩
  change (s.scopes.add parent)[j]? = some scope
  have hlt : j < s.scopes.size := (Array.getElem?_eq_some_iff.1 hj).1
  rw [Scopes.getElem?_add, if_neg (Nat.ne_of_lt hlt), hj]

end Store.Grows

/-- Scopes from `base` on may gain any names, those before it only names that `may` allows. -/
def growth (base : Nat) (may : Nat → String → Prop) : Discipline where
  Ok s := s.WellFormed ∧ base ≤ s.scopes.size
  Leads s s' := s.Grows (fun i x => base ≤ i ∨ may i x) s'
  Open s i := i < s.scopes.size
  Word _ := True
  Closure s _ i := i < s.scopes.size
  Tree i n := ∀ x, n.Declares x → base ≤ i ∨ may i x
  Binds i x := base ≤ i ∨ may i x
  refl _ := .of_scopes rfl
  trans h h' := h.trans h'
  open_mono h hi := Nat.lt_of_lt_of_le hi h.size_le
  closure_mono h hi := Nat.lt_of_lt_of_le hi h.size_le
  of_scopes hs h := ⟨⟨hs.1.of_scopes h, h ▸ hs.2⟩, .of_scopes h⟩
  get? hs _ h := ⟨fun _ _ => trivial, fun _ _ _ _ hf => hs.1.scope_lt (Store.holds_of_get? h hf)⟩
  set {s i x v} hs _ hx hv := by
    refine ⟨⟨hs.1.set hv.2 i x, ?_⟩, .set v fun _ _ => Or.inr hx⟩
    change base ≤ (s.scopes.set i x v).size
    rw [Scopes.size_set]
    exact hs.2
  update? {s i x v scopes} hs _ hv h := by
    obtain ⟨j, hj, rfl⟩ := Option.map_eq_some_iff.1 h
    refine ⟨⟨hs.1.set hv.2 j x, ?_⟩, .set v fun scope hscope => Or.inl ?_⟩
    · change base ≤ (s.scopes.set j x v).size
      rw [Scopes.size_set]
      exact hs.2
    · -- the name is bound there already
      obtain ⟨scope', hscope', hx⟩ := Scopes.binds_holder? hj
      rw [hscope] at hscope'
      cases hscope'
      exact hx
  enter {s body i} hs hi := by
    have hsize : (s.addScope (some i)).2.scopes.size = s.scopes.size + 1 := Scopes.size_add _ _
    refine ⟨⟨⟨hs.1.addScope hi, ?_⟩, .addScope s _⟩, ?_, fun _ _ => Or.inl hs.2, fun _ => Or.inl hs.2⟩
    · have := hs.2
      omega
    · omega
  function _ hi _ := hi
  part h hm x hx := h x (.inside hm hx)
  valueStmt h := h _ (.here rfl)
  integer _ := trivial
  wrap _ := trivial

/-- Native functions that make nothing up let scopes grow only as they may. -/
theorem respects_growth {natives : Registry} (hn : natives = standard ∨ natives.Confined) (base : Nat)
    (may : Nat → String → Prop) : natives.Respects (growth base may) fun _ => True :=
  (confined_of_standard_or hn).respects fun _ _ _ _ => trivial

/-- Where the scopes that were there may gain some names, all others being new, they gain no others. -/
theorem Store.Grows.before {may : Nat → String → Prop} {s s' : Store}
    (h : s.Grows (fun i x => s.scopes.size ≤ i ∨ may i x) s') : s.Grows may s' := by
  intro i scope hi
  obtain ⟨scope', hi', hgrows⟩ := h i scope hi
  have hlt : i < s.scopes.size := (Array.getElem?_eq_some_iff.1 hi).1
  exact ⟨scope', hi', hgrows.mono fun x hx => hx.resolve_left (Nat.not_le_of_lt hlt)⟩

/-- **Scopes only grow.** Let a tree be evaluated in a scope of a well-formed store, whether it has a
value, returns or goes wrong. The store that is left is well-formed: no chain of parents is a cycle, the
search for a name upwards from any scope ends, and every function in a binding or in the value was made
in a scope that is there. Every scope that was there has the parent and the names that it had, and only
the scope of the tree may have gained names, which statements of the tree bind outside the bodies of
functions. A call of a function adds no name to any scope that was there. -/
theorem eval_grows (cfg : Config) (hn : cfg.natives = standard ∨ cfg.natives.Confined) (depth : Nat)
    (tree : Node Unit) (env : Nat) (s : Store) (hs : s.WellFormed) (henv : env < s.scopes.size) :
    (let r := eval cfg depth tree env s
     r.2.WellFormed ∧ (∀ v, carried? r.1 = some v → v.Allocated r.2) ∧
     s.Grows (fun i x => i = env ∧ tree.Declares x) r.2 ∧
     (WellFounded fun (p i : Nat) => ∃ scope, r.2.scopes[i]? = some scope ∧ scope.parent = some p) ∧
     ∀ x i, i < r.2.scopes.size → r.2.scopes.Search x i (r.2.scopes.holder? x i)) ∧
    ∀ f args, f.Allocated s → (∀ v ∈ args, v.Allocated s) →
      let r := applyFunction cfg (eval cfg depth) f args s
      r.2.WellFormed ∧ (∀ v, carried? r.1 = some v → v.Allocated r.2) ∧
      s.Grows (fun _ _ => False) r.2 := by
  constructor
  · intro r
    let D := growth s.scopes.size fun i x => i = env ∧ tree.Declares x
    have hrespects := eval_respects (D := D) (respects_growth hn _ _) depth tree env s henv
      fun x hx => Or.inr ⟨rfl, hx⟩
    obtain ⟨⟨hok, hleads⟩, hv⟩ := (hrespects.mono fun _ _ => And.left).carried ⟨hs, Nat.le_refl _⟩
    exact ⟨hok.1, fun v h => (hv v h).2, hleads.before, hok.1.wellFounded, hok.1.search⟩
  · intro f args hf hargs r
    let D := growth s.scopes.size fun _ _ => False
    have hev := eval_respects (D := D) (respects_growth hn _ _) depth
    have hrespects := respects_applyFunction hev (respects_growth hn _ _) (s := s)
      (f := f) ⟨fun _ _ => trivial, hf⟩ fun v hv => ⟨⟨fun _ _ => trivial, hargs v hv⟩, trivial⟩
    obtain ⟨⟨hok, hleads⟩, hv⟩ := hrespects.carried ⟨hs, Nat.le_refl _⟩
    exact ⟨hok.1, fun v h => (hv v h).2, hleads.before⟩

/-- A program that makes a function and calls it. The name that the body of the function binds goes to
a scope of its own, and the scope of the program gains the name of the function only. -/
theorem eval_grows_call :
    let body : Node Unit := .block () [.valueStmt () ⟨"k", ()⟩ (.integer () 3),
      .expressionStmt () (.identifier () "k")]
    let tree : Node Unit := .program [.valueStmt () ⟨"f", ()⟩ (.function () [] body),
      .expressionStmt () (.call () (.identifier () "f") [])]
    let s := Store.start false
    let r := eval {} 9 tree 0 s
    s.WellFormed ∧ r.1.toOption = some (.integer 3) ∧
      r.2.scopes.toList.map (·.bindings.map Prod.fst) = [["f"], ["k"]] ∧
      r.2.scopes.toList.map (·.parent) = [none, some 0] ∧
      r.2.WellFormed ∧ s.Grows (fun i x => i = 0 ∧ tree.Declares x) r.2 ∧
      s.Grows (fun _ _ => False) (applyFunction {} (eval {} 9) (.function 0 [] body 0) [] s).2 := by
  intro body tree s r
  have hs : s.WellFormed := .start false
  obtain ⟨⟨hwell, -, hgrows, -, -⟩, hcall⟩ := eval_grows {} (Or.inl rfl) 9 tree 0 s hs (by decide)
  have hf : (Value.function 0 [] body 0).Allocated s := by
    intro id params body' k hk
    cases hk
    decide
  refine ⟨hs, ?_, ?_, ?_, hwell, hgrows, (hcall _ [] hf nofun).2.2⟩ <;> with_unfolding_all rfl

end SepiaLang
