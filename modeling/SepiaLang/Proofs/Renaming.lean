import SepiaLang.Proofs.Confined
import SepiaLang.Proofs.Identity.Passing

/-!
# Stores under other numbers

A program does not see the numbers of identities and scopes: it compares identities, and it follows
scopes to their parents. So a run in a store that has many scopes already is a copy of a run in a small
one, with other numbers, and with bindings in its root scope that it does not touch.

* `Node.Mentions`: a name occurs in a tree. `Node.without`: a check that it does not.
* `Renaming`: other numbers for identities and scopes, in the same order.
* `Value.rename`: a value with other numbers. `Value.type_rename`, `Value.inspect_rename`,
  `Value.identical_rename`: it looks the same, and identities compare the same.
* `Scope.image`: a scope with other numbers, behind hidden bindings.
* `Image`: a store that is a copy of another one. `Image.get?`, `Image.set`, `Image.update?`,
  `Image.addScope`: what is done to both of them.
-/

namespace SepiaLang

/-! ## Renamings -/

/-- Other numbers: identities are moved up by `ids`, the root scope is number `root`, and all others
are numbered from `base` on. -/
structure Renaming where
  ids : Nat
  root : Nat
  base : Nat
  root_lt : root < base

/-- The number of a scope. -/
def Renaming.scope (ρ : Renaming) : Nat → Nat
  | 0 => ρ.root
  | k + 1 => ρ.base + k

theorem Renaming.scope_lt_iff (ρ : Renaming) {i j : Nat} : ρ.scope i < ρ.scope j ↔ i < j := by
  have := ρ.root_lt
  cases i <;> cases j <;> simp only [scope] <;> omega

theorem Renaming.scope_inj (ρ : Renaming) {i j : Nat} : ρ.scope i = ρ.scope j ↔ i = j := by
  have := ρ.root_lt
  cases i <;> cases j <;> simp only [scope] <;> omega

theorem Renaming.scope_succ (ρ : Renaming) {k : Nat} (hk : 0 < k) : ρ.scope (k + 1) = ρ.scope k + 1 := by
  obtain ⟨k, rfl⟩ := Nat.exists_eq_succ_of_ne_zero (Nat.ne_of_gt hk)
  rfl

/-! ## Values -/

/-- The entry under the same key, of other values. -/
def Entry.map {α β : Type} (f : α → β) (e : Entry α) : Entry β := ⟨e.under, f e.key, f e.value⟩

namespace Value

mutual

/-- The value with other numbers. -/
def rename (ρ : Renaming) : Value → Value
  | integer n => integer n
  | boolean b => boolean b
  | null => null
  | string id text => string (id + ρ.ids) text
  | array id elements => array (id + ρ.ids) (renameAll ρ elements)
  | map id entries => map (id + ρ.ids) (renameEntries ρ entries)
  | function id params body scope => function (id + ρ.ids) params body (ρ.scope scope)
  | native name => native name
  | returned value => returned (value.rename ρ)
  | error id message => error (id + ρ.ids) message

/-- Values with other numbers. -/
def renameAll (ρ : Renaming) : List Value → List Value
  | [] => []
  | v :: rest => v.rename ρ :: renameAll ρ rest

/-- Entries of a map with other numbers. -/
def renameEntries (ρ : Renaming) : List (Entry Value) → List (Entry Value)
  | [] => []
  | ⟨under, k, v⟩ :: rest => ⟨under, k.rename ρ, v.rename ρ⟩ :: renameEntries ρ rest

end

variable (ρ : Renaming)

@[simp]
theorem renameAll_eq_map : ∀ vs : List Value, renameAll ρ vs = vs.map (rename ρ)
  | [] => rfl
  | _ :: vs => congrArg _ (renameAll_eq_map vs)

@[simp]
theorem renameEntries_eq_map : ∀ es : List (Entry Value), renameEntries ρ es = es.map (Entry.map (rename ρ))
  | [] => rfl
  | _ :: es => congrArg _ (renameEntries_eq_map es)

@[simp]
theorem type_rename (v : Value) : (v.rename ρ).type = v.type := by
  cases v <;> rfl

@[simp]
theorem truthy_rename (v : Value) : (v.rename ρ).truthy = v.truthy := by
  cases v <;> rfl

@[simp]
theorem key?_rename (v : Value) : (v.rename ρ).key? = v.key? := by
  cases v <;> rfl

@[simp]
theorem hashable_rename (v : Value) : (v.rename ρ).hashable = v.hashable := by
  unfold hashable
  rw [key?_rename]

mutual

/-- **A value with other numbers is shown in the same way.** -/
@[simp]
theorem inspect_rename : ∀ v : Value, (v.rename ρ).inspect = v.inspect
  | integer _ | boolean _ | null | string .. | function .. | native _ | error .. => rfl
  | array _ elements => by
    rw [rename, inspect, inspect, inspectAll_rename elements]
  | map _ entries => by
    rw [rename, inspect, inspect, inspectEntries_rename entries]
  | returned value => by
    rw [rename, inspect, inspect, inspect_rename value]

theorem inspectAll_rename : ∀ vs : List Value, inspectAll (renameAll ρ vs) = inspectAll vs
  | [] => rfl
  | v :: vs => by
    rw [renameAll, inspectAll, inspectAll, inspect_rename v, inspectAll_rename vs]

theorem inspectEntries_rename : ∀ es : List (Entry Value),
    inspectEntries (renameEntries ρ es) = inspectEntries es
  | [] => rfl
  | ⟨_, k, v⟩ :: es => by
    rw [renameEntries, inspectEntries, inspectEntries, inspect_rename k, inspect_rename v,
      inspectEntries_rename es]

end

@[simp]
theorem fits_rename : ∀ (limit : Nat) (v : Value), (v.rename ρ).fits limit = v.fits limit
  | 0, _ => by rw [fits, fits]
  | limit + 1, v => by
    cases v with
    | array id elements =>
      rw [rename, fits, fits, renameAll_eq_map, List.all_map]
      exact congrArg elements.all (funext fun v => fits_rename limit v)
    | map id entries =>
      rw [rename, fits, fits, renameEntries_eq_map, List.all_map]
      refine congrArg entries.all (funext fun e => ?_)
      change (fits limit (e.key.rename ρ) && fits limit (e.value.rename ρ)) = _
      rw [fits_rename limit e.key, fits_rename limit e.value]
    | returned value => rw [rename, fits, fits, fits_rename limit value]
    | _ => rfl

@[simp]
theorem shown?_rename (v : Value) : (v.rename ρ).shown? = v.shown? := by
  unfold shown?
  rw [fits_rename, inspect_rename]

/-- **Identities compare the same.** -/
@[simp]
theorem identical_rename (l r : Value) : (l.rename ρ).identical (r.rename ρ) = l.identical r := by
  have hid (i j : Nat) : (i + ρ.ids == j + ρ.ids) = (i == j) := by
    rw [Bool.eq_iff_iff, beq_iff_eq, beq_iff_eq]
    omega
  cases l with
  | string i => cases r with | string j => exact hid i j | _ => rfl
  | array i => cases r with | array j => exact hid i j | _ => rfl
  | map i => cases r with | map j => exact hid i j | _ => rfl
  | function i => cases r with | function j => exact hid i j | _ => rfl
  | error i => cases r with | error j => exact hid i j | _ => rfl
  | _ => cases r <;> rfl

end Value

/-! ## Trees and values without certain names -/

/-- The names that stand at the root of a tree: an identifier, a name that is bound, or parameters. -/
def Node.ownNames : Node Unit → List String
  | identifier _ x => [x]
  | valueStmt _ x _ | updateStmt _ x _ => [x.text]
  | function _ params _ => params.map (·.text)
  | _ => []

/-- **The name occurs in the tree.** -/
inductive Node.Mentions (x : String) : Node Unit → Prop
  | here {n : Node Unit} (h : x ∈ n.ownNames) : Mentions x n
  | inside {n m : Node Unit} (hm : m ∈ n.children) (h : Mentions x m) : Mentions x n

/-- The tree is nested at most so deeply, and the name does not occur in it. -/
def Node.without (x : String) : Nat → Node Unit → Bool
  | 0, _ => false
  | limit + 1, n => !n.ownNames.contains x && n.children.all (without x limit)

theorem Node.not_mentions_of_without {x : String} : ∀ {limit : Nat} {n : Node Unit},
    n.without x limit = true → ¬ n.Mentions x
  | limit + 1, n, h, hmentions => by
    rw [without, Bool.and_eq_true, List.all_eq_true] at h
    cases hmentions with
    | here hx => simp [hx] at h
    | inside hm hx => exact not_mentions_of_without (h.2 _ hm) hx

/-- The name is none of those that are bound. -/
def Unbound (hidden : List (String × Value)) (x : String) : Prop := ∀ b ∈ hidden, b.1 ≠ x

/-- None of the names that are bound occurs in the tree. -/
def Node.Avoids (hidden : List (String × Value)) (n : Node Unit) : Prop :=
  ∀ b ∈ hidden, ¬ n.Mentions b.1

/-- A name at the root of such a tree is none of those. -/
theorem Node.Avoids.unbound {hidden : List (String × Value)} {n : Node Unit} {x : String}
    (h : n.Avoids hidden) (hx : x ∈ n.ownNames) : Unbound hidden x := by
  rintro b hb rfl
  exact h b hb (.here hx)

theorem Node.Avoids.part {hidden : List (String × Value)} {n m : Node Unit} (h : n.Avoids hidden)
    (hm : m ∈ n.children) : m.Avoids hidden := fun b hb hm' => h b hb (.inside hm hm')

/-- None of the names that are bound occurs in the body of a function in the value. -/
def Value.Avoids (hidden : List (String × Value)) (v : Value) : Prop :=
  v.Within (fun _ => True) fun body _ => body.Avoids hidden

/-! ## Scopes -/

/-- The scope with other numbers, behind hidden bindings. -/
def Scope.image (ρ : Renaming) (hidden : List (String × Value)) (scope : Scope) : Scope where
  parent := scope.parent.map ρ.scope
  bindings := hidden ++ scope.bindings.map fun b => (b.1, b.2.rename ρ)

section Scope

variable {ρ : Renaming} {hidden : List (String × Value)} {x : String}

theorem Scope.parent_image (scope : Scope) :
    (scope.image ρ hidden).parent = scope.parent.map ρ.scope := rfl

theorem find?_hidden (hx : Unbound hidden x) : hidden.find? (·.1 == x) = none :=
  List.find?_eq_none.2 fun b hb => by simpa using hx b hb

/-- A name that is not hidden stands for the same value. -/
theorem Scope.find?_image (hx : Unbound hidden x) (scope : Scope) :
    (scope.image ρ hidden).find? x = (scope.find? x).map (·.rename ρ) := by
  unfold Scope.find? Scope.image
  rw [List.find?_append, find?_hidden hx, Option.none_or, List.find?_map, Option.map_map, Option.map_map]
  rfl

theorem Scope.binds_image (hx : Unbound hidden x) (scope : Scope) :
    (scope.image ρ hidden).binds x = scope.binds x := by
  unfold Scope.binds
  rw [Scope.find?_image hx, Option.isSome_map]

theorem Assoc.put_append {α : Type} {p : α → Bool} (a : α) {l : List α} (hl : ∀ b ∈ l, p b = false)
    (l' : List α) : Assoc.put p a (l ++ l') = l ++ Assoc.put p a l' := by
  induction l with
  | nil => rfl
  | cons b l ih =>
    rw [List.cons_append, Assoc.put, if_neg (by simp [hl b List.mem_cons_self]),
      ih fun c hc => hl c (List.mem_cons_of_mem _ hc)]
    rfl

theorem Assoc.map_put {α β : Type} {p : α → Bool} {q : β → Bool} {f : α → β} (hpq : ∀ a, q (f a) = p a)
    (a : α) (l : List α) : (Assoc.put p a l).map f = Assoc.put q (f a) (l.map f) := by
  induction l with
  | nil => rfl
  | cons b l ih =>
    rw [List.map_cons, Assoc.put, Assoc.put, hpq]
    split
    · rfl
    · rw [List.map_cons, ih]

/-- A name that is not hidden is bound in both scopes. -/
theorem Scope.bind_image (hx : Unbound hidden x) (scope : Scope) (v : Value) :
    (scope.bind x v).image ρ hidden = (scope.image ρ hidden).bind x (v.rename ρ) := by
  let f (b : String × Value) : String × Value := (b.1, b.2.rename ρ)
  have hmap : (Assoc.put (·.1 == x) (x, v) scope.bindings).map f =
      Assoc.put (·.1 == x) (f (x, v)) (scope.bindings.map f) :=
    Assoc.map_put (by exact fun _ => rfl) _ _
  unfold Scope.image Scope.bind
  dsimp only
  rw [Assoc.put_append _ fun b hb => beq_false_of_ne (hx b hb), hmap]

end Scope

/-! ## Stores -/

/-- The bindings that are hidden in a scope of the small store: those given, in its root. -/
def hiddenIn (hidden : List (String × Value)) (k : Nat) : List (String × Value) :=
  if k = 0 then hidden else []

/-- **The second store is a copy of the first one**, with other numbers, with bindings hidden in its
root scope, and with output from before. In the first store nothing is known of the hidden bindings. -/
structure Image (ρ : Renaming) (hidden : List (String × Value)) (before : List String)
    (c s : Store) : Prop where
  root : ∃ bindings, c.scopes[0]? = some { bindings := bindings }
  size : s.scopes.size = ρ.scope c.scopes.size
  scope {k : Nat} {scope : Scope} (h : c.scopes[k]? = some scope) :
    s.scopes[ρ.scope k]? = some (scope.image ρ (hiddenIn hidden k))
  unbound {k : Nat} {scope : Scope} (h : c.scopes[k]? = some scope) {b : String × Value}
    (hb : b ∈ scope.bindings) : Unbound (hiddenIn hidden k) b.1 ∧ b.2.Avoids hidden
  nextId : s.nextId = c.nextId + ρ.ids
  output : s.output.toList = before ++ c.output.toList
  isOpen : s.log.isOpen = c.log.isOpen

namespace Image

variable {ρ : Renaming} {hidden : List (String × Value)} {before : List String} {c s : Store} {x : String}

theorem unbound_hiddenIn (hx : Unbound hidden x) (k : Nat) : Unbound (hiddenIn hidden k) x := by
  unfold hiddenIn
  split
  · exact hx
  · nofun

theorem size_pos (h : Image ρ hidden before c s) : 0 < c.scopes.size := by
  obtain ⟨bindings, hroot⟩ := h.root
  exact (Array.getElem?_eq_some_iff.1 hroot).1

/-- A scope that is missing is missing in the copy. -/
theorem scope_none (h : Image ρ hidden before c s) {k : Nat} (hk : c.scopes[k]? = none) :
    s.scopes[ρ.scope k]? = none := by
  rw [Array.getElem?_eq_none_iff] at hk ⊢
  rw [h.size]
  exact Nat.le_of_not_lt fun hlt => Nat.not_lt_of_le hk (ρ.scope_lt_iff.1 hlt)

theorem holder? (h : Image ρ hidden before c s) (hx : Unbound hidden x) (i : Nat) :
    s.scopes.holder? x (ρ.scope i) = (c.scopes.holder? x i).map ρ.scope := by
  fun_induction Scopes.holder? c.scopes x i with
  | case1 i hi => rw [Scopes.holder?, h.scope_none hi]; rfl
  | case2 i scope hi hbinds =>
    rw [Scopes.holder?, h.scope hi]
    simp only [Scope.binds_image (unbound_hiddenIn hx i), hbinds, if_true]
    rfl
  | case3 i scope hi hbinds hp =>
    rw [Scopes.holder?, h.scope hi]
    simp only [Scope.binds_image (unbound_hiddenIn hx i), hbinds, Scope.parent_image, hp]
    rfl
  | case4 i scope hi hbinds p hp hlt ih =>
    rw [Scopes.holder?, h.scope hi]
    simp only [Scope.binds_image (unbound_hiddenIn hx i), hbinds, Scope.parent_image, hp, Option.map_some,
      ρ.scope_lt_iff, hlt, if_true]
    exact ih
  | case5 i scope hi hbinds p hp hge =>
    rw [Scopes.holder?, h.scope hi]
    simp only [Scope.binds_image (unbound_hiddenIn hx i), hbinds, Scope.parent_image, hp, Option.map_some,
      ρ.scope_lt_iff, hge]
    rfl

/-- **A name that is not hidden is looked up with the same outcome.** -/
theorem get? (h : Image ρ hidden before c s) (hx : Unbound hidden x) (i : Nat) :
    s.scopes.get? (ρ.scope i) x = (c.scopes.get? i x).map (·.rename ρ) := by
  cases hi : c.scopes.holder? x i with
  | none =>
    have hi' : s.scopes.holder? x (ρ.scope i) = none := by rw [h.holder? hx, hi]; rfl
    unfold Scopes.get?
    rw [hi, hi']
    rfl
  | some j =>
    obtain ⟨scope, hscope, -⟩ := Scopes.binds_holder? hi
    have hi' : s.scopes.holder? x (ρ.scope i) = some (ρ.scope j) := by rw [h.holder? hx, hi]; rfl
    rw [Scopes.get?_of_holder? hi hscope, Scopes.get?_of_holder? hi' (h.scope hscope),
      Scope.find?_image (unbound_hiddenIn hx j)]

/-- What is found avoids the hidden names. -/
theorem avoids_of_get? (h : Image ρ hidden before c s) {i : Nat} {v : Value}
    (hv : c.scopes.get? i x = some v) : v.Avoids hidden := by
  obtain ⟨j, scope, -, hscope, hb⟩ := Scopes.get?_eq_some hv
  exact (h.unbound hscope hb).2

/-- **A name that is not hidden is bound in both stores.** -/
theorem set (h : Image ρ hidden before c s) {i : Nat} (hx : Unbound (hiddenIn hidden i) x) {v : Value}
    (hv : v.Avoids hidden) :
    Image ρ hidden before { c with scopes := c.scopes.set i x v }
      { s with scopes := s.scopes.set (ρ.scope i) x (v.rename ρ) } where
  root := by
    obtain ⟨bindings, hroot⟩ := h.root
    change ∃ bindings, (c.scopes.set i x v)[0]? = _
    rw [Scopes.getElem?_set, hroot]
    split
    · exact ⟨_, rfl⟩
    · exact ⟨_, rfl⟩
  size := by
    change (s.scopes.set _ x _).size = ρ.scope (c.scopes.set i x v).size
    rw [Scopes.size_set, Scopes.size_set, h.size]
  scope {k scope} hk := by
    change (c.scopes.set i x v)[k]? = some scope at hk
    change (s.scopes.set _ x _)[ρ.scope k]? = _
    rw [Scopes.getElem?_set] at hk ⊢
    by_cases hik : i = k
    · subst hik
      rw [if_pos rfl] at hk ⊢
      obtain ⟨old, hold, rfl⟩ := Option.map_eq_some_iff.1 hk
      rw [h.scope hold, Scope.bind_image hx]
      rfl
    · rw [if_neg hik] at hk
      rw [if_neg fun heq => hik (ρ.scope_inj.1 heq), h.scope hk]
  unbound {k scope} hk b hb := by
    change (c.scopes.set i x v)[k]? = some scope at hk
    rw [Scopes.getElem?_set] at hk
    by_cases hik : i = k
    · subst hik
      rw [if_pos rfl] at hk
      obtain ⟨old, hold, rfl⟩ := Option.map_eq_some_iff.1 hk
      rcases Assoc.eq_or_mem_of_mem_put hb with rfl | hb
      · exact ⟨hx, hv⟩
      · exact h.unbound hold hb
    · rw [if_neg hik] at hk
      exact h.unbound hk hb
  nextId := h.nextId
  output := h.output
  isOpen := h.isOpen

/-- A name that is not hidden is bound anew in both stores, or in neither. -/
theorem update? (h : Image ρ hidden before c s) (hx : Unbound hidden x) (i : Nat) {v : Value}
    (hv : v.Avoids hidden) :
    (c.scopes.update? i x v = none ∧ s.scopes.update? (ρ.scope i) x (v.rename ρ) = none) ∨
    ∃ scopes scopes', c.scopes.update? i x v = some scopes ∧
      s.scopes.update? (ρ.scope i) x (v.rename ρ) = some scopes' ∧
      Image ρ hidden before { c with scopes } { s with scopes := scopes' } := by
  unfold Scopes.update?
  rw [h.holder? hx]
  cases c.scopes.holder? x i with
  | none => exact Or.inl ⟨rfl, rfl⟩
  | some j => exact Or.inr ⟨_, _, rfl, rfl, h.set (unbound_hiddenIn hx j) hv⟩

/-- **A scope is made in both stores.** -/
theorem addScope (h : Image ρ hidden before c s) (p : Nat) :
    Image ρ hidden before (c.addScope (some p)).2 (s.addScope (some (ρ.scope p))).2 where
  root := by
    obtain ⟨bindings, hroot⟩ := h.root
    refine ⟨bindings, ?_⟩
    change (c.scopes.add _)[0]? = _
    rw [Scopes.getElem?_add, if_neg (Nat.ne_of_lt h.size_pos), hroot]
  size := by
    change (s.scopes.add _).size = ρ.scope (c.scopes.add _).size
    rw [Scopes.size_add, Scopes.size_add, h.size, ρ.scope_succ h.size_pos]
  scope {k scope} hk := by
    change (s.scopes.add _)[ρ.scope k]? = _
    rcases Scopes.cases_add hk with hk | ⟨rfl, rfl⟩
    · have hlt : k < c.scopes.size := (Array.getElem?_eq_some_iff.1 hk).1
      have hne : ρ.scope k ≠ s.scopes.size := by
        rw [h.size]
        exact fun heq => Nat.ne_of_lt hlt (ρ.scope_inj.1 heq)
      rw [Scopes.getElem?_add, if_neg hne, h.scope hk]
    · have hne : c.scopes.size ≠ 0 := Nat.ne_of_gt h.size_pos
      rw [Scopes.getElem?_add, h.size, if_pos rfl, hiddenIn, if_neg hne]
      rfl
  unbound {k scope} hk b hb := by
    rcases Scopes.cases_add hk with hk | ⟨rfl, rfl⟩
    · exact h.unbound hk hb
    · exact absurd hb List.not_mem_nil
  nextId := h.nextId
  output := h.output
  isOpen := h.isOpen

/-- An identity is given out in both stores. -/
theorem nextId_succ (h : Image ρ hidden before c s) :
    Image ρ hidden before { c with nextId := c.nextId + 1 } { s with nextId := s.nextId + 1 } where
  root := h.root
  size := h.size
  scope := h.scope
  unbound := h.unbound
  nextId := by
    change s.nextId + 1 = c.nextId + 1 + ρ.ids
    rw [h.nextId, Nat.add_right_comm]
  output := h.output
  isOpen := h.isOpen

/-- A line is printed in both stores. -/
theorem print (h : Image ρ hidden before c s) (line : String) :
    Image ρ hidden before (c.print line) (s.print line) where
  root := h.root
  size := h.size
  scope := h.scope
  unbound := h.unbound
  nextId := h.nextId
  output := by
    unfold Store.print
    rw [Array.toList_push, Array.toList_push, h.output, List.append_assoc]
  isOpen := h.isOpen

/-- Entries with the same line are written to both logs. -/
theorem write (h : Image ρ hidden before c s) {entry entry' : LogEntry}
    (hentry : entry'.render = entry.render) :
    Image ρ hidden before (c.write entry) (s.write entry') := by
  unfold Store.write
  rw [h.isOpen, hentry]
  split
  · exact ⟨h.root, h.size, h.scope, h.unbound, h.nextId, h.output, h.isOpen⟩
  · exact h.print _

end Image

end SepiaLang
