import SepiaLang.Proofs.Parse.Echo
import SepiaLang.Proofs.Parse.Sound
import SepiaLang.Syntax.Depth

/-!
# Reading on after a semicolon

Every phrase is read the same way from tokens that look the same, also if they go on after a semicolon
that ended the first list.

* `Echo.mirrors_expression`, `Echo.mirrors_statement`: expressions, at every depth of nesting, and
  statements.
* `Echo.programBody_same`: programs of lists that look the same.
* **`Echo.programBody_further`**: a program that goes on after the semicolon of another one.
-/

namespace SepiaLang.Parse.Echo

open SepiaLang.Computation

variable {α : Type} {P : Echo α}

theorem inside_of_kind {s : State} {kind : Kind} (h : s.current.kind = kind) (hkind : kind ≠ .semicolon) :
    P.Inside s := .inr (h ▸ hkind)

/-- Inside the list is where the current token is no semicolon. -/
theorem Mirrors.at_kind {β γ : Type} {m m' : Nat} {g : β → γ} {E : β → State → Prop} {r r' : Reader β}
    {kind : Kind} (hkind : kind ≠ .semicolon) (h : P.Mirrors m m' P.Inside g E r r') :
    P.Mirrors m m' (fun s => s.current.kind = kind) g E r r' :=
  h.mono fun _ hs => inside_of_kind hs hkind

/-- What is seen of a tree. -/
def tree (P : Echo α) (n : Node Token) : Node α := n.mapNotes P.view

/-- What is seen of a name. -/
def name (P : Echo α) (x : Ident Token) : Ident α := x.map P.view

/-- Expressions above a level are read the same way. -/
def Sub (P : Echo α) (sub : Sub) : Prop := ∀ (m m' level : Nat), lowest ≤ level →
  P.Mirrors m m' (fun _ => True) P.tree (fun _ => P.Inside) (sub level) (sub level)

theorem Sub.lowest {sub : Parse.Sub} (h : P.Sub sub) (m m' : Nat) (C : State → Prop) :
    P.Mirrors m m' C P.tree (fun _ => P.Inside) (sub Parse.lowest) (sub Parse.lowest) :=
  (h m m' Parse.lowest (Nat.le_refl _)).mono fun _ _ => trivial

theorem name_eq {t t' : Token} (h : P.view t = P.view t') :
    P.name ⟨t.literal, t⟩ = P.name ⟨t'.literal, t'⟩ := by
  simp [name, Ident.map, h, (P.view_inj h).2]

/-! ## Lists -/

theorem mirrors_moreParams {m m' n n' : Nat} (hm : m ≤ n) (hm' : m' ≤ n') :
    P.Mirrors m m' P.Inside (List.map P.name) (fun _ => P.Inside) (moreParams n) (moreParams n') := by
  refine Mirrors.loop (u := id) (p := fun (_ : Unit) => moreParams) (q := fun _ => moreParams)
    (fun _ _ => id) ?_ n n' () () m m' rfl hm hm'
  intro n n' ih _ _ m m' _ hm hm'
  refine .ahead (fun _ => id) fun t t' ht => ?_
  rw [← ht.kind]
  split
  next hcomma =>
    refine .consume_token (Q := fun s => s.current.kind = .comma) (fun _ h => h.1)
      (fun s h => by simp [h.2, hcomma]) (fun s h => by simp [h.2, hcomma]) ?_
    refine .expect (fun _ h => inside_of_kind h (by decide)) ?_
    refine .token (fun _ h => by simp [h]) fun x x' hx => ?_
    refine .bind ((ih () () _ _ rfl (by omega) (by omega)).at_kind (by decide)) fun xs xs' hxs => ?_
    exact .pure (by rw [List.map_cons, List.map_cons, name_eq hx, hxs]) fun _ => id
  next => exact .pure rfl fun _ h => h.1

theorem mirrors_params {m m' : Nat} :
    P.Mirrors m m' P.Inside (List.map P.name) (fun _ => P.Inside) params params := by
  refine .ahead (fun _ => id) fun t t' ht => ?_
  rw [← ht.kind]
  split
  next hparen =>
    refine .consume (Q := P.Inside) (fun _ h => h.1) (fun s h => .inr ?_) (.pure rfl fun _ => id)
    simp [h.2, hparen]
  next =>
    refine .expect (fun _ h => h.1) (.token (fun _ h => by simp [h]) fun x x' hx => ?_)
    refine .budget fun n n' m m' hm hm' => ?_
    refine .bind ((mirrors_moreParams hm hm').at_kind (by decide))
      fun xs xs' hxs => .expect (fun _ => id) ?_
    refine .pure ?_ fun _ h => inside_of_kind h (by decide)
    rw [List.map_cons, List.map_cons, name_eq hx, hxs]

section Phrases

variable {sub : Parse.Sub} (hsub : P.Sub sub)
include hsub

theorem mirrors_moreItems {m m' n n' : Nat} (hm : m ≤ n) (hm' : m' ≤ n') :
    P.Mirrors m m' P.Inside (List.map P.tree) (fun _ => P.Inside) (moreItems sub n) (moreItems sub n') := by
  refine Mirrors.loop (u := id) (p := fun (_ : Unit) => moreItems sub) (q := fun _ => moreItems sub)
    (fun _ _ => id) ?_ n n' () () m m' rfl hm hm'
  intro n n' ih _ _ m m' _ hm hm'
  refine .ahead (fun _ => id) fun t t' ht => ?_
  rw [← ht.kind]
  split
  next hcomma =>
    refine .consume_token (Q := fun s => s.current.kind = .comma) (fun _ h => h.1)
      (fun s h => by simp [h.2, hcomma]) (fun s h => by simp [h.2, hcomma]) ?_
    refine .consume (Q := fun _ => True) (fun _ h => inside_of_kind h (by decide)) (fun _ _ => trivial) ?_
    refine .bind (hsub.lowest _ _ _) fun e e' he => ?_
    refine .bind (ih () () _ _ rfl (by omega) (by omega)) fun es es' hes => ?_
    exact .pure (by rw [List.map_cons, List.map_cons, he, hes]) fun _ => id
  next => exact .pure rfl fun _ h => h.1

theorem mirrors_items {closing : Kind} (hclosing : closing ≠ .semicolon) {m m' : Nat} :
    P.Mirrors m m' P.Inside (List.map P.tree) (fun _ => P.Inside) (items sub closing)
      (items sub closing) := by
  refine .ahead (fun _ => id) fun t t' ht => ?_
  rw [← ht.kind]
  split
  next hend =>
    refine .consume (Q := P.Inside) (fun _ h => h.1) (fun s h => .inr ?_) (.pure rfl fun _ => id)
    rw [State.current_consume, h.2, hend]
    exact hclosing
  next =>
    refine .consume (Q := fun _ => True) (fun _ h => h.1) (fun _ _ => trivial) ?_
    refine .bind (hsub.lowest _ _ _) fun e e' he => .budget fun n n' m m' hm hm' => ?_
    refine .bind (mirrors_moreItems hsub hm hm') fun es es' hes => .expect (fun _ => id) ?_
    exact .pure (by rw [List.map_cons, List.map_cons, he, hes]) fun _ h => inside_of_kind h hclosing

/-- What is seen of an entry of a map. -/
def entry (P : Echo α) (p : Node Token × Node Token) : Node α × Node α := (P.tree p.1, P.tree p.2)

theorem mirrors_entries {m m' n n' : Nat} (hm : m ≤ n) (hm' : m' ≤ n') :
    P.Mirrors m m' P.Inside (List.map P.entry) (fun _ => P.Inside) (entries sub n) (entries sub n') := by
  refine Mirrors.loop (u := id) (p := fun (_ : Unit) => entries sub) (q := fun _ => entries sub)
    (fun _ _ => id) ?_ n n' () () m m' rfl hm hm'
  intro n n' ih _ _ m m' _ hm hm'
  refine .ahead (fun _ => id) fun t t' ht => ?_
  rw [← ht.kind]
  split
  next => exact .pure rfl fun _ h => h.1
  next hgoes =>
    rw [not_or] at hgoes
    refine .consume_token (Q := fun _ => True) (fun _ h => h.1) (fun s h => by rw [h.2]; exact hgoes.2)
      (fun _ _ => trivial) ?_
    refine .bind (hsub.lowest _ _ _) fun key key' hkey => .expect (fun _ => id) ?_
    refine .consume (Q := fun _ => True) (fun _ h => inside_of_kind h (by decide)) (fun _ _ => trivial) ?_
    refine .bind (hsub.lowest _ _ _) fun value value' hvalue => .ahead (fun _ => id) fun u u' hu => ?_
    have hmore := ih () () _ _ rfl (show m - 1 ≤ n by omega) (show m' - 1 ≤ n' by omega)
    have hentry : P.entry (key, value) = P.entry (key', value') := by rw [entry, entry, hkey, hvalue]
    dsimp only
    rw [← hu.kind]
    split
    next =>
      refine .expect (fun _ h => h.1) ?_
      refine .bind (hmore.at_kind (by decide)) fun es es' hes => ?_
      exact .pure (by rw [List.map_cons, List.map_cons, hentry, hes]) fun _ => id
    next =>
      refine .bind (hmore.mono (fun _ h => h.1)) fun es es' hes => ?_
      exact .pure (by rw [List.map_cons, List.map_cons, hentry, hes]) fun _ => id

/-! ## Statements -/

theorem mirrors_binding {m m' : Nat} :
    P.Mirrors m m' P.Inside (fun p => (P.name p.1, P.tree p.2)) (fun _ _ => True) (binding sub)
      (binding sub) := by
  refine .expect (fun _ => id) (.token (fun _ h => by simp [h]) fun x x' hx => ?_)
  refine .expect (fun _ h => inside_of_kind h (by decide)) ?_
  refine .consume (Q := fun _ => True) (fun _ h => inside_of_kind h (by decide)) (fun _ _ => trivial) ?_
  refine .bind (hsub.lowest _ _ _) fun e e' he => .skip ?_
  exact .pure (by rw [name_eq hx, he]) fun _ _ => trivial

/-- A statement that binds a name, from its first word on. -/
theorem mirrors_bindingStatement {word : Kind} (heof : word ≠ .eof) (hsemi : word ≠ .semicolon)
    {make : Token → Ident Token → Node Token → Node Token} (make' : α → Ident α → Node α → Node α)
    (hmake : ∀ t x e, P.tree (make t x e) = make' (P.view t) (P.name x) (P.tree e)) (phrase : Phrase)
    {m m' : Nat} :
    let reader : Reader (Node Token) := traced phrase do
      let first ← current
      let (name, value) ← binding sub
      return make first name value
    P.Mirrors m m' (fun s => s.current.kind = word) P.tree (fun _ _ => True) reader reader := by
  refine .traced (fun _ => id) (fun _ _ _ => trivial) (.token (fun _ h => h ▸ heof) fun t t' ht => ?_)
  refine .bind ((mirrors_binding hsub).at_kind hsemi) fun p p' hp => .pure ?_ fun _ _ => trivial
  obtain ⟨hname, hvalue⟩ := Prod.ext_iff.1 hp
  dsimp only at hname hvalue ⊢
  rw [hmake, hmake, ht, hname, hvalue]

theorem mirrors_valueStatement {m m' : Nat} :
    P.Mirrors m m' (fun s => s.current.kind = .valueWord) P.tree (fun _ _ => True) (valueStatement sub)
      (valueStatement sub) :=
  mirrors_bindingStatement hsub (by decide) (by decide) .valueStmt
    (fun _ _ _ => by simp [tree, name, Node.mapNotes]) _

theorem mirrors_updateStatement {m m' : Nat} :
    P.Mirrors m m' (fun s => s.current.kind = .updateWord) P.tree (fun _ _ => True) (updateStatement sub)
      (updateStatement sub) :=
  mirrors_bindingStatement hsub (by decide) (by decide) .updateStmt
    (fun _ _ _ => by simp [tree, name, Node.mapNotes]) _

omit hsub in
theorem skipToSemicolon_stays {s : State} (h : s.current.kind = .semicolon) :
    ∀ n, skipToSemicolon n s = (.ok (), s)
  | 0 => rfl
  | n + 1 => by
    change (if s.current.kind = .semicolon ∨ _ then (pure () : Reader Unit) else _) s = _
    rw [if_pos (.inl h)]
    rfl

omit hsub in
/-- Both readers stop at the same semicolon: the one that ends the first list, or one before it. -/
theorem mirrors_skipToSemicolon {m m' n n' : Nat} (hm : m ≤ n) (hm' : m' ≤ n') :
    P.Mirrors m m' (fun _ => True) id (fun _ _ => True) (skipToSemicolon n) (skipToSemicolon n') := by
  refine Mirrors.loop (u := id) (p := fun (_ : Unit) => skipToSemicolon) (q := fun _ => skipToSemicolon)
    (fun _ _ => id) ?_ n n' () () m m' rfl hm hm'
  intro n n' ih _ _ m m' _ hm hm'
  have hinside : P.Mirrors m m' P.Inside id (fun _ _ => True) (skipToSemicolon (n + 1))
      (skipToSemicolon (n' + 1)) := by
    refine .current fun t t' ht => .ahead (fun _ h => h.1) fun u u' hu => ?_
    rw [← ht.kind, ← hu.kind]
    split
    next => exact .pure rfl fun _ _ => trivial
    next hgoes =>
      rw [not_or, not_or, not_or] at hgoes
      exact .consume_token (fun _ h => h.1.1) (fun s h => by rw [h.2]; exact hgoes.2.2.1)
        (fun _ _ => trivial) (ih () () _ _ rfl (by omega) (by omega))
  refine ⟨fun {s s'} hs hleft hleft' _ => ?_, hinside.keep⟩
  by_cases hk : s.current.kind = .semicolon
  · have hk' : s'.current.kind = .semicolon := hs.current.kind ▸ hk
    rw [skipToSemicolon_stays hk, skipToSemicolon_stays hk']
    exact .inr ⟨hs, hleft, hleft', rfl, fun _ _ => trivial⟩
  · exact hinside.near hs hleft hleft' (.inr hk)

omit hsub in
/-- A statement around an expression, if there is one. -/
theorem mirrors_found {make make' : Node Token → Node Token}
    (hmake : ∀ e e', P.tree e = P.tree e' → P.tree (make e) = P.tree (make' e')) {m m' : Nat}
    {C : State → Prop} (e? e?' : Option (Node Token)) : e?.map P.tree = e?'.map P.tree →
    P.Mirrors m m' C P.tree (fun _ _ => True)
      (match e? with
        | some e => pure (make e)
        | none => throw .rejected)
      (match e?' with
        | some e => pure (make' e)
        | none => throw .rejected) := by
  intro he
  cases e? with
  | none =>
    cases e?' with
    | none => exact .throw _
    | some e' => cases he
  | some e =>
    cases e?' with
    | none => cases he
    | some e' => exact .pure (hmake e e' (Option.some.inj he)) fun _ _ => trivial

theorem mirrors_returnStatement {m m' : Nat} :
    P.Mirrors m m' (fun s => s.current.kind = .returnWord) P.tree (fun _ _ => True) (returnStatement sub)
      (returnStatement sub) := by
  refine .traced (fun _ => id) (fun _ _ _ => trivial) (.token (fun _ h => by simp [h]) fun t t' ht => ?_)
  refine .consume (Q := fun _ => True) (fun _ h => inside_of_kind h (by decide)) (fun _ _ => trivial) ?_
  refine .bind (.attempt (hsub.lowest _ _ _)) fun e? e?' he => .budget fun n n' m m' hm hm' => ?_
  refine .bind ((mirrors_skipToSemicolon hm hm').mono fun _ _ => trivial) fun _ _ _ => ?_
  refine mirrors_found (fun e e' he => ?_) e? e?' he
  rw [tree, tree] at he
  simp [tree, Node.mapNotes, ht, he]

theorem mirrors_expressionStatement {m m' : Nat} :
    P.Mirrors m m' (fun s => s.current.kind ≠ .eof) P.tree (fun _ _ => True) (expressionStatement sub)
      (expressionStatement sub) := by
  refine .traced (fun _ => id) (fun _ _ _ => trivial) (.token (fun _ h => h) fun t t' ht => ?_)
  refine .bind (.attempt (hsub.lowest _ _ _)) fun e? e?' he => .skip ?_
  refine mirrors_found (fun e e' he => ?_) e? e?' he
  rw [tree, tree] at he
  simp [tree, Node.mapNotes, ht, he]

theorem mirrors_statement {m m' : Nat} :
    P.Mirrors m m' (fun s => s.current.kind ≠ .eof) P.tree (fun _ _ => True) (statement sub)
      (statement sub) := by
  refine .current fun t t' ht => ?_
  rw [← ht.kind]
  split
  next hk => exact (mirrors_valueStatement hsub).mono fun s h => by rw [h.2]; exact hk
  next hk => exact (mirrors_updateStatement hsub).mono fun s h => by rw [h.2]; exact hk
  next hk => exact (mirrors_returnStatement hsub).mono fun s h => by rw [h.2]; exact hk
  next => exact (mirrors_expressionStatement hsub).mono fun _ h => h.1

/-! ## Blocks -/

omit hsub in
theorem statements_succ (n : Nat) {s : State} (h : ¬(s.current.kind = .closeBlock ∨ s.current.kind = .eof)) :
    statements sub (n + 1) s = match attempt (statement sub) s with
      | (.ok found, s₁) =>
        ((statements sub n s₁.consume).1.map (found.toList ++ ·), (statements sub n s₁.consume).2)
      | (.error e, s₁) => (.error e, s₁) := by
  change (if s.current.kind = .closeBlock ∨ s.current.kind = .eof then (pure [] : Reader _) else _) s = _
  rw [if_neg h, bind_apply]
  rcases attempt (statement sub) s with ⟨e | found, s₁⟩
  · rfl
  · change ((statements sub n >>= fun ns => pure (found.toList ++ ns) : Reader _) s₁.consume) =
      ((statements sub n s₁.consume).1.map (found.toList ++ ·), (statements sub n s₁.consume).2)
    rw [bind_apply]
    rcases statements sub n s₁.consume with ⟨e | ns, s₂⟩ <;> rfl

theorem keep_statements : ∀ (n : Nat) {s : State}, P.Lost s → P.Lost (statements sub n s).2
  | 0, _, hlost => hlost
  | n + 1, s, hlost => by
    by_cases hend : s.current.kind = .closeBlock ∨ s.current.kind = .eof
    · rwa [statements_of_closing hend]
    · have hstatement : P.Mirrors 0 0 _ _ _ _ _ := mirrors_statement hsub
      have hfirst := hstatement.attempt.keep hlost
      rw [statements_succ n hend]
      rcases hx : attempt (statement sub) s with ⟨e | found, s₁⟩ <;> rw [hx] at hfirst
      · exact hfirst
      · exact keep_statements n hfirst.consume

/-- The outcomes of the statements of a block: the same for both lists, unless the first one ends
before the block does. -/
def Bodies (P : Echo α) (m m' : Nat) (o o' : Except Halt (List (Node Token)) × State) : Prop :=
  P.Lost o.2 ∨
  (P.next ≠ none ∧ (∃ ns, o.1 = .ok ns) ∧ o.2.current.kind = .eof) ∨
  P.Agree m m' (List.map P.tree) (fun _ s => s.current.kind = .closeBlock ∨ s.current.kind = .eof) o o'

omit hsub in
theorem map_found {found found' : Option (Node Token)} {x x' : Except Halt (List (Node Token))}
    (hfound : found.map P.tree = found'.map P.tree)
    (hx : x.map (List.map P.tree) = x'.map (List.map P.tree)) :
    (x.map (found.toList ++ ·)).map (List.map P.tree) =
      (x'.map (found'.toList ++ ·)).map (List.map P.tree) := by
  have hlist : found.toList.map P.tree = found'.toList.map P.tree := by
    rw [← Option.toList_map, hfound, Option.toList_map]
  rcases x with e | ns <;> rcases x' with e' | ns'
  · cases hx
    rfl
  · cases hx
  · cases hx
  · have hns : ns.map P.tree = ns'.map P.tree := Except.ok.inj hx
    show Except.ok _ = Except.ok _
    rw [List.map_append, List.map_append, hlist, hns]

omit hsub in
/-- A statement is put before those that follow it. -/
theorem Bodies.cons {m m' : Nat} {found found' : Option (Node Token)}
    (hfound : found.map P.tree = found'.map P.tree) {o o' : Except Halt (List (Node Token)) × State}
    (h : P.Bodies (m - 1) (m' - 1) o o') :
    P.Bodies m m' (o.1.map (found.toList ++ ·), o.2) (o'.1.map (found'.toList ++ ·), o'.2) := by
  rcases h with hlost | ⟨hnext, ⟨ns, hns⟩, heof⟩ | ha
  · exact .inl hlost
  · exact .inr (.inl ⟨hnext, ⟨found.toList ++ ns, by rw [hns]; rfl⟩, heof⟩)
  · refine .inr (.inr ⟨ha.shadow, ?_, ?_, map_found hfound ha.result, ?_⟩)
    · exact Nat.lt_of_lt_of_le ha.left (Nat.sub_le m 1)
    · exact Nat.lt_of_lt_of_le ha.left' (Nat.sub_le m' 1)
    · intro ns hns
      rcases hbody : o.1 with e | ns₁
      · rw [hbody] at hns
        cases hns
      · exact ha.ends ns₁ hbody

omit hsub in
/-- A statement is the last one, because the list ends after it. -/
theorem bodies_of_eof {m m' n n' : Nat} {found found' : Option (Node Token)}
    (hfound : found.map P.tree = found'.map P.tree) {s s' : State} (hs : P.Shadow s s')
    (hleft : s.left < m) (hleft' : s'.left < m') (hahead : s.ahead.kind = .eof) :
    P.Bodies m m'
      ((statements sub n s.consume).1.map (found.toList ++ ·), (statements sub n s.consume).2)
      ((statements sub n' s'.consume).1.map (found'.toList ++ ·), (statements sub n' s'.consume).2) := by
  have hlast : s.consume.current.kind = .eof := by rw [State.current_consume, hahead]
  rw [statements_of_closing (.inr hlast)]
  by_cases hnext : P.next = none
  · have hs₁ := hs.consume (.inl hnext)
    rw [statements_of_closing (.inr (hs₁.current.kind ▸ hlast))]
    have hresult : (Except.ok [] : Except Halt (List (Node Token))).map (List.map P.tree) =
        (Except.ok []).map (List.map P.tree) := rfl
    refine .inr (.inr ⟨hs₁, ?_, ?_, map_found hfound hresult, fun _ _ => .inr hlast⟩)
    · exact Nat.lt_of_le_of_lt (State.left_consume_le hs.padded) hleft
    · exact Nat.lt_of_le_of_lt (State.left_consume_le hs.padded') hleft'
  · exact .inr (.inl ⟨hnext, ⟨_, rfl⟩, hlast⟩)

/-- **The statements of a block** are read the same way, unless the first list ends before the block
does. -/
theorem bodies_statements : ∀ (n n' : Nat) {m m' : Nat} (_ : m ≤ n) (_ : m' ≤ n') {s s' : State}
    (_ : P.Shadow s s') (_ : s.left < m) (_ : s'.left < m'),
    P.Bodies m m' (statements sub n s) (statements sub n' s')
  | 0, _, _, _, hm, _, _, _, _, hleft, _ => absurd hleft (by omega)
  | _, 0, _, _, _, hm', _, _, _, _, hleft' => absurd hleft' (by omega)
  | n + 1, n' + 1, m, m', hm, hm', s, s', hs, hleft, hleft' => by
    by_cases hend : s.current.kind = .closeBlock ∨ s.current.kind = .eof
    · have hend' : s'.current.kind = .closeBlock ∨ s'.current.kind = .eof := hs.current.kind ▸ hend
      rw [statements_of_closing hend, statements_of_closing hend']
      exact .inr (.inr ⟨hs, hleft, hleft', rfl, fun _ _ => hend⟩)
    have hend' : ¬(s'.current.kind = .closeBlock ∨ s'.current.kind = .eof) := hs.current.kind ▸ hend
    rw [statements_succ n hend, statements_succ n' hend']
    have hfirst := (mirrors_statement hsub).attempt.near hs hleft hleft' fun h => hend (.inr h)
    rcases hx : attempt (statement sub) s with ⟨e | found, s₁⟩ <;>
      rcases hx' : attempt (statement sub) s' with ⟨e' | found', s₁'⟩ <;>
      rw [hx, hx'] at hfirst
    · refine hfirst.imp_right fun ha => .inr ⟨ha.shadow, ha.left, ha.left', ?_, nofun⟩
      cases ha.result
      rfl
    · exact hfirst.imp_right fun ha => nomatch ha.result
    · exact .inl (keep_statements hsub n (hfirst.resolve_right fun ha => nomatch ha.result).consume)
    · rcases hfirst with hlost | ⟨hs₁, hleft₁, hleft₁', hfound, -⟩
      · exact .inl (keep_statements hsub n hlost.consume)
      replace hfound : found.map P.tree = found'.map P.tree := Except.ok.inj hfound
      dsimp only at hs₁ hleft₁ hleft₁' ⊢
      by_cases hahead : s₁.ahead.kind = .eof
      · exact bodies_of_eof hfound hs₁ hleft₁ hleft₁' hahead
      · have hless := State.left_consume hs₁.padded hahead
        have hless' := State.left_consume hs₁.padded' ((hs₁.ahead (.inr hahead)).kind ▸ hahead)
        exact (bodies_statements n n' (by omega) (by omega) (hs₁.consume (.inr hahead)) (by omega)
          (by omega)).cons hfound

omit hsub in
theorem finishBlock_apply (n : Nat) (t : Token) (s : State) :
    (do let body ← statements sub n
        if (← current).kind = .eof then report (.openBlock t)
        return .block t body : Reader (Node Token)) s =
      match statements sub n s with
      | (.ok body, s₁) =>
        (.ok (.block t body), if s₁.current.kind = .eof then s₁.report (.openBlock t) else s₁)
      | (.error e, s₁) => (.error e, s₁) := by
  rw [bind_apply]
  rcases statements sub n s with ⟨e | body, s₁⟩
  · rfl
  · change (if s₁.current.kind = .eof then report (.openBlock t) >>= fun _ => pure (.block t body)
      else (pure (.block t body) : Reader (Node Token))) s₁ = (_, if s₁.current.kind = .eof then _ else _)
    split <;> rfl

omit hsub in
theorem tree_block {t t' : Token} (ht : P.view t = P.view t') {body body' : List (Node Token)}
    (hbody : body.map P.tree = body'.map P.tree) : P.tree (.block t body) = P.tree (.block t' body') := by
  rw [tree, tree, Node.mapNotes, Node.mapNotes, Node.mapNotesAll_eq_map, Node.mapNotesAll_eq_map, ht]
  exact congrArg _ hbody

omit hsub in
theorem lost_finishBlock {n : Nat} (t : Token) {s : State} (hlost : P.Lost (statements sub n s).2) :
    P.Lost ((do let body ← statements sub n
                if (← current).kind = .eof then report (.openBlock t)
                return .block t body : Reader (Node Token)) s).2 := by
  rw [finishBlock_apply]
  rcases hx : statements sub n s with ⟨e | body, s₁⟩ <;> rw [hx] at hlost
  · exact hlost
  · dsimp only
    split
    · exact hlost.report _
    · exact hlost

/-- The end of a block is seen in both lists, or the first one has no end for it. -/
theorem mirrors_finishBlock {t t' : Token} (ht : P.view t = P.view t') {m m' n n' : Nat} (hm : m ≤ n)
    (hm' : m' ≤ n') :
    P.Mirrors m m' (fun _ => True) P.tree (fun _ => P.Inside)
      (do let body ← statements sub n
          if (← current).kind = .eof then report (.openBlock t)
          return .block t body)
      (do let body ← statements sub n'
          if (← current).kind = .eof then report (.openBlock t')
          return .block t' body) where
  near {s s'} hs hleft hleft' _ := by
    rcases bodies_statements hsub n n' hm hm' hs hleft hleft' with hlost | ⟨hnext, ⟨body, hbody⟩, heof⟩ | ha
    · exact .inl (lost_finishBlock t hlost)
    · refine .inl ⟨hnext, t, ?_⟩
      rw [finishBlock_apply, show statements sub n s = (.ok body, _) from Prod.ext hbody rfl]
      simp [heof, State.report]
    · refine .inr ?_
      rw [finishBlock_apply, finishBlock_apply]
      rcases hx : statements sub n s with ⟨e | body, s₁⟩ <;>
        rcases hx' : statements sub n' s' with ⟨e' | body', s₁'⟩ <;>
        rw [hx, hx'] at ha
      · exact ⟨ha.shadow, ha.left, ha.left', by cases ha.result; rfl, nofun⟩
      · cases ha.result
      · cases ha.result
      · have hresult : (Except.ok (.block t body) : Except Halt _).map P.tree =
            (Except.ok (.block t' body')).map P.tree :=
          congrArg Except.ok (tree_block ht (Except.ok.inj ha.result))
        have hinside : P.Inside s₁ :=
          (ha.ends body rfl).elim (inside_of_kind · (by decide)) (inside_of_kind · (by decide))
        dsimp only
        rw [← ha.shadow.current.kind]
        split
        · exact ⟨ha.shadow.report (.openBlock ht), ha.left, ha.left', hresult, fun _ _ => hinside⟩
        · exact ⟨ha.shadow, ha.left, ha.left', hresult, fun _ _ => hinside⟩
  keep hlost := lost_finishBlock t (keep_statements hsub n hlost)

theorem mirrors_block {m m' : Nat} :
    P.Mirrors m m' (fun s => s.current.kind = .openBlock) P.tree (fun _ => P.Inside) (block sub)
      (block sub) := by
  refine .traced (fun _ => id) (fun _ _ => id) (.token (fun _ h => by simp [h]) fun t t' ht => ?_)
  refine .consume (Q := fun _ => True) (fun _ h => inside_of_kind h (by decide)) (fun _ _ => trivial) ?_
  exact .budget fun n n' m m' hm hm' => mirrors_finishBlock hsub ht hm hm'

/-! ## Expressions -/

omit hsub in
theorem mirrors_integer {m m' : Nat} :
    P.Mirrors m m' (fun s => s.current.kind = .int) P.tree (fun _ => P.Inside) integer integer := by
  refine .token (fun _ h => by simp [h]) fun t t' ht => ?_
  rw [← (P.view_inj ht).2]
  cases Text.readInt t.literal with
  | error e => exact .reject (.same _)
  | ok n =>
    dsimp only
    split
    next => exact .pure (by simp [tree, Node.mapNotes, ht]) fun _ h => inside_of_kind h (by decide)
    next => exact .reject (.same _)

theorem mirrors_grouped {m m' : Nat} :
    P.Mirrors m m' P.Inside P.tree (fun _ => P.Inside) (grouped sub) (grouped sub) := by
  refine .consume (Q := fun _ => True) (fun _ => id) (fun _ _ => trivial) ?_
  refine .bind (hsub.lowest _ _ _) fun e e' he => .expect (fun _ => id) ?_
  exact .pure he fun _ h => inside_of_kind h (by decide)

theorem mirrors_unary {m m' : Nat} :
    P.Mirrors m m' (fun s => P.Inside s ∧ s.current.kind ≠ .eof) P.tree (fun _ => P.Inside) (unary sub)
      (unary sub) := by
  refine .traced (fun _ => id) (fun _ _ => id) (.token (fun _ h => h.2) fun t t' ht => ?_)
  refine .consume (Q := fun _ => True) (fun _ h => h.1) (fun _ _ => trivial) ?_
  refine .bind (hsub _ _ tight (by decide)) fun e e' he => .pure ?_ fun _ => id
  rw [tree, tree] at he
  simp [tree, Node.mapNotes, ht, (P.view_inj ht).2, he]

theorem mirrors_alternative {m m' : Nat} :
    P.Mirrors m m' P.Inside P.tree (fun _ => P.Inside) (alternative sub) (alternative sub) := by
  refine .ahead (fun _ => id) fun t t' ht => ?_
  rw [← ht.kind]
  split
  next helse =>
    refine .consume (Q := P.Inside) (fun _ h => h.1) (fun s h => .inr (by simp [h.2, helse])) ?_
    exact .expect (fun _ => id) (mirrors_block hsub)
  next => exact .pure rfl fun _ h => h.1

theorem mirrors_conditional {m m' : Nat} :
    P.Mirrors m m' (fun s => s.current.kind = .ifWord) P.tree (fun _ => P.Inside) (conditional sub)
      (conditional sub) := by
  refine .traced (fun _ => id) (fun _ _ => id) (.token (fun _ h => by simp [h]) fun t t' ht => ?_)
  refine .expect (fun _ h => inside_of_kind h (by decide)) ?_
  refine .consume (Q := fun _ => True) (fun _ h => inside_of_kind h (by decide)) (fun _ _ => trivial) ?_
  refine .bind (hsub.lowest _ _ _) fun c c' hc => .expect (fun _ => id) ?_
  refine .expect (fun _ h => inside_of_kind h (by decide)) ?_
  refine .bind (mirrors_block hsub) fun b b' hb => .bind (mirrors_alternative hsub) fun e e' he => ?_
  refine .pure ?_ fun _ => id
  rw [tree, tree] at hc hb he
  simp [tree, Node.mapNotes, ht, hc, hb, he]

theorem mirrors_function {m m' : Nat} :
    P.Mirrors m m' (fun s => s.current.kind = .fnWord) P.tree (fun _ => P.Inside) (function sub)
      (function sub) := by
  refine .traced (fun _ => id) (fun _ _ => id) (.token (fun _ h => by simp [h]) fun t t' ht => ?_)
  refine .expect (fun _ h => inside_of_kind h (by decide)) ?_
  refine .bind (mirrors_params.at_kind (by decide)) fun xs xs' hxs => ?_
  refine .expect (fun _ => id) (.bind (mirrors_block hsub) fun b b' hb => .pure ?_ fun _ => id)
  have hxs : xs.map (·.map P.view) = xs'.map (·.map P.view) := hxs
  rw [tree, tree] at hb
  simp [tree, Node.mapNotes, ht, hxs, hb]

theorem mirrors_array {m m' : Nat} :
    P.Mirrors m m' (fun s => s.current.kind = .lbracket) P.tree (fun _ => P.Inside) (array sub)
      (array sub) := by
  refine .token (fun _ h => by simp [h]) fun t t' ht => ?_
  refine .bind ((mirrors_items hsub (by decide)).at_kind (by decide))
    fun es es' hes => .pure ?_ fun _ => id
  have hes : es.map (·.mapNotes P.view) = es'.map (·.mapNotes P.view) := hes
  simp [tree, Node.mapNotes, Node.mapNotesAll_eq_map, ht, hes]

theorem mirrors_map {m m' : Nat} :
    P.Mirrors m m' (fun s => s.current.kind = .lbrace) P.tree (fun _ => P.Inside) (map sub)
      (map sub) := by
  refine .token (fun _ h => by simp [h]) fun t t' ht => .budget fun n n' m m' hm hm' => ?_
  refine .bind ((mirrors_entries hsub hm hm').at_kind (by decide))
    fun ps ps' hps => .expect (fun _ => id) (.pure ?_ fun _ h => inside_of_kind h (by decide))
  have hps : ps.map (fun p => (p.1.mapNotes P.view, p.2.mapNotes P.view)) =
    ps'.map fun p => (p.1.mapNotes P.view, p.2.mapNotes P.view) := hps
  simp [tree, Node.mapNotes, Node.mapNotesPairs_eq_map, ht, hps]

theorem mirrors_primary {m m' : Nat} :
    P.Mirrors m m' (fun _ => True) P.tree (fun _ => P.Inside) (primary sub) (primary sub) := by
  refine .current fun t t' ht => ?_
  have hkind {kind : Kind} (hk : t.kind = kind) (s : State) (h : True ∧ s.current = t) :
      s.current.kind = kind := h.2 ▸ hk
  -- a token that is an expression by itself
  have hword {kind : Kind} (hk : t.kind = kind) (heof : kind ≠ .eof) (hsemi : kind ≠ .semicolon)
      {n n' : Node Token}
      (hn : P.view t = P.view t' → t.literal = t'.literal → n.mapNotes P.view = n'.mapNotes P.view) :
      P.Mirrors m m' (fun s => True ∧ s.current = t) P.tree (fun _ => P.Inside) (pure n) (pure n') := by
    have hview := ht.view (hk ▸ heof)
    exact .pure (hn hview (P.view_inj hview).2) fun s h => inside_of_kind (hkind hk s h) hsemi
  have hunary {kind : Kind} (hk : t.kind = kind) (heof : kind ≠ .eof) (hsemi : kind ≠ .semicolon) :
      P.Mirrors m m' (fun s => True ∧ s.current = t) P.tree (fun _ => P.Inside) (unary sub) (unary sub) :=
    (mirrors_unary hsub).mono
      (fun s h => ⟨inside_of_kind (hkind hk s h) hsemi, hkind hk s h ▸ heof⟩)
  rw [← ht.kind]
  split
  next hk =>
    exact hword hk (by decide) (by decide) fun hnote htext => by simp [Node.mapNotes, hnote, htext]
  next hk => exact mirrors_integer.mono (hkind hk)
  next hk =>
    exact hword hk (by decide) (by decide) fun hnote htext => by simp [Node.mapNotes, hnote, htext]
  next hk => exact hword hk (by decide) (by decide) fun hnote _ => by simp [Node.mapNotes, hnote]
  next hk => exact hword hk (by decide) (by decide) fun hnote _ => by simp [Node.mapNotes, hnote]
  next hk => exact hunary hk (by decide) (by decide)
  next hk => exact hunary hk (by decide) (by decide)
  next hk => exact hunary hk (by decide) (by decide)
  next hk => exact hunary hk (by decide) (by decide)
  next hk => exact (mirrors_grouped hsub).mono fun s h => inside_of_kind (hkind hk s h) (by decide)
  next hk => exact (mirrors_array hsub).mono (hkind hk)
  next hk => exact (mirrors_map hsub).mono (hkind hk)
  next hk => exact (mirrors_conditional hsub).mono (hkind hk)
  next hk => exact (mirrors_function hsub).mono (hkind hk)
  next => exact .reject (.same _)

/-! ## Operators -/

theorem mirrors_binary {left left' : Node Token} (hleft : P.tree left = P.tree left') {m m' : Nat} :
    P.Mirrors m m' (fun s => P.Inside s ∧ s.current.kind ≠ .eof) P.tree (fun _ => P.Inside)
      (binary sub left) (binary sub left') := by
  refine .traced (fun _ => id) (fun _ _ => id) (.token (fun _ h => h.2) fun t t' ht => ?_)
  refine .consume (Q := fun _ => True) (fun _ h => h.1) (fun _ _ => trivial) ?_
  rw [← (P.view_inj ht).1]
  refine .bind (hsub _ _ _ (lowest_le_bindingPower _)) fun e e' he => .pure ?_ fun _ => id
  rw [tree, tree] at he hleft
  simp [tree, Node.mapNotes, ht, (P.view_inj ht).2, he, hleft]

theorem mirrors_call {left left' : Node Token} (hleft : P.tree left = P.tree left') {m m' : Nat} :
    P.Mirrors m m' (fun s => s.current.kind = .lparen) P.tree (fun _ => P.Inside) (call sub left)
      (call sub left') := by
  refine .traced (fun _ => id) (fun _ _ => id) (.token (fun _ h => by simp [h]) fun t t' ht => ?_)
  refine .bind ((mirrors_items hsub (by decide)).at_kind (by decide))
    fun es es' hes => .pure ?_ fun _ => id
  have hes : es.map (·.mapNotes P.view) = es'.map (·.mapNotes P.view) := hes
  rw [tree, tree] at hleft
  simp [tree, Node.mapNotes, Node.mapNotesAll_eq_map, ht, hes, hleft]

theorem mirrors_index {left left' : Node Token} (hleft : P.tree left = P.tree left') {m m' : Nat} :
    P.Mirrors m m' (fun s => s.current.kind = .lbracket) P.tree (fun _ => P.Inside) (index sub left)
      (index sub left') := by
  refine .traced (fun _ => id) (fun _ _ => id) (.token (fun _ h => by simp [h]) fun t t' ht => ?_)
  refine .consume (Q := fun _ => True) (fun _ h => inside_of_kind h (by decide)) (fun _ _ => trivial) ?_
  refine .bind (hsub.lowest _ _ _) fun e e' he => .expect (fun _ => id) ?_
  refine .pure ?_ fun _ h => inside_of_kind h (by decide)
  rw [tree, tree] at he hleft
  simp [tree, Node.mapNotes, ht, he, hleft]

theorem mirrors_extend {left left' : Node Token} (hleft : P.tree left = P.tree left') {m m' : Nat} :
    P.Mirrors m m' (fun s => P.Inside s ∧ s.current.kind ≠ .eof) P.tree (fun _ => P.Inside)
      (extend sub left) (extend sub left') := by
  refine .current fun t t' ht => ?_
  rw [← ht.kind]
  split
  next hk => exact (mirrors_call hsub hleft).mono fun s h => by rw [h.2, hk]
  next hk => exact (mirrors_index hsub hleft).mono fun s h => by rw [h.2, hk]
  next => exact (mirrors_binary hsub hleft).mono fun s h => h.1

theorem mirrors_climb {level : Nat} (hlevel : lowest ≤ level) {left left' : Node Token}
    (hleft : P.tree left = P.tree left') {m m' n n' : Nat} (hm : m ≤ n) (hm' : m' ≤ n') :
    P.Mirrors m m' P.Inside P.tree (fun _ => P.Inside) (climb sub level n left)
      (climb sub level n' left') := by
  refine Mirrors.loop (u := P.tree) (p := fun e n => climb sub level n e)
    (q := fun e n => climb sub level n e) (fun _ _ => id) ?_ n n' left left' m m' hleft hm hm'
  intro n n' ih left left' m m' hleft hm hm'
  refine .ahead (fun _ => id) fun t t' ht => ?_
  rw [← ht.kind]
  split
  next hbinds =>
    have heof : t.kind ≠ .eof := by
      intro h
      rw [h] at hbinds
      exact absurd hbinds (Nat.not_lt.2 hlevel)
    have hsemi : t.kind ≠ .semicolon := by
      intro h
      rw [h] at hbinds
      exact absurd hbinds (Nat.not_lt.2 hlevel)
    refine .consume_token (Q := fun s => P.Inside s ∧ s.current.kind ≠ .eof) (fun _ h => h.1)
      (fun s h => h.2 ▸ heof) (fun s h => ?_) ?_
    · rw [State.current_consume, h.2]
      exact ⟨.inr (by rwa [State.current_consume, h.2]), heof⟩
    · exact .bind (mirrors_extend hsub hleft) fun e e' he => ih e e' _ _ he (by omega) (by omega)
  next => exact .pure hleft fun _ h => h.1

end Phrases

/-- **Expressions** are read the same way, at every depth of nesting. -/
theorem mirrors_expression : ∀ depth : Nat, P.Sub (expression depth)
  | 0, _, _, _, _ => .throw _
  | depth + 1, m, m', level, hlevel => by
    have hsub := mirrors_expression depth
    refine .traced (fun _ => id) (fun _ _ => id) (.bind (mirrors_primary hsub) fun e e' he => ?_)
    exact .budget fun n n' m m' hm hm' => mirrors_climb hsub hlevel he hm hm'


/-! ## Programs -/

section Programs

variable {sub : Parse.Sub} (hsub : P.Sub sub)
include hsub

theorem keep_programBody : ∀ (n : Nat) {s : State}, P.Lost s → P.Lost (programBody sub n s).2
  | 0, _, hlost => hlost
  | n + 1, s, hlost => by
    have hstatement : P.Mirrors 0 0 _ _ _ _ _ := mirrors_statement hsub
    have hfirst := hstatement.keep hlost
    rw [programBody_succ]
    split
    · exact hlost
    · rcases hx : statement sub s with ⟨(_ | _) | stmt, s₁⟩ <;> rw [hx] at hfirst
      · exact keep_programBody n hfirst.consume
      · exact hfirst.report _
      · exact keep_programBody n hfirst.consume

/-- **Programs of lists that look the same** look the same, with the same problems. -/
theorem programBody_same (hnext : P.next = none) : ∀ (n n' : Nat) {s s' : State} (_ : P.Shadow s s')
    (_ : s.left < n) (_ : s'.left < n'),
    (programBody sub n s).1.map P.tree = (programBody sub n' s').1.map P.tree ∧
      P.Shadow (programBody sub n s).2 (programBody sub n' s').2
  | 0, _, _, _, _, hleft, _ => absurd hleft (by omega)
  | _, 0, _, _, _, _, hleft' => absurd hleft' (by omega)
  | n + 1, n' + 1, s, s', hs, hleft, hleft' => by
    rw [programBody_succ, programBody_succ, ← hs.current.kind]
    split
    · exact ⟨rfl, hs⟩
    next heof =>
    have hfirst := ((mirrors_statement hsub).near hs hleft hleft' heof).resolve_left fun h => h.1 hnext
    -- the statements that follow
    have hmore {s₁ s₁' : State} (hs₁ : P.Shadow s₁ s₁') (hleft₁ : s₁.left < n + 1)
        (hleft₁' : s₁'.left < n' + 1) :
        (programBody sub n s₁.consume).1.map P.tree = (programBody sub n' s₁'.consume).1.map P.tree ∧
          P.Shadow (programBody sub n s₁.consume).2 (programBody sub n' s₁'.consume).2 := by
      have hs₂ := hs₁.consume (.inl hnext)
      have hkind := (hs₁.ahead (.inl hnext)).kind
      by_cases hahead : s₁.ahead.kind = .eof
      · rw [programBody_of_eof (by rwa [State.current_consume]),
          programBody_of_eof (by rwa [State.current_consume, ← hkind])]
        exact ⟨rfl, hs₂⟩
      · have hless := State.left_consume hs₁.padded hahead
        have hless' := State.left_consume hs₁.padded' (hkind ▸ hahead)
        exact programBody_same hnext n n' hs₂ (by omega) (by omega)
    rcases hx : statement sub s with ⟨(_ | _) | stmt, s₁⟩ <;>
      rcases hx' : statement sub s' with ⟨(_ | _) | stmt', s₁'⟩ <;>
      rw [hx, hx'] at hfirst <;> have hresult := hfirst.result <;> try cases hresult
    · exact hmore hfirst.shadow hfirst.left hfirst.left'
    · exact ⟨rfl, hfirst.shadow.report (.same _)⟩
    · obtain ⟨hbody, hfinal⟩ := hmore hfirst.shadow hfirst.left hfirst.left'
      have hstmt : P.tree stmt = P.tree stmt' := Except.ok.inj hresult
      exact ⟨by rw [List.map_cons, List.map_cons, hstmt, hbody], hfinal⟩

/-- The second reader finds the statements `body`, with the problems of the state `s`, and then stands at
the state `s'` before tokens that look like those from the state `b` on. -/
structure Onward (P : Echo α) (b : State) (body : List (Node Token)) (s : State)
    (body' : List (Node Token)) (s' : State) : Prop where
  body : body'.map P.tree = body.map P.tree
  padded : s'.Padded
  streams : P.Streams b.nth s'.nth 0
  problems : ∃ found, s'.problems.toList = P.before ++ found ∧ List.Forall₂ P.Alike s.problems.toList found

omit hsub in
/-- At the last semicolon of the first list. -/
theorem Shadow.onward {s s' : State} (hs : P.Shadow s s') {b : State} (hnext : P.next = some b)
    (hahead : s.ahead.kind = .eof) (body : List (Node Token)) :
    P.Onward b body s.consume body s'.consume := by
  obtain ⟨_ | k, hk⟩ := hs.ends hnext
  · exact ⟨rfl, hs.padded'.consume, hk.further.pass hs.padded', by simpa using hs.problems⟩
  · exact absurd hahead (hk.upTo 1 (by omega)).1

/-- What comes of two programs, the second of which goes on as from the state `b` where the first one
ends: it has the statements and the problems of the first one, and then what follows is read as it is by
itself. Where a block is still open, or expressions are nested too deeply, nothing is said. -/
def Continues (P : Echo α) (sub : Parse.Sub) (b : State) (o o' : List (Node Token) × State) : Prop :=
  P.Lost o.2 ∨ .tooDeep ∈ o.2.problems ∨ ∃ body' k s', s'.left < k ∧ P.Onward b o.1 o.2 body' s' ∧
    o' = (body' ++ (programBody sub k s').1, (programBody sub k s').2)

omit hsub in
theorem Continues.cons {b : State} {o o' : List (Node Token) × State} (h : P.Continues sub b o o')
    {stmt stmt' : Node Token} (hstmt : P.tree stmt = P.tree stmt') :
    P.Continues sub b (stmt :: o.1, o.2) (stmt' :: o'.1, o'.2) := by
  rcases h with hlost | hdeep | ⟨body', k, s', hless, honward, rfl⟩
  · exact .inl hlost
  · exact .inr (.inl hdeep)
  · refine .inr (.inr ⟨stmt' :: body', k, s', hless, { honward with body := ?_ }, rfl⟩)
    rw [List.map_cons, List.map_cons, hstmt, honward.body]

/-- **A program that goes on after the semicolon of another one.** -/
theorem programBody_further {b : State} (hnext : P.next = some b) :
    ∀ (n n' : Nat) {s s' : State} (_ : P.Shadow s s') (_ : s.left < n) (_ : s'.left < n'),
    P.Continues sub b (programBody sub n s) (programBody sub n' s')
  | 0, _, _, _, _, hleft, _ => absurd hleft (by omega)
  | _, 0, _, _, _, _, hleft' => absurd hleft' (by omega)
  | n + 1, n' + 1, s, s', hs, hleft, hleft' => by
    have heof : s.current.kind ≠ .eof := by
      obtain ⟨k, hk⟩ := hs.ends hnext
      exact (hk.upTo 0 (Nat.zero_le k)).1
    rw [programBody_succ, programBody_succ, if_neg heof, if_neg (hs.current.kind ▸ heof)]
    -- the statements that follow in the first list, and where the second one goes on
    have hmore {s₁ s₁' : State} (hs₁ : P.Shadow s₁ s₁') (hleft₁ : s₁.left < n + 1)
        (hleft₁' : s₁'.left < n' + 1) :
        P.Continues sub b (programBody sub n s₁.consume) (programBody sub n' s₁'.consume) := by
      by_cases hahead : s₁.ahead.kind = .eof
      · have honward := hs₁.onward hnext hahead []
        rw [programBody_of_eof (by rwa [State.current_consume])]
        by_cases hahead' : s₁'.ahead.kind = .eof
        · -- nothing follows, so that it does not matter how many statements may
          have hnothing := programBody_of_eof (s := s₁'.consume) (by rwa [State.current_consume]) sub
          refine .inr (.inr ⟨[], s₁'.consume.left + 1, s₁'.consume, Nat.lt_succ_self _, honward, ?_⟩)
          rw [hnothing, hnothing]
          rfl
        · have hless := State.left_consume hs₁.padded' hahead'
          exact .inr (.inr ⟨[], n', s₁'.consume, by omega, honward, rfl⟩)
      · have hless := State.left_consume hs₁.padded hahead
        have hless' := State.left_consume hs₁.padded' ((hs₁.ahead (.inr hahead)).kind ▸ hahead)
        exact programBody_further hnext n n' (hs₁.consume (.inr hahead)) (by omega) (by omega)
    rcases (mirrors_statement hsub).near hs hleft hleft' heof with hlost | ha
    · left
      rcases hx : statement sub s with ⟨(_ | _) | stmt, s₁⟩ <;> rw [hx] at hlost
      · exact keep_programBody hsub n hlost.consume
      · exact hlost.report _
      · exact keep_programBody hsub n hlost.consume
    · rcases hx : statement sub s with ⟨(_ | _) | stmt, s₁⟩ <;>
        rcases hx' : statement sub s' with ⟨(_ | _) | stmt', s₁'⟩ <;>
        rw [hx, hx'] at ha <;> have hresult := ha.result <;> try cases hresult
      · exact hmore ha.shadow ha.left ha.left'
      · exact .inr (.inl Array.mem_push_self)
      · exact (hmore ha.shadow ha.left ha.left').cons (Except.ok.inj hresult)

end Programs

end SepiaLang.Parse.Echo
