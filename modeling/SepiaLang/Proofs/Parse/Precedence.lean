import SepiaLang.Proofs.Parse.Local
import SepiaLang.Proofs.Parse.Spelling

/-!
# Chains of operators

Operands with operators between them are read as one tree. Its operands and operators stand in the
order of the list, and at each operator the tree on the left binds at least as tightly as the operator
and the tree on the right binds more tightly. There is exactly one such tree.

* `Operand`: tokens that are read as an operand, whatever operator follows (`Operand.read_before`).
* `Chain`: trees over operands, with their operands and operators in order.
* `Chain.Grouped`: each operator groups what stands around it by how tightly it binds.
* `Chain.eq_build`: there is one grouped tree for each sequence.
* `Chain.read`: a grouped tree is what is read from its tokens.
* **`chain_read_as_grouped`**: chains of any length.
-/

namespace SepiaLang.Parse

open SepiaLang.Computation

/-! ## Operands -/

/-- Tokens that are read as the operand of a sign, all of them and without a problem: the tree that is
read, and how deeply expressions may be nested for it. No token is the end of the list, and none is
left. -/
structure Operand where
  tokens : List Token
  tree : Node Token
  depth : Nat
  plain : ∀ t ∈ tokens, t.kind ≠ .eof
  result : (expression depth tight (State.start tokens)).1 = .ok tree
  clean : (expression depth tight (State.start tokens)).2.problems = #[]
  whole : (expression depth tight (State.start tokens)).2.left = 0

theorem upToEnd_eq_self : ∀ {ts : List Token}, (∀ t ∈ ts, t.kind ≠ .eof) → upToEnd ts = ts
  | [], _ => rfl
  | t :: ts, h => by
    rw [upToEnd_cons (h t (List.mem_cons_self ..)),
      upToEnd_eq_self fun u hu => h u (List.mem_cons_of_mem _ hu)]

/-- Where no token is an `eof`, all tokens after the first one are to come. -/
theorem State.left_start {ts : List Token} (h : ∀ t ∈ ts, t.kind ≠ .eof) :
    (start ts).left = ts.length - 1 := by
  rcases ts with _ | ⟨t, _ | ⟨u, rest⟩⟩
  · rfl
  · have ht : t.kind ≠ .eof := h t (by simp)
    simp [State.left, start, State.consume, ht]
  · change (u :: rest).countP _ = _
    rw [List.countP_eq_length.2 fun x hx => by simpa using h x (List.mem_cons_of_mem _ hx)]
    rfl

namespace Operand

variable (o : Operand)

theorem depth_pos : 0 < o.depth := by
  have hresult := o.result
  rcases hdepth : o.depth with _ | depth
  · rw [hdepth] at hresult
    cases hresult
  · exact Nat.succ_pos depth

/-- The first token of an operand, and those after it. -/
theorem exists_start : ∃ first ts, o.tokens = first :: ts ∧ (State.start o.tokens).current = first ∧
    (State.start o.tokens).coming = ts := by
  have hpending := State.pending_start o.tokens
  rw [upToEnd_eq_self o.plain] at hpending
  have hcurrent : (State.start o.tokens).current.kind ≠ .eof :=
    fun heof => expression_at_end heof _ _ _ _ (Prod.ext o.result rfl)
  rw [State.pending_eq_cons hcurrent] at hpending
  exact ⟨_, _, hpending.symm, rfl, rfl⟩

/-- An operand by itself and before further tokens. -/
theorem beside {t : State} {more : List Token} (ht : t.Padded) (h : t.pending = o.tokens ++ more) :
    Beside t.problems.toList more (State.start o.tokens) t := by
  obtain ⟨first, ts, hts, hfirst, hcoming⟩ := o.exists_start
  have hleft := State.left_start o.plain
  have hcurrent : t.current.kind ≠ .eof := by
    intro heof
    rw [State.pending_eq_nil heof, hts] at h
    cases h
  rw [State.pending_eq_cons hcurrent, hts, List.cons_append] at h
  obtain ⟨hcurrent, hrest⟩ := List.cons.inj h
  exact {
    padded := State.padded_start _
    padded' := ht
    current := by rw [hcurrent, hfirst]
    whole := by rw [hcoming, hleft, hts, List.length_cons, Nat.add_sub_cancel]
    coming := by rw [hrest, hcoming]
    problems := by simp [State.problems_start] }

/-- **Operands before further tokens** are read as they are by themselves, under every limit that is
large enough, unless what follows goes on with them. -/
theorem read_before {limit : Nat} (hlimit : o.depth ≤ limit) {t : State} {more : List Token} (ht : t.Padded)
    (h : t.pending = o.tokens ++ more) (hmore : Follows tight (more.map Token.bare)) :
    ∃ t', expression limit tight t = (.ok o.tree, t') ∧ t'.Padded ∧ t'.coming = more ∧
      t'.problems = t.problems := by
  obtain ⟨t', ht', hbeside⟩ := joined_expression hmore o.depth (o.beside ht h) o.tree _
    (Prod.ext o.result rfl) o.clean
  have hsame : expression limit tight t = (.ok o.tree, t') := by
    rcases ((outlasts_expression hlimit).related tight (by decide)).near t with hnear | ⟨hstop, -⟩
    · rw [← hnear, ht']
    · rw [ht'] at hstop
      cases hstop
  refine ⟨t', hsame, hbeside.padded', ?_, ?_⟩
  · rw [hbeside.coming, State.coming_eq_nil (State.ahead_of_left o.whole), List.nil_append]
  · apply Array.toList_inj.1
    rw [hbeside.problems, o.clean, List.append_nil]

end Operand

/-! ## Trees over operands -/

/-- Operands with operators between them, grouped in some way. -/
inductive Chain where
  | operand (o : Operand)
  | node (op : Token) (left right : Chain)

namespace Chain

/-- The operand with which the sequence starts. -/
def first : Chain → Operand
  | operand o => o
  | node _ left _ => left.first

/-- The operators in order, each with the operand after it. -/
def rest : Chain → List (Token × Operand)
  | operand _ => []
  | node op left right => left.rest ++ (op, right.first) :: right.rest

/-- The tree of the whole. -/
def tree : Chain → Node Token
  | operand o => o.tree
  | node op left right => .binary op op.literal left.tree right.tree

/-- How deeply expressions may be nested for it: an operator is read where its left side is, and its
right side is an expression by itself. -/
def depth : Chain → Nat
  | operand o => o.depth
  | node _ left right => max left.depth (right.depth + 1)

/-- If the root is an operator, it binds at least as tightly as the power tells. -/
def RootAtLeast (power : Nat) : Chain → Prop
  | operand _ => True
  | node op _ _ => power ≤ bindingPower op.kind

instance (power : Nat) : (c : Chain) → Decidable (c.RootAtLeast power)
  | operand _ => .isTrue trivial
  | node op _ _ => inferInstanceAs (Decidable (power ≤ bindingPower op.kind))

/-- At each operator the left side binds at least as tightly, and the right side more tightly. -/
def Grouped : Chain → Prop
  | operand _ => True
  | node op left right => left.Grouped ∧ right.Grouped ∧ left.RootAtLeast (bindingPower op.kind) ∧
      right.RootAtLeast (bindingPower op.kind + 1)

instance decidableGrouped : (c : Chain) → Decidable c.Grouped
  | operand _ => .isTrue trivial
  | node op left right =>
    have := decidableGrouped left
    have := decidableGrouped right
    inferInstanceAs (Decidable (left.Grouped ∧ right.Grouped ∧ left.RootAtLeast (bindingPower op.kind) ∧
      right.RootAtLeast (bindingPower op.kind + 1)))

/-- The tokens of a sequence of operands and operators. -/
def tokens (c : Chain) : List Token := c.first.tokens ++ c.rest.flatMap fun p => p.1 :: p.2.tokens

theorem tokens_node (op : Token) (left right : Chain) :
    (node op left right).tokens = left.tokens ++ op :: right.tokens := by
  simp [tokens, first, rest]

theorem RootAtLeast.mono {p q : Nat} (hle : q ≤ p) : ∀ {c : Chain}, c.RootAtLeast p → c.RootAtLeast q
  | operand _, _ => trivial
  | node _ _ _, h => Nat.le_trans hle h

theorem depth_pos : ∀ c : Chain, 0 < c.depth
  | operand o => o.depth_pos
  | node _ _ _ => Nat.lt_of_lt_of_le (Nat.succ_pos _) (Nat.le_max_right _ _)

/-! ### One tree for each sequence -/

/-- One operator more, with the operand after it: it goes as far down on the right as operators bind
less tightly. -/
def push (op : Token) (o : Operand) : Chain → Chain
  | operand o' => node op (operand o') (operand o)
  | node op' left right =>
    if bindingPower op'.kind < bindingPower op.kind then node op' left (right.push op o)
    else node op (node op' left right) (operand o)

/-- The grouped tree of a sequence. -/
def build (o : Operand) (rest : List (Token × Operand)) : Chain :=
  rest.foldl (fun c p => c.push p.1 p.2) (operand o)

variable {op : Token} {o : Operand}

theorem first_push : ∀ c : Chain, (c.push op o).first = c.first
  | operand _ => rfl
  | node op' left right => by
    rw [push]
    split <;> rfl

theorem rest_push : ∀ c : Chain, (c.push op o).rest = c.rest ++ [(op, o)]
  | operand _ => rfl
  | node op' left right => by
    rw [push]
    split
    · simp [rest, rest_push right, first_push right]
    · simp [rest, first]

theorem RootAtLeast.push {p : Nat} (hp : p ≤ bindingPower op.kind) :
    ∀ {c : Chain}, c.RootAtLeast p → (c.push op o).RootAtLeast p
  | operand _, _ => hp
  | node op' left right, h => by
    rw [Chain.push]
    split
    · exact h
    · exact hp

theorem Grouped.push : ∀ {c : Chain}, c.Grouped → (c.push op o).Grouped
  | operand _, _ => ⟨trivial, trivial, trivial, trivial⟩
  | node op' left right, h => by
    obtain ⟨hleft, hright, hl, hr⟩ := h
    rw [Chain.push]
    split
    next hlt => exact ⟨hleft, hright.push, hl, hr.push hlt⟩
    next hle => exact ⟨⟨hleft, hright, hl, hr⟩, trivial, Nat.not_lt.1 hle, trivial⟩

theorem foldl_push_spec (rest : List (Token × Operand)) : ∀ {c : Chain}, c.Grouped →
    (rest.foldl (fun c p => c.push p.1 p.2) c).Grouped ∧
      (rest.foldl (fun c p => c.push p.1 p.2) c).first = c.first ∧
      (rest.foldl (fun c p => c.push p.1 p.2) c).rest = c.rest ++ rest := by
  induction rest with
  | nil => exact fun h => ⟨h, rfl, (List.append_nil _).symm⟩
  | cons p rest ih =>
    intro c h
    obtain ⟨hgrouped, hfirst, hrest⟩ := ih (h.push : (c.push p.1 p.2).Grouped)
    refine ⟨hgrouped, hfirst.trans (first_push c), ?_⟩
    rw [List.foldl_cons, hrest, rest_push, List.append_assoc]
    rfl

/-- The tree that is built is grouped, and has the operands and operators in order. -/
theorem build_spec (o : Operand) (rest : List (Token × Operand)) :
    (build o rest).Grouped ∧ (build o rest).first = o ∧ (build o rest).rest = rest :=
  foldl_push_spec rest (c := operand o) trivial

/-- In a grouped tree the root binds least. -/
theorem Grouped.le_of_mem_rest {p : Nat} : ∀ {c : Chain}, c.Grouped → c.RootAtLeast p →
    ∀ q ∈ c.rest, p ≤ bindingPower q.1.kind
  | operand _, _, _, _, hq => by cases hq
  | node op left right, ⟨hleft, hright, hl, hr⟩, h, q, hq => by
    have hroot : p ≤ bindingPower op.kind := h
    rcases List.mem_append.1 hq with hq | hq
    · exact hleft.le_of_mem_rest (hl.mono hroot) q hq
    · rcases List.mem_cons.1 hq with rfl | hq
      · exact hroot
      · exact hright.le_of_mem_rest (hr.mono (Nat.le_succ_of_le hroot)) q hq

theorem push_of_rootAtLeast : ∀ {c : Chain}, c.RootAtLeast (bindingPower op.kind) →
    c.push op o = node op c (operand o)
  | operand _, _ => rfl
  | node op' left right, h => by
    rw [push, if_neg (Nat.not_lt.2 h)]

/-- Operators that bind more tightly than the root stay on its right. -/
theorem foldl_push_node {left : Chain} : ∀ (rest : List (Token × Operand)) (c : Chain),
    (∀ q ∈ rest, bindingPower op.kind < bindingPower q.1.kind) →
    rest.foldl (fun c p => c.push p.1 p.2) (node op left c) =
      node op left (rest.foldl (fun c p => c.push p.1 p.2) c)
  | [], _, _ => rfl
  | q :: rest, c, h => by
    rw [List.foldl_cons, push, if_pos (h q (List.mem_cons_self ..)),
      foldl_push_node rest _ fun q' hq' => h q' (List.mem_cons_of_mem _ hq')]
    rfl

/-- **A grouped tree is the one that is built from its sequence.** -/
theorem Grouped.eq_build : ∀ {c : Chain}, c.Grouped → c = build c.first c.rest
  | operand _, _ => rfl
  | node op left right, ⟨hleft, hright, hl, hr⟩ => by
    have hmore : ∀ q ∈ right.rest, bindingPower op.kind < bindingPower q.1.kind :=
      hright.le_of_mem_rest hr
    calc node op left right
        = node op left (build right.first right.rest) := by rw [← hright.eq_build]
      _ = right.rest.foldl (fun c p => c.push p.1 p.2) (node op left (operand right.first)) :=
        (foldl_push_node right.rest _ hmore).symm
      _ = right.rest.foldl (fun c p => c.push p.1 p.2) (left.push op right.first) := by
        rw [push_of_rootAtLeast hl]
      _ = right.rest.foldl (fun c p => c.push p.1 p.2)
          ((build left.first left.rest).push op right.first) := by rw [← hleft.eq_build]
      _ = build left.first (left.rest ++ (op, right.first) :: right.rest) := by
        rw [build, build, List.foldl_append, List.foldl_cons]

end Chain

/-! ## Reading -/

/-- What is read at the tightest level is read first at the other levels. -/
theorem climb_of_tight {sub : Sub} (hsub : sub.Forward) {level : Nat} (hlevel : lowest ≤ level)
    (htight : level ≤ tight) : ∀ (n : Nat) {left tree : Node Token} {s s' : State}, s.Within n →
    climb sub tight n left s = (.ok tree, s') → s'.Within n ∧ climb sub level n left s = climb sub level n tree s'
  | 0, _, _, _, _, hs, _ => absurd hs.2 (Nat.not_lt_zero _)
  | n + 1, left, tree, s, s', hs, h => by
    have hextend := related_extend compatible_forward hsub.related left
    change (if tight < bindingPower s.ahead.kind then _ else (pure left : Reader _)) s = _ at h
    change _ ∧ (if level < bindingPower s.ahead.kind then _ else (pure left : Reader _)) s = _
    by_cases hbinds : tight < bindingPower s.ahead.kind
    · rw [if_pos hbinds] at h
      rw [if_pos (Nat.lt_of_le_of_lt htight hbinds)]
      obtain ⟨longer, s₁, hs₁, hrest⟩ := exists_of_bind_ok (m := extend sub left) (s := s.consume) h
      have hahead : s.ahead.kind ≠ .eof := by
        intro heof
        rw [heof] at hbinds
        exact absurd hbinds (by decide)
      have hwithin : s₁.Within n := by
        have := hextend.within (hs.consume_lt hahead)
        rwa [hs₁] at this
      obtain ⟨hs', hsame⟩ := climb_of_tight hsub hlevel htight n hwithin hrest
      refine ⟨⟨hs'.1, Nat.lt_succ_of_lt hs'.2⟩, ?_⟩
      calc (extend sub left >>= fun longer => climb sub level n longer) s.consume
          = climb sub level n longer s₁ := bind_of_ok hs₁ _
        _ = climb sub level n tree s' := hsame
        _ = climb sub level (n + 1) tree s' :=
          steady_climb hsub hlevel tree n n (n + 1) (Nat.le_refl _) (Nat.le_succ _) s' hs'
    · rw [if_neg hbinds] at h
      obtain ⟨rfl, rfl⟩ : left = tree ∧ s = s' := by
        have h : ((.ok left, s) : Except Halt (Node Token) × State) = (.ok tree, s') := h
        cases h
        exact ⟨rfl, rfl⟩
      exact ⟨hs, rfl⟩

theorem climb_of_le {sub : Sub} {level : Nat} {left : Node Token} {s : State}
    (h : bindingPower s.ahead.kind ≤ level) : ∀ n, climb sub level n left s = (.ok left, s)
  | 0 => rfl
  | n + 1 => by
    change (if level < bindingPower s.ahead.kind then _ else (pure left : Reader _)) s = _
    rw [if_neg (Nat.not_lt.2 h)]
    rfl

theorem infix_ne_else {kind : Kind} (h : kind ∈ infixKinds) : kind ≠ .elseWord := by
  rintro rfl
  exact absurd h (by decide)

/-- An operator and its right side. -/
theorem extend_of_right {sub : Sub} {left right : Node Token} {s s' : State}
    (hop : s.current.kind ∈ infixKinds)
    (h : sub (bindingPower s.current.kind) (s.enter .binary).consume = (.ok right, s')) :
    extend sub left s = (.ok (.binary s.current s.current.literal left right), s'.leave .binary) := by
  have hbinary : (do
      let right ← sub (bindingPower s.current.kind)
      return .binary s.current s.current.literal left right : Reader (Node Token)) (s.enter .binary).consume =
      (.ok (.binary s.current s.current.literal left right), s') := bind_of_ok h _
  rw [extend_of_operator hop]
  exact congrArg (fun o : Except Halt (Node Token) × State => (o.1, o.2.leave .binary)) hbinary

/-- What comes of an expression when it is left. -/
def leaving (o : Except Halt (Node Token) × State) : Except Halt (Node Token) × State :=
  (o.1, o.2.leave .expression)

theorem expression_succ (depth level : Nat) (s : State) : expression (depth + 1) level s =
    leaving ((do let first ← primary (expression depth)
                 climb (expression depth) level (← budget) first) (s.enter .expression)) := rfl

namespace Chain

/-- How tightly the root binds, where operands bind as the operand of a sign does. -/
def power : Chain → Nat
  | operand _ => tight
  | node op _ _ => bindingPower op.kind

theorem RootAtLeast.le_power {p : Nat} (hp : p ≤ tight) : ∀ {c : Chain}, c.RootAtLeast p → p ≤ c.power
  | operand _, _ => hp
  | node _ _ _, h => h

theorem lowest_lt_power : ∀ {c : Chain}, (∀ p ∈ c.rest, p.1.kind ∈ infixKinds) → lowest < c.power
  | operand _, _ => (by decide : lowest < tight)
  | node op l r, h => Node.lowest_lt_of_infixKinds _ (h (op, r.first) (by simp [rest]))

/-- From the state `t` on an expression is read as far as the chain goes, up to the state `t'`, and then
it goes on with what follows. -/
structure ReadTo (c : Chain) (depth level : Nat) (more : List Token) (t t' : State) : Prop where
  padded : t'.Padded
  coming : t'.coming = more
  problems : t'.problems = t.problems
  goesOn : ∀ n, t'.left < n →
    expression (depth + 1) level t = leaving (climb (expression depth) level n c.tree t')

variable {c : Chain} {depth level : Nat} {more : List Token} {t t' : State}

/-- Where what follows does not go on with it, the expression ends. -/
theorem ReadTo.ends (h : c.ReadTo depth level more t t') (hmore : Follows level (more.map Token.bare)) :
    expression (depth + 1) level t = (.ok c.tree, t'.leave .expression) := by
  rw [h.goesOn _ (Nat.lt_add_one _), climb_of_le]
  · rfl
  · rw [t'.ahead_kind, h.coming]
    exact hmore.1

theorem readTo_operand {o : Operand} (hdepth : o.depth ≤ depth + 1) (hlevel : lowest ≤ level)
    (htight : level ≤ tight) (ht : t.Padded) (h : t.pending = o.tokens ++ more)
    (hmore : Follows tight (more.map Token.bare)) : ∃ t', (operand o).ReadTo depth level more t t' := by
  obtain ⟨t₂, ht₂, hpadded, hcoming, hproblems⟩ := o.read_before hdepth ht h hmore
  have hsub := forward_expression depth
  rw [expression_succ] at ht₂
  rcases hx : (do let first ← primary (expression depth)
                  climb (expression depth) tight (← budget) first : Reader _) (t.enter .expression)
    with ⟨result, t'⟩
  rw [hx] at ht₂
  obtain ⟨rfl, rfl⟩ := Prod.mk.inj ht₂
  obtain ⟨first, t₁, hfirst, hclimb⟩ := exists_of_bind_ok hx
  have hwithin : t₁.Within t₁.budget := by
    refine ⟨?_, t₁.left_lt_budget⟩
    have hforward := related_primary compatible_forward hsub.related
    have := (hforward.within (s := t.enter .expression) ⟨ht, Nat.lt_add_one _⟩).1
    rwa [hfirst] at this
  obtain ⟨hwithin', hsame⟩ := climb_of_tight hsub hlevel htight t₁.budget hwithin hclimb
  refine ⟨t', hpadded, hcoming, hproblems, fun n hn => ?_⟩
  rw [expression_succ, bind_of_ok hfirst]
  apply congrArg leaving
  calc climb (expression depth) level t₁.budget first t₁
      = climb (expression depth) level t₁.budget o.tree t' := hsame
    _ = climb (expression depth) level n o.tree t' :=
      steady_climb hsub hlevel o.tree (t'.left + 1) _ n hwithin'.2 hn t' ⟨hpadded, Nat.lt_add_one _⟩

/-- After the left side come the operator and the right side, and then the expression goes on. -/
theorem ReadTo.node {op : Token} {l r : Chain} {ts : List Token} {t₁ t₂ : State} (hlevel : lowest ≤ level)
    (h : l.ReadTo depth level (op :: ts) t t₁) (hop : op.kind ∈ infixKinds)
    (hbinds : level < bindingPower op.kind)
    (hright : expression depth (bindingPower op.kind) (t₁.consume.enter .binary).consume = (.ok r.tree, t₂))
    (hcoming : t₂.coming = more) (hproblems : t₂.problems = t₁.problems) :
    (node op l r).ReadTo depth level more t (t₂.leave .binary) := by
  obtain ⟨hahead, hne, -⟩ := State.ahead_of_coming h.padded h.coming
  have hsub := forward_expression depth
  have hcurrent : t₁.consume.current = op := by rw [State.current_consume, hahead]
  have hextend : extend (expression depth) l.tree t₁.consume =
      (.ok (Chain.tree (.node op l r)), t₂.leave .binary) := by
    rw [← hcurrent] at hop hright
    rw [extend_of_right hop hright, hcurrent]
    rfl
  have hwithin : (t₂.leave .binary).Within t₁.left := by
    have hforward := related_extend compatible_forward hsub.related l.tree
    have hstart : t₁.consume.Within t₁.left :=
      ⟨h.padded.consume, by have := State.left_consume h.padded hne; omega⟩
    have := hforward.within hstart
    rwa [hextend] at this
  refine ⟨hwithin.1, hcoming, hproblems.trans h.problems, fun n hn => ?_⟩
  rw [h.goesOn _ (Nat.lt_add_one _)]
  apply congrArg leaving
  change (if level < bindingPower t₁.ahead.kind then _ else (pure l.tree : Reader _)) t₁ = _
  rw [if_pos (by rwa [hahead])]
  calc (extend (expression depth) l.tree >>= fun longer => climb (expression depth) level t₁.left longer)
        t₁.consume
      = climb (expression depth) level t₁.left (Chain.tree (.node op l r)) (t₂.leave .binary) :=
        bind_of_ok hextend _
    _ = climb (expression depth) level n (Chain.tree (.node op l r)) (t₂.leave .binary) :=
      steady_climb hsub hlevel _ (t₂.left + 1) _ n hwithin.2 hn _ ⟨hwithin.1, Nat.lt_add_one _⟩

/-- **A grouped tree is what is read from its tokens**, as far as they go. -/
theorem readTo : ∀ {c : Chain} {depth level : Nat} {more : List Token} {t : State}, c.Grouped →
    (∀ p ∈ c.rest, p.1.kind ∈ infixKinds) → c.depth ≤ depth + 1 → lowest ≤ level → level < c.power →
    t.Padded → t.pending = c.tokens ++ more → Follows c.power (more.map Token.bare) →
    ∃ t', c.ReadTo depth level more t t'
  | operand o, depth, level, more, t, _, _, hdepth, hlevel, hpower, ht, h, hmore => by
    refine readTo_operand hdepth hlevel (Nat.le_of_lt hpower) ht ?_ hmore
    rw [h, tokens, rest, List.flatMap_nil, List.append_nil, first]
  | .node op l r, depth, level, more, t, hgrouped, hops, hdepth, hlevel, hpower, ht, h, hmore => by
    obtain ⟨hl, hr, hlroot, hrroot⟩ := hgrouped
    have hop : op.kind ∈ infixKinds := hops (op, r.first) (by simp [rest])
    have htight := infix_lt_tight hop
    have hlpower := hlroot.le_power (Nat.le_of_lt htight)
    have hrpower := hrroot.le_power htight
    have hdepths : l.depth ≤ depth + 1 ∧ r.depth + 1 ≤ depth + 1 := Nat.max_le.1 hdepth
    -- the left side is read in the same expression
    have hleft : ∃ t₁, l.ReadTo depth level (op :: (r.tokens ++ more)) t t₁ := by
      refine readTo hl (fun p hp => hops p (by simp [rest, hp])) hdepths.1 hlevel
        (Nat.lt_of_lt_of_le hpower hlpower) ht ?_ ⟨hlpower, infix_ne_else hop⟩
      rw [h, tokens_node, List.append_assoc, List.cons_append]
    obtain ⟨t₁, h₁⟩ := hleft
    obtain ⟨-, -, hcoming⟩ := State.ahead_of_coming h₁.padded h₁.coming
    -- the right side is an expression by itself, which ends where the chain does
    obtain ⟨depth, rfl⟩ : ∃ d, depth = d + 1 := ⟨depth - 1, by have := r.depth_pos; omega⟩
    have hfollows : Follows r.power (more.map Token.bare) :=
      ⟨Nat.le_trans hmore.1 (Nat.le_of_lt hrpower), hmore.2⟩
    have hpadded : (t₁.consume.enter .binary).Padded := h₁.padded.consume
    have hright : ∃ t₂, r.ReadTo depth (bindingPower op.kind) more (t₁.consume.enter .binary).consume t₂ := by
      refine readTo hr (fun p hp => hops p (by simp [rest, hp])) (by omega)
        (lowest_le_bindingPower op.kind) hrpower hpadded.consume ?_ hfollows
      rw [State.pending_consume hpadded]
      exact hcoming
    obtain ⟨t₂, h₂⟩ := hright
    refine ⟨_, h₁.node hlevel hop hpower (h₂.ends hmore) h₂.coming (h₂.problems.trans ?_)⟩
    rw [State.problems_consume]
    exact State.problems_consume t₁

/-- A grouped tree is read at the lowest level, and the expression ends with it. -/
theorem read {limit : Nat} {s : State} (hgrouped : c.Grouped)
    (hops : ∀ p ∈ c.rest, p.1.kind ∈ infixKinds) (hlimit : c.depth ≤ limit) (hs : s.Padded)
    (h : s.pending = c.tokens ++ more) (hmore : Follows lowest (more.map Token.bare)) :
    ∃ s', expression limit lowest s = (.ok c.tree, s') ∧ s'.problems = s.problems ∧ s'.coming = more := by
  obtain ⟨limit, rfl⟩ : ∃ n, limit = n + 1 := ⟨limit - 1, by have := c.depth_pos; omega⟩
  have hpower := lowest_lt_power hops
  obtain ⟨t', ht'⟩ := readTo hgrouped hops hlimit (Nat.le_refl _) hpower hs h
    ⟨Nat.le_trans hmore.1 (Nat.le_of_lt hpower), hmore.2⟩
  exact ⟨_, ht'.ends hmore, ht'.problems, ht'.coming⟩

end Chain

theorem follows_of_semicolon {more : List Token} (h : ∀ t ∈ more.head?, t.kind = .semicolon) :
    Follows lowest (more.map Token.bare) := by
  cases more with
  | nil => exact ⟨Nat.le_refl _, nofun⟩
  | cons t more =>
    have hkind : t.kind = .semicolon := h t rfl
    change bindingPower t.kind ≤ lowest ∧ t.kind ≠ .elseWord
    rw [hkind]
    decide

/-- **Operators group what stands around them by how tightly they bind.** For operands with operators
between them there is one tree that has them in order and is grouped, and an expression before a
semicolon or the end of the list is read as that tree: all tokens of the sequence, without a problem,
unless it is nested too deeply. -/
theorem chain_read_as_grouped (first : Operand) (rest : List (Token × Operand))
    (hops : ∀ p ∈ rest, p.1.kind ∈ infixKinds) :
    ∃ c : Chain, (c.first = first ∧ c.rest = rest ∧ c.Grouped) ∧
      (∀ c' : Chain, c'.first = first → c'.rest = rest → c'.Grouped → c' = c) ∧
      ∀ (limit : Nat) (s : State) (more : List Token), s.Padded →
        s.pending = first.tokens ++ rest.flatMap (fun p => p.1 :: p.2.tokens) ++ more →
        (∀ t ∈ more.head?, t.kind = .semicolon) →
        c.depth ≤ limit ∨ (expression limit lowest s).1 ≠ .error .tooDeep →
        ∃ s', expression limit lowest s = (.ok c.tree, s') ∧ s'.problems = s.problems ∧ s'.coming = more := by
  obtain ⟨hgrouped, hfirst, hrest⟩ := Chain.build_spec first rest
  refine ⟨Chain.build first rest, ⟨hfirst, hrest, hgrouped⟩, fun c' hfirst' hrest' hgrouped' => ?_, ?_⟩
  · rw [hgrouped'.eq_build, hfirst', hrest']
  generalize Chain.build first rest = c at hgrouped hfirst hrest
  subst hfirst hrest
  intro limit s more hs hpending hmore hlimit
  -- under a limit that is large enough
  obtain ⟨s', hs', hproblems, hcoming⟩ := Chain.read hgrouped hops (Nat.le_max_right limit c.depth) hs
    hpending (follows_of_semicolon hmore)
  refine ⟨s', ?_, hproblems, hcoming⟩
  rcases hlimit with hlimit | hlimit
  · rwa [Nat.max_eq_left hlimit] at hs'
  · have houtlasts := (outlasts_expression (Nat.le_max_left limit c.depth)).related lowest (Nat.le_refl _)
    rcases houtlasts.near s with hsame | ⟨hstop, -⟩
    · rw [hsame, hs']
    · exact absurd hstop hlimit

/-- A sum, a product and a difference, before a semicolon. -/
theorem chain_read_as_grouped_sum :
    let word (kind : Kind) (literal : String) : Token := ⟨kind, literal, 0, 0⟩
    let name (x : String) : Node Token := .identifier (word .ident x) x
    let plus := word .plus "+"
    let times := word .asterisk "*"
    let minus := word .minus "-"
    let tokens := [word .ident "a", plus, word .ident "b", times, minus, word .ident "c", minus,
      word .ident "d", word .semicolon ";", word .eof ""]
    ∃ s', expression 4 lowest (State.start tokens) = (.ok (.binary minus "-"
        (.binary plus "+" (name "a") (.binary times "*" (name "b") (.unary minus "-" (name "c"))))
        (name "d")), s') ∧
      s'.problems = #[] ∧ s'.coming = [word .semicolon ";"] := by
  intro word name plus times minus tokens
  let operand (x : String) : Operand := ⟨[word .ident x], name x, 1, by simp [word], rfl, rfl, rfl⟩
  let signed : Operand := ⟨[minus, word .ident "c"], .unary minus "-" (name "c"), 2, by decide, rfl, rfl, rfl⟩
  obtain ⟨c, -, hunique, hread⟩ := chain_read_as_grouped (operand "a")
    [(plus, operand "b"), (times, signed), (minus, operand "d")] (by decide)
  have hc : Chain.node minus (.node plus (.operand (operand "a"))
      (.node times (.operand (operand "b")) (.operand signed))) (.operand (operand "d")) = c :=
    hunique _ rfl rfl (by decide)
  subst hc
  exact hread 4 (State.start tokens) [word .semicolon ";"] (State.padded_start _) rfl (by simp [word])
    (.inl (by decide))

end SepiaLang.Parse
