import SepiaLang.Proofs.Numeral
import SepiaLang.Proofs.Parse.Accept

/-!
# Trees written out in full

A way to write down every tree that makes sense: each part of an expression in parentheses, the
condition of a choice in one pair of them, every statement with a semicolon, and blocks between the
arrow and the word that closes them.

* `Node.isProgram`: the tree makes sense as a program.
* `Node.spell`: its lexemes.
* `Node.nesting`: how many expressions are nested in each other when they are read.
* **`program_of_spell`**: reading them finds no problem and gives the tree back.
-/

namespace SepiaLang

open Parse

/-! ## Trees that make sense -/

/-- The operators that stand before an operand, and the kinds of their tokens. -/
def prefixOperators : List (String × Kind) :=
  [("!", .bang), ("-", .minus), ("++", .increment), ("--", .decrement)]

/-- The operators that stand between operands, and the kinds of their tokens. -/
def infixOperators : List (String × Kind) :=
  [("+", .plus), ("-", .minus), ("*", .asterisk), ("/", .slash), ("==", .eq), ("!=", .notEq),
   ("<", .lt), (">", .gt), ("<=", .ltEq), (">=", .gtEq), ("and", .and), ("&&", .and), ("or", .or),
   ("||", .or), ("+=", .plusEq), ("-=", .minusEq), ("*=", .mulEq), ("/=", .slashEq)]

namespace Node

/-- The child is missing. -/
def isAbsent : Node Unit → Bool
  | absent => true
  | _ => false

mutual

/-- The tree makes sense as an expression. -/
@[simp] def isExpression : Node Unit → Bool
  | integer _ n => 0 ≤ n && n ≤ Word64.greatest
  | boolean .. | string .. | identifier .. => true
  | unary _ op e => (prefixOperators.lookup op).isSome && isExpression e
  | binary _ op l r => (infixOperators.lookup op).isSome && (isExpression l && isExpression r)
  | conditional _ c t e => isExpression c && (isBlock t && (isAbsent e || isBlock e))
  | function _ _ b => isBlock b
  | call _ f args => isExpression f && areExpressions args
  | array _ es => areExpressions es
  | index _ l i => isExpression l && isExpression i
  | map _ ps => areEntries ps
  | _ => false

/-- The tree makes sense as a block. -/
@[simp] def isBlock : Node Unit → Bool
  | block _ body => areStatements body
  | _ => false

/-- The tree makes sense as a statement. -/
@[simp] def isStatement : Node Unit → Bool
  | valueStmt _ _ e | updateStmt _ _ e | returnStmt _ e | expressionStmt _ e => isExpression e
  | _ => false

/-- The trees make sense as expressions. -/
@[simp] def areExpressions : List (Node Unit) → Bool
  | [] => true
  | n :: ns => isExpression n && areExpressions ns

/-- The pairs of trees make sense as entries of a map. -/
@[simp] def areEntries : List (Node Unit × Node Unit) → Bool
  | [] => true
  | (k, v) :: ps => isExpression k && (isExpression v && areEntries ps)

/-- The trees make sense as statements. -/
@[simp] def areStatements : List (Node Unit) → Bool
  | [] => true
  | n :: ns => isStatement n && areStatements ns

end

/-- The tree makes sense as a program. -/
def isProgram : Node Unit → Bool
  | program body => areStatements body
  | _ => false

/-! ## Their lexemes -/

/-- The lexeme of an operator of the table. -/
def operator (table : List (String × Kind)) (op : String) : Lexeme :=
  ((table.lookup op).getD .illegal, op)

/-- The lexemes of a branch, after the word `else`, unless the branch is missing. -/
def elseBranch (e : Node Unit) (ls : List Lexeme) : List Lexeme :=
  if e.isAbsent then [] else (.elseWord, "else") :: ls

mutual

/-- The lexemes of a tree. -/
@[simp] def spell : Node Unit → List Lexeme
  | absent => []
  | program body => spellAll body
  | expressionStmt _ e => spell e ++ [semicolon]
  | valueStmt _ x e => bindingLexemes (.valueWord, "value") x (spell e)
  | updateStmt _ x e => bindingLexemes (.updateWord, "update") x (spell e)
  | returnStmt _ e => (.returnWord, "return") :: (spell e ++ [semicolon])
  | block _ body => (.openBlock, "->") :: (spellAll body ++ [(.closeBlock, "end")])
  | integer _ n => [(.int, toString n)]
  | boolean _ b => [if b then (.trueWord, "true") else (.falseWord, "false")]
  | string _ text => [(.string, text)]
  | identifier _ x => [(.ident, x)]
  | unary _ op e => operator prefixOperators op :: enclosed (spell e)
  | binary _ op l r => enclosed (spell l) ++ operator infixOperators op :: enclosed (spell r)
  | conditional _ c t e =>
    (.ifWord, "if") :: (enclosed (spell c) ++ (spell t ++ elseBranch e (spell e)))
  | function _ xs b => (.fnWord, "fn") :: (enclosed (joined (xs.map name)) ++ spell b)
  | call _ f args => enclosed (spell f) ++ enclosed (joined (spellEach args))
  | array _ es => (.lbracket, "[") :: (joined (spellEach es) ++ [(.rbracket, "]")])
  | index _ l i => enclosed (spell l) ++ (.lbracket, "[") :: (enclosed (spell i) ++ [(.rbracket, "]")])
  | map _ ps => (.lbrace, "\x7b") :: (joined (spellEntries ps) ++ [(.rbrace, "\x7d")])

/-- The lexemes of statements. -/
@[simp] def spellAll : List (Node Unit) → List Lexeme
  | [] => []
  | n :: ns => spell n ++ spellAll ns

/-- The lexemes of each of several expressions, in parentheses. -/
@[simp] def spellEach : List (Node Unit) → List (List Lexeme)
  | [] => []
  | n :: ns => enclosed (spell n) :: spellEach ns

/-- The lexemes of each entry of a map. -/
@[simp] def spellEntries : List (Node Unit × Node Unit) → List (List Lexeme)
  | [] => []
  | (k, v) :: ps => (enclosed (spell k) ++ (.colon, ":") :: enclosed (spell v)) :: spellEntries ps

end

mutual

/-- How many expressions are nested in each other when the lexemes of the tree are read. A pair of
parentheses counts as one. -/
@[simp] def nesting : Node Unit → Nat
  | absent => 0
  | integer .. | boolean .. | string .. | identifier .. => 1
  | program body | block _ body => nestingAll body
  | expressionStmt _ e | valueStmt _ _ e | updateStmt _ _ e | returnStmt _ e => nesting e
  | unary _ _ e => nesting e + 2
  | binary _ _ l r | index _ l r => max (nesting l) (nesting r + 1) + 1
  | conditional _ c t e => max (nesting c) (max (nesting t) (nesting e)) + 1
  | function _ _ b => nesting b + 1
  | call _ f args => max (nesting f) (nestingEach args) + 1
  | array _ es => nestingEach es + 1
  | map _ ps => nestingEntries ps + 1

/-- The nesting of statements. -/
@[simp] def nestingAll : List (Node Unit) → Nat
  | [] => 0
  | n :: ns => max (nesting n) (nestingAll ns)

/-- The nesting of expressions in parentheses. -/
@[simp] def nestingEach : List (Node Unit) → Nat
  | [] => 0
  | n :: ns => max (nesting n + 1) (nestingEach ns)

/-- The nesting of the entries of a map. -/
@[simp] def nestingEntries : List (Node Unit × Node Unit) → Nat
  | [] => 0
  | (k, v) :: ps => max (max (nesting k + 1) (nesting v + 1)) (nestingEntries ps)

end

/-! ## Reading them -/

theorem map_snd_pairs (g : Node Unit → List Lexeme) (ns : List (Node Unit)) :
    (ns.map fun n => (g n, n)).map Prod.snd = ns := by
  rw [List.map_map]
  exact List.map_id ns

/-- The statements, each with its lexemes. -/
def written (ns : List (Node Unit)) : List (List Lexeme × Node Unit) := ns.map fun n => (spell n, n)

theorem spellAll_eq (ns : List (Node Unit)) : spellAll ns = (written ns).flatMap Prod.fst := by
  induction ns with
  | nil => rfl
  | cons n ns ih =>
    rw [spellAll, ih]
    rfl

theorem map_snd_written (ns : List (Node Unit)) : (written ns).map Prod.snd = ns :=
  map_snd_pairs spell ns

/-- The expressions, each with its lexemes in parentheses. -/
def inParentheses (ns : List (Node Unit)) : List (List Lexeme × Node Unit) :=
  ns.map fun n => (enclosed (spell n), n)

theorem spellEach_eq (ns : List (Node Unit)) : spellEach ns = (inParentheses ns).map Prod.fst := by
  induction ns with
  | nil => rfl
  | cons n ns ih =>
    rw [spellEach, ih]
    rfl

theorem map_snd_inParentheses (ns : List (Node Unit)) : (inParentheses ns).map Prod.snd = ns :=
  map_snd_pairs (fun n => enclosed (spell n)) ns

/-- The lexemes of an entry of a map, part by part. -/
def entryLexemes (p : Node Unit × Node Unit) : EntryLexemes :=
  ((enclosed (spell p.1), p.1), (enclosed (spell p.2), p.2))

theorem spellEntries_eq (ps : List (Node Unit × Node Unit)) :
    spellEntries ps = (ps.map entryLexemes).map entry := by
  induction ps with
  | nil => rfl
  | cons p ps ih =>
    rw [spellEntries, ih, List.map_cons, List.map_cons]
    rfl

/-- The kind of an operator of a table is one of the kinds in it. -/
theorem operator_kind {table : List (String × Kind)} {kinds : List Kind}
    (htable : ∀ p ∈ table, p.2 ∈ kinds) {op : String} (h : (table.lookup op).isSome = true) :
    (operator table op).1 ∈ kinds := by
  obtain ⟨kind, hkind⟩ := Option.isSome_iff_exists.1 h
  obtain ⟨l₁, l₂, hmem, -⟩ := List.lookup_eq_some_iff.1 hkind
  rw [operator, hkind]
  exact htable (op, kind) (by simp [hmem])

theorem readInt_literal {n : Int} (h₀ : 0 ≤ n) (h : n ≤ Word64.greatest) :
    Text.readInt (toString n) = .ok n := by
  obtain ⟨m, rfl⟩ := Int.eq_ofNat_of_zero_le h₀
  have hm : m < 10 ^ 19 := by
    unfold Word64.greatest at h
    omega
  exact Text.readInt_toString (Nat.lt_of_lt_of_le hm (Nat.pow_le_pow_right (by decide) (by decide)))

/-! ### Parts -/

/-- The lexemes of the expression are read as itself, wherever its nesting is allowed. -/
def ReadsBack (n : Node Unit) : Prop :=
  ∀ depth, n.nesting ≤ depth → (expression depth).Accepts lowest n.spell n

/-- The lexemes of the statement are read as itself, wherever its nesting is allowed. -/
def StatementReadsBack (n : Node Unit) : Prop :=
  ∀ depth, n.nesting ≤ depth → (expression depth).AcceptsStatement n.spell n

/-- The tree is a block whose statements are read as themselves, wherever its nesting is allowed. -/
def BlockReadsBack (b : Node Unit) : Prop :=
  ∀ depth, b.nesting ≤ depth → ∃ ps, b = .block () (ps.map Prod.snd) ∧ b.spell = blockLexemes ps ∧
    ∀ p ∈ ps, (expression depth).AcceptsStatement p.1 p.2

/-- A part of an expression is in parentheses, and so nested one deeper. -/
theorem ReadsBack.enclosed {n : Node Unit} (h : n.ReadsBack) : ∀ {depth : Nat}, n.nesting + 1 ≤ depth →
    ∀ level, (expression depth).Accepts level (enclosed n.spell) n
  | depth + 1, hdepth, level =>
    accepts_of_primary (accepts_enclosed (h depth (Nat.le_of_succ_le_succ hdepth))) (Nat.le_refl level)

/-- An expression that ends before its first operator. -/
theorem readsBack_of_primary {n : Node Unit} {k : Nat} (hn : n.nesting = k + 1)
    (h : ∀ depth, k ≤ depth → (expression depth).AcceptsPrimary tight n.spell n) : n.ReadsBack
  | 0, hdepth => absurd hdepth (by omega)
  | depth + 1, hdepth => accepts_of_primary (h depth (by omega)) (by decide)

/-- An expression that is an operand in parentheses and then one operator. -/
theorem readsBack_of_climbs (op : Lexeme) {n left : Node Unit} {k : Nat} {ls : List Lexeme}
    (hleft : left.ReadsBack) (hspell : n.spell = Parse.enclosed left.spell ++ op :: ls)
    (hop : op.1 ≠ .elseWord) (hn : n.nesting = k + 1) (hk : left.nesting ≤ k)
    (h : ∀ depth, k ≤ depth → (expression depth).Climbs lowest left (op :: ls) n) : n.ReadsBack
  | 0, hdepth => absurd hdepth (by omega)
  | depth + 1, hdepth => by
    rw [hspell]
    have hnext : ∀ more, Follows lowest more → Follows (bindingPower op.1) (op :: ls ++ more) :=
      fun _ _ => ⟨Nat.le_refl _, hop⟩
    exact accepts_expression (accepts_enclosed (hleft depth (by omega))) hnext (h depth (by omega))

/-! ### Expressions -/

variable {e l r c t b f : Node Unit}

theorem readsBack_unary {op : String} (hop : (prefixOperators.lookup op).isSome = true)
    (he : e.ReadsBack) : (unary () op e).ReadsBack := by
  refine readsBack_of_primary (by rw [nesting]) fun depth hdepth => ?_
  rw [spell]
  exact accepts_unary (operator_kind (by decide) hop) op (he.enclosed hdepth tight)

theorem lowest_lt_of_infixKinds : ∀ kind ∈ infixKinds, lowest < bindingPower kind := by decide

theorem readsBack_binary {op : String} (hop : (infixOperators.lookup op).isSome = true)
    (hl : l.ReadsBack) (hr : r.ReadsBack) : (binary () op l r).ReadsBack := by
  have hkind : (operator infixOperators op).1 ∈ infixKinds := operator_kind (by decide) hop
  have hpower := lowest_lt_of_infixKinds _ hkind
  refine readsBack_of_climbs (operator infixOperators op) hl (by rw [spell]) ?_ (by rw [nesting])
    (Nat.le_max_left ..) fun depth hdepth => ?_
  · intro h
    rw [h] at hkind
    exact absurd hkind (by decide)
  · have hr' := hr.enclosed (Nat.le_trans (Nat.le_max_right ..) hdepth)
    have hclimbs : (expression depth).Climbs lowest l
        (operator infixOperators op :: (enclosed r.spell ++ [])) (binary () op l r) :=
      climbs_binary hkind hpower (hr' _)
        (fun more hmore => ⟨Nat.le_trans hmore.1 hpower.le, hmore.2⟩) climbs_nil
    rwa [List.append_nil] at hclimbs

theorem readsBack_conditional (hc : c.ReadsBack) (ht : t.BlockReadsBack)
    (he : e.isAbsent = true ∨ e.BlockReadsBack) : (conditional () c t e).ReadsBack := by
  refine readsBack_of_primary (by rw [nesting]) fun depth hdepth => ?_
  obtain ⟨ps, rfl, hspell, hps⟩ := ht depth (by omega)
  obtain ⟨qs?, rfl, hspell', hqs⟩ : ∃ qs?, e = alternativeNode qs? ∧
      elseBranch e e.spell = alternativeLexemes qs? ∧
      ∀ qs ∈ qs?, (expression depth).AcceptsBlock qs := by
    rcases he with he | he
    · cases e with
      | absent => exact ⟨none, rfl, rfl, nofun⟩
      | _ => cases he
    · obtain ⟨qs, rfl, hqs, h⟩ := he depth (by omega)
      refine ⟨some qs, rfl, ?_, by rintro _ ⟨⟩; exact acceptsBlock_of_statements h⟩
      rw [hqs]
      rfl
  rw [spell, hspell, hspell']
  exact accepts_conditional (hc depth (by omega)) (acceptsBlock_of_statements hps) hqs

theorem readsBack_function (xs : List (Ident Unit)) (hb : b.BlockReadsBack) :
    (function () xs b).ReadsBack := by
  refine readsBack_of_primary (by rw [nesting]) fun depth hdepth => ?_
  obtain ⟨ps, rfl, hspell, hps⟩ := hb depth hdepth
  rw [spell, hspell]
  exact accepts_function xs (acceptsBlock_of_statements hps)

theorem nesting_lt_nestingEach : ∀ {ns : List (Node Unit)}, ∀ n ∈ ns, nesting n + 1 ≤ nestingEach ns
  | m :: ns, n, h => by
    rw [nestingEach]
    rcases List.mem_cons.1 h with rfl | h
    · exact Nat.le_max_left ..
    · exact Nat.le_trans (nesting_lt_nestingEach n h) (Nat.le_max_right ..)

/-- The elements of a list, in parentheses. -/
theorem accepts_each {ns : List (Node Unit)} (hns : ∀ n ∈ ns, n.ReadsBack) {depth : Nat}
    (hdepth : nestingEach ns ≤ depth) :
    ∀ p ∈ inParentheses ns, (expression depth).Accepts lowest p.1 p.2 := by
  intro p hp
  obtain ⟨n, hn, rfl⟩ := List.mem_map.1 hp
  exact (hns n hn).enclosed (Nat.le_trans (nesting_lt_nestingEach n hn) hdepth) lowest

theorem readsBack_call {args : List (Node Unit)} (hf : f.ReadsBack) (hargs : ∀ a ∈ args, a.ReadsBack) :
    (call () f args).ReadsBack := by
  refine readsBack_of_climbs (.lparen, "(") hf (by rw [spell]; rfl) nofun (by rw [nesting])
    (Nat.le_max_left ..) fun depth hdepth => ?_
  have hargs' := accepts_each hargs (Nat.le_trans (Nat.le_max_right ..) hdepth)
  have hclimbs : (expression depth).Climbs lowest f
      (enclosed (joined ((inParentheses args).map Prod.fst)) ++ [])
      (call () f ((inParentheses args).map Prod.snd)) :=
    climbs_call (by decide) hargs' climbs_nil
  rwa [← spellEach_eq, map_snd_inParentheses, List.append_nil] at hclimbs

theorem readsBack_array {es : List (Node Unit)} (hes : ∀ e ∈ es, e.ReadsBack) :
    (array () es).ReadsBack := by
  refine readsBack_of_primary (by rw [nesting]) fun depth hdepth => ?_
  have harray : (expression depth).AcceptsPrimary tight
      ((.lbracket, "[") :: (joined ((inParentheses es).map Prod.fst) ++ [(.rbracket, "]")]))
      (array () ((inParentheses es).map Prod.snd)) := accepts_array (accepts_each hes hdepth)
  rw [← spellEach_eq, map_snd_inParentheses] at harray
  rwa [spell]

theorem readsBack_index {i : Node Unit} (hl : l.ReadsBack) (hi : i.ReadsBack) :
    (index () l i).ReadsBack := by
  refine readsBack_of_climbs (.lbracket, "[") hl (by rw [spell]) nofun (by rw [nesting])
    (Nat.le_max_left ..) fun depth hdepth => ?_
  have hi' := hi.enclosed (Nat.le_trans (Nat.le_max_right ..) hdepth) lowest
  have hclimbs : (expression depth).Climbs lowest l
      ((.lbracket, "[") :: (enclosed i.spell ++ [(.rbracket, "]")] ++ [])) (index () l i) :=
    climbs_index (by decide) hi' climbs_nil
  rwa [List.append_nil] at hclimbs

theorem nesting_lt_nestingEntries : ∀ {ps : List (Node Unit × Node Unit)}, ∀ p ∈ ps,
    nesting p.1 + 1 ≤ nestingEntries ps ∧ nesting p.2 + 1 ≤ nestingEntries ps
  | (k, v) :: ps, p, h => by
    rw [nestingEntries]
    rcases List.mem_cons.1 h with rfl | h
    · exact ⟨Nat.le_trans (Nat.le_max_left ..) (Nat.le_max_left ..),
        Nat.le_trans (Nat.le_max_right ..) (Nat.le_max_left ..)⟩
    · exact (nesting_lt_nestingEntries p h).imp (Nat.le_trans · (Nat.le_max_right ..))
        (Nat.le_trans · (Nat.le_max_right ..))

theorem readsBack_map {ps : List (Node Unit × Node Unit)}
    (hps : ∀ p ∈ ps, p.1.ReadsBack ∧ p.2.ReadsBack) : (map () ps).ReadsBack := by
  refine readsBack_of_primary (by rw [nesting]) fun depth hdepth => ?_
  have hentries : ∀ q ∈ ps.map entryLexemes, (expression depth).Accepts lowest q.1.1 q.1.2 ∧
      (expression depth).Accepts lowest q.2.1 q.2.2 := by
    intro q hq
    obtain ⟨p, hp, rfl⟩ := List.mem_map.1 hq
    obtain ⟨hk, hv⟩ := nesting_lt_nestingEntries p hp
    exact ⟨(hps p hp).1.enclosed (Nat.le_trans hk hdepth) lowest,
      (hps p hp).2.enclosed (Nat.le_trans hv hdepth) lowest⟩
  have hmap : (expression depth).AcceptsPrimary tight
      ((.lbrace, "\x7b") :: (joined ((ps.map entryLexemes).map entry) ++ [(.rbrace, "\x7d")]))
      (map () ((ps.map entryLexemes).map fun q => (q.1.2, q.2.2))) := accepts_map hentries
  have hback : (ps.map entryLexemes).map (fun q => (q.1.2, q.2.2)) = ps := by
    rw [List.map_map]
    exact List.map_id ps
  rw [← spellEntries_eq, hback] at hmap
  rwa [spell]

/-! ### Statements -/

/-- A statement is nested as deeply as its expression. -/
theorem statementReadsBack_of_expression {n : Node Unit} (hn : n.nesting = e.nesting)
    (h : ∀ sub : Sub, sub.Accepts lowest e.spell e → sub.AcceptsStatement n.spell n)
    (he : e.ReadsBack) : n.StatementReadsBack := by
  intro depth hdepth
  rw [hn] at hdepth
  exact h _ (he depth hdepth)

theorem nesting_le_nestingAll : ∀ {ns : List (Node Unit)}, ∀ n ∈ ns, nesting n ≤ nestingAll ns
  | m :: ns, n, h => by
    rw [nestingAll]
    rcases List.mem_cons.1 h with rfl | h
    · exact Nat.le_max_left ..
    · exact Nat.le_trans (nesting_le_nestingAll n h) (Nat.le_max_right ..)

/-- The statements of a block or a program. -/
theorem acceptsStatement_all {ns : List (Node Unit)} (hns : ∀ n ∈ ns, n.StatementReadsBack)
    {depth : Nat} (hdepth : nestingAll ns ≤ depth) :
    ∀ p ∈ written ns, (expression depth).AcceptsStatement p.1 p.2 := by
  intro p hp
  obtain ⟨n, hn, rfl⟩ := List.mem_map.1 hp
  exact hns n hn depth (Nat.le_trans (nesting_le_nestingAll n hn) hdepth)

theorem blockReadsBack_block {body : List (Node Unit)} (h : ∀ n ∈ body, n.StatementReadsBack) :
    (block () body).BlockReadsBack := by
  intro depth hdepth
  rw [nesting] at hdepth
  refine ⟨written body, ?_, ?_, acceptsStatement_all h hdepth⟩
  · rw [map_snd_written]
  · rw [spell, spellAll_eq, blockLexemes]

/-! ### Every tree that makes sense -/

mutual

/-- **Expressions.** One case for each way to build them. -/
theorem readsBack : ∀ n : Node Unit, n.isExpression = true → n.ReadsBack
  | integer _ n, h => by
    rw [isExpression, Bool.and_eq_true, decide_eq_true_eq, decide_eq_true_eq] at h
    refine readsBack_of_primary (by rw [nesting]) fun _ _ => ?_
    rw [spell]
    exact accepts_integer (readInt_literal h.1 h.2) h.2
  | boolean _ v, _ => by
    refine readsBack_of_primary (by rw [nesting]) fun _ _ => ?_
    rw [spell]
    exact accepts_boolean v
  | string _ text, _ => by
    refine readsBack_of_primary (by rw [nesting]) fun _ _ => ?_
    rw [spell]
    exact accepts_string text
  | identifier _ x, _ => by
    refine readsBack_of_primary (by rw [nesting]) fun _ _ => ?_
    rw [spell]
    exact accepts_identifier x
  | unary _ op e, h => by
    rw [isExpression, Bool.and_eq_true] at h
    exact readsBack_unary h.1 (readsBack e h.2)
  | binary _ op l r, h => by
    rw [isExpression, Bool.and_eq_true, Bool.and_eq_true] at h
    exact readsBack_binary h.1 (readsBack l h.2.1) (readsBack r h.2.2)
  | conditional _ c t e, h => by
    rw [isExpression, Bool.and_eq_true, Bool.and_eq_true, Bool.or_eq_true] at h
    exact readsBack_conditional (readsBack c h.1) (blockReadsBack t h.2.1)
      (h.2.2.imp_right (blockReadsBack e))
  | function _ xs b, h => by
    rw [isExpression] at h
    exact readsBack_function xs (blockReadsBack b h)
  | call _ f args, h => by
    rw [isExpression, Bool.and_eq_true] at h
    exact readsBack_call (readsBack f h.1) (readsBack_each args h.2)
  | array _ es, h => by
    rw [isExpression] at h
    exact readsBack_array (readsBack_each es h)
  | index _ l i, h => by
    rw [isExpression, Bool.and_eq_true] at h
    exact readsBack_index (readsBack l h.1) (readsBack i h.2)
  | map _ ps, h => by
    rw [isExpression] at h
    exact readsBack_map (readsBack_entries ps h)
  | absent, h | program _, h | expressionStmt .., h | valueStmt .., h | updateStmt .., h
  | returnStmt .., h | block .., h => by simp at h

theorem blockReadsBack : ∀ b : Node Unit, b.isBlock = true → b.BlockReadsBack
  | block _ body, h => by
    rw [isBlock] at h
    exact blockReadsBack_block (statementReadsBack_all body h)

theorem statementReadsBack : ∀ n : Node Unit, n.isStatement = true → n.StatementReadsBack
  | valueStmt _ x e, h => by
    rw [isStatement] at h
    refine statementReadsBack_of_expression (by rw [nesting]) (fun _ he => ?_) (readsBack e h)
    rw [spell]
    exact accepts_valueStmt he x
  | updateStmt _ x e, h => by
    rw [isStatement] at h
    refine statementReadsBack_of_expression (by rw [nesting]) (fun _ he => ?_) (readsBack e h)
    rw [spell]
    exact accepts_updateStmt he x
  | returnStmt _ e, h => by
    rw [isStatement] at h
    refine statementReadsBack_of_expression (by rw [nesting]) (fun _ he => ?_) (readsBack e h)
    rw [spell]
    exact accepts_returnStmt he
  | expressionStmt _ e, h => by
    rw [isStatement] at h
    refine statementReadsBack_of_expression (by rw [nesting]) (fun _ he => ?_) (readsBack e h)
    rw [spell]
    exact accepts_expressionStmt he

theorem readsBack_each : ∀ ns : List (Node Unit), areExpressions ns = true → ∀ n ∈ ns, n.ReadsBack
  | [], _ => nofun
  | n :: ns, h => by
    rw [areExpressions, Bool.and_eq_true] at h
    exact List.forall_mem_cons.2 ⟨readsBack n h.1, readsBack_each ns h.2⟩

theorem readsBack_entries : ∀ ps : List (Node Unit × Node Unit), areEntries ps = true →
    ∀ p ∈ ps, p.1.ReadsBack ∧ p.2.ReadsBack
  | [], _ => nofun
  | (k, v) :: ps, h => by
    rw [areEntries, Bool.and_eq_true, Bool.and_eq_true] at h
    exact List.forall_mem_cons.2 ⟨⟨readsBack k h.1, readsBack v h.2.1⟩, readsBack_entries ps h.2.2⟩

theorem statementReadsBack_all : ∀ ns : List (Node Unit), areStatements ns = true →
    ∀ n ∈ ns, n.StatementReadsBack
  | [], _ => nofun
  | n :: ns, h => by
    rw [areStatements, Bool.and_eq_true] at h
    exact List.forall_mem_cons.2 ⟨statementReadsBack n h.1, statementReadsBack_all ns h.2⟩

end

end Node

/-- **Programs written out in full.** Whatever the places of the tokens are and whatever follows
their end, reading the lexemes of a program finds no problem and gives the program back, if its
nesting is within the limit. -/
theorem program_of_spell {limit : Nat} {p : Node Unit} {tokens : List Token}
    (hp : p.isProgram = true) (hlimit : p.nesting ≤ limit)
    (htokens : (upToEnd tokens).map Token.bare = p.spell) :
    (Parse.program limit tokens).problems = [] ∧
      (Parse.program limit tokens).program.strip = p := by
  cases p with
  | program body =>
    rw [Node.isProgram] at hp
    rw [Node.nesting] at hlimit
    rw [Node.spell, Node.spellAll_eq] at htokens
    have hnothing : (expression limit).AcceptsBody [] := trivial
    have haccepts := acceptsBody_append
      (Node.acceptsStatement_all (Node.statementReadsBack_all body hp) hlimit) hnothing
    rw [List.append_nil] at haccepts
    have hprogram := program_of_acceptsBody haccepts htokens
    rwa [Node.map_snd_written] at hprogram
  | _ => cases hp

/-- The program `value f = fn (x) -> return (x) + (1); end; if (true) -> (f)((1)); end;`. -/
theorem program_of_spell_function :
    let word (kind : Kind) (literal : String) : Token := ⟨kind, literal, 0, 0⟩
    let tokens := [word .valueWord "value", word .ident "f", word .assign "=", word .fnWord "fn",
      word .lparen "(", word .ident "x", word .rparen ")", word .openBlock "->",
      word .returnWord "return", word .lparen "(", word .ident "x", word .rparen ")",
      word .plus "+", word .lparen "(", word .int "1", word .rparen ")", word .semicolon ";",
      word .closeBlock "end", word .semicolon ";", word .ifWord "if", word .lparen "(",
      word .trueWord "true", word .rparen ")", word .openBlock "->", word .lparen "(",
      word .ident "f", word .rparen ")", word .lparen "(", word .lparen "(", word .int "1",
      word .rparen ")", word .rparen ")", word .semicolon ";", word .closeBlock "end",
      word .semicolon ";", word .eof ""]
    let p : Node Unit := .program
      [.valueStmt () ⟨"f", ()⟩ (.function () [⟨"x", ()⟩]
        (.block () [.returnStmt () (.binary () "+" (.identifier () "x") (.integer () 1))])),
       .expressionStmt () (.conditional () (.boolean () true)
        (.block () [.expressionStmt () (.call () (.identifier () "f") [.integer () 1])]) .absent)]
    (parse tokens).problems = [] ∧ (parse tokens).program.strip = p := by
  intro word tokens p
  have hp : p.isProgram = true := by decide +kernel
  have hnesting : p.nesting ≤ Parse.nestingLimit := by decide +kernel
  have htokens : (upToEnd tokens).map Token.bare = p.spell := by decide +kernel
  exact program_of_spell hp hnesting htokens

end SepiaLang
