import SepiaLang.Proofs.Parse.Spelling
import SepiaLang.Proofs.Scan.Chunks
import SepiaLang.Syntax.Render

/-!
# Expressions and their canonical form

What it takes for the canonical form of an expression to be read back: it is cut into lexemes, and these
are read as the expression. Operations are in parentheses there and calls are not, so a call must bind to
the expression before it as it does in the tree.

* `Sub.AcceptsOperand`: lexemes that are read as an operand, before whatever operators.
* `Node.Shows`: an expression whose canonical form is cut into lexemes that are read as itself.
  `Node.ShowsEnclosed`: one that stands in parentheses there.
* `Node.shows_integer`, `Node.Shows.binary`, `Node.shows_call` and so on: one rule for each way to build an
  expression that has no block in it.
* `Node.ShowsStatement`: the same for a statement that ends with a semicolon, with its rules.
-/

namespace SepiaLang

open Parse

/-- The text can stand for a name: it is a word and no keyword. -/
def isName (text : String) : Bool := isWord text && Kind.ofWord text == .ident

theorem isName_iff {x : String} : isName x = true ↔ isWord x = true ∧ Kind.ofWord x = .ident := by
  rw [isName, Bool.and_eq_true, beq_iff_eq]

/-! ## Operands -/

namespace Parse

/-- The lexemes are read as the expression, whatever operators follow them: they are an expression up to
its first operator, and then calls, which bind tighter than everything else. -/
def Sub.AcceptsOperand (sub : Sub) (ls : List Lexeme) (e : Node Unit) : Prop :=
  ∃ first calls e₀, ls = first ++ calls ∧ (∀ top, sub.AcceptsPrimary top first e₀) ∧
    nextKind calls ≠ .elseWord ∧
    ∀ level < bindingPower .lparen, ∀ ms e', sub.Climbs level e ms e' → sub.Climbs level e₀ (calls ++ ms) e'

theorem nextKind_append_ne {ls ms : List Lexeme} {kind : Kind} (h : nextKind ls ≠ kind)
    (h' : nextKind ms ≠ kind) : nextKind (ls ++ ms) ≠ kind := by
  cases ls with
  | nil => exact h'
  | cons l ls => exact h

theorem bindingPower_le (kind : Kind) : bindingPower kind ≤ bindingPower .lparen := by
  unfold bindingPower
  split <;> decide

namespace Sub.AcceptsOperand

variable {sub : Sub} {ls : List Lexeme} {e e' : Node Unit}

theorem of_primary (h : ∀ top, sub.AcceptsPrimary top ls e) : sub.AcceptsOperand ls e :=
  ⟨ls, [], e, by simp, h, nofun, fun _ _ _ _ hms => hms⟩

theorem of_enclosed (h : sub.Accepts lowest ls e) : sub.AcceptsOperand (enclosed ls) e :=
  of_primary fun _ => accepts_enclosed h

theorem starts (h : sub.AcceptsOperand ls e) : nextKind ls ∈ startKinds := by
  obtain ⟨first, calls, e₀, rfl, hfirst, -⟩ := h
  have hstarts := (hfirst lowest).starts
  rwa [nextKind_append hstarts]

/-- A call of an operand is an operand. -/
theorem call {ps : List (List Lexeme × Node Unit)} (h : sub.AcceptsOperand ls e)
    (hps : ∀ p ∈ ps, sub.Accepts lowest p.1 p.2) :
    sub.AcceptsOperand (ls ++ enclosed (joined (ps.map Prod.fst))) (.call () e (ps.map Prod.snd)) := by
  obtain ⟨first, calls, e₀, rfl, hfirst, helse, hclimbs⟩ := h
  refine ⟨first, calls ++ enclosed (joined (ps.map Prod.fst)), e₀, by simp, hfirst,
    nextKind_append_ne helse nofun, fun level hlevel ms e' hms => ?_⟩
  rw [List.append_assoc]
  exact hclimbs level hlevel _ _ (climbs_call hlevel hps hms)

/-- An operand and the operators after it. -/
theorem accepts {depth level : Nat} {ms : List Lexeme} (h : (expression depth).AcceptsOperand ls e)
    (hlevel : level < bindingPower .lparen) (helse : nextKind ms ≠ .elseWord)
    (hms : (expression depth).Climbs level e ms e') :
    (expression (depth + 1)).Accepts level (ls ++ ms) e' := by
  obtain ⟨first, calls, e₀, rfl, hfirst, hcalls, hclimbs⟩ := h
  rw [List.append_assoc]
  refine accepts_expression (hfirst (bindingPower .lparen)) (fun more hmore => ?_)
    (hclimbs level hlevel ms e' hms)
  exact ⟨bindingPower_le _, nextKind_append_ne (nextKind_append_ne hcalls helse) hmore.2⟩

end Sub.AcceptsOperand

end Parse

/-! ## Expressions -/

namespace Node

/-- The canonical form of the expression is cut into the lexemes, no operator before it goes on with it,
and the lexemes are read as the expression itself, wherever so many may be nested in each other. -/
structure Shows (n : Node Unit) (ls : List Lexeme) (depth : Nat) : Prop where
  chunk : Chunk n.render ls
  halts : ∀ after, Halts (n.render.toList ++ after)
  pos : 0 < depth
  operand : ∀ d, depth ≤ d + 1 → (expression d).AcceptsOperand ls n

/-- The canonical form of the expression is in parentheses. -/
structure ShowsEnclosed (n : Node Unit) (ls : List Lexeme) (depth : Nat) : Prop where
  chunk : Chunk n.render (enclosed ls)
  opening : n.render.toList.head? = some '('
  pos : 0 < depth
  accepts : ∀ d, depth ≤ d + 1 → (expression d).Accepts lowest ls n

variable {e l r i f : Node Unit} {ls rs : List Lexeme} {depth depth' : Nat}

theorem ShowsEnclosed.shows (h : e.ShowsEnclosed ls depth) : e.Shows (enclosed ls) depth where
  chunk := h.chunk
  halts after := by
    obtain ⟨rest, hrest⟩ := List.head?_eq_some_iff.1 h.opening
    rw [hrest]
    exact halts_cons (by decide) _
  pos := h.pos
  operand d hd := .of_enclosed (h.accepts d hd)

namespace Shows

theorem mono (h : e.Shows ls depth) (hle : depth ≤ depth') : e.Shows ls depth' :=
  ⟨h.chunk, h.halts, Nat.lt_of_lt_of_le h.pos hle, fun d hd => h.operand d (Nat.le_trans hle hd)⟩

/-- The expression as a whole, above any level that a call binds tighter than. -/
theorem accepts (h : e.Shows ls depth) {d level : Nat} (hdepth : depth ≤ d)
    (hlevel : level < bindingPower .lparen) : (expression d).Accepts level ls e := by
  have hpos := h.pos
  obtain ⟨d, rfl⟩ : ∃ k, d = k + 1 := ⟨d - 1, by omega⟩
  have hend : nextKind [] ≠ .elseWord := by decide
  have hwhole := (h.operand d hdepth).accepts hlevel hend climbs_nil
  rwa [List.append_nil] at hwhole

theorem starts (h : e.Shows ls depth) : nextKind ls ∈ startKinds :=
  (h.operand depth (Nat.le_succ depth)).starts

end Shows

/-- An expression of one lexeme. -/
theorem shows_of_lexeme {lexeme : Lexeme} (hchunk : Chunk e.render [lexeme])
    (hhalts : ∀ after, Halts (e.render.toList ++ after))
    (h : ∀ (sub : Sub) (top : Nat), sub.AcceptsPrimary top [lexeme] e) : e.Shows [lexeme] 1 where
  chunk := hchunk
  halts := hhalts
  pos := Nat.one_pos
  operand d _ := .of_primary (h (expression d))

theorem shows_integer {n : Int} (h₀ : 0 ≤ n) (hn : n ≤ Word64.greatest) :
    (integer () n).Shows [(.int, toString n)] 1 := by
  obtain ⟨m, rfl⟩ := Int.eq_ofNat_of_zero_le h₀
  refine shows_of_lexeme ?_ ?_ fun sub top => accepts_integer (readInt_literal h₀ hn) hn
  · intro after more hafter h
    rw [render]
    exact lexes_number m hafter h
  · intro after
    rw [render]
    exact halts_number m after

theorem shows_boolean (b : Bool) :
    (boolean () b).Shows [if b then (.trueWord, "true") else (.falseWord, "false")] 1 := by
  have hword (text : String) (htext : isWord text = true) : Chunk text [(.ofWord text, text)] :=
    fun _ _ hafter h => lexes_word htext hafter h
  refine shows_of_lexeme ?_ ?_ fun sub top => accepts_boolean b
  · cases b with
    | true => exact hword "true" (by decide)
    | false => exact hword "false" (by decide)
  · intro after
    cases b with
    | true => exact halts_word (show isWord "true" = true by decide) after
    | false => exact halts_word (show isWord "false" = true by decide) after

theorem shows_string {text : String} (h : '"' ∉ text.toList) : (string () text).Shows [(.string, text)] 1 := by
  have hchars : (string () text : Node Unit).render.toList = '"' :: (text.toList ++ ['"']) := by
    simp [render]
  refine shows_of_lexeme ?_ ?_ fun sub top => accepts_string text
  · intro after more hafter hmore
    rw [hchars]
    simpa using lexes_string h hmore
  · intro after
    rw [hchars]
    exact halts_cons (by decide) _

theorem shows_identifier {x : String} (hx : isName x = true) : (identifier () x).Shows [(.ident, x)] 1 := by
  obtain ⟨hword, hident⟩ := isName_iff.1 hx
  refine shows_of_lexeme ?_ ?_ fun sub top => accepts_identifier x
  · intro after more hafter h
    rw [render, ← hident]
    exact lexes_word hword hafter h
  · intro after
    rw [render]
    exact halts_word hword after

/-- An operator of a table, with its kind. -/
theorem exists_operator {table : List (String × Kind)} {op : String} (h : (table.lookup op).isSome = true) :
    ∃ kind, operator table op = (kind, op) ∧ (op, kind) ∈ table := by
  obtain ⟨kind, hkind⟩ := Option.isSome_iff_exists.1 h
  exact ⟨kind, by rw [operator, hkind]; rfl, Assoc.mem_of_lookup hkind⟩

theorem Shows.unary {op : String} (hop : (prefixOperators.lookup op).isSome = true) (he : e.Shows ls depth) :
    (unary () op e).ShowsEnclosed (operator prefixOperators op :: ls) (depth + 2) where
  chunk := by
    intro after more _ hmore
    obtain ⟨kind, hkind, hmem⟩ := exists_operator hop
    have hsymbols : ∀ p ∈ prefixOperators, isSymbol p.1 p.2 = true := by decide
    have hclose := lexes_single (show single? ')' = some .rparen from rfl) hmore
    have hoperand := he.chunk _ _ (loose_cons (by decide) after) hclose
    have hall := lexes_single (show single? '(' = some .lparen from rfl)
      (lexes_symbol (hsymbols _ hmem) (he.halts _) hoperand)
    rw [hkind]
    simpa [render, enclosed] using hall
  opening := by simp [render]
  pos := Nat.succ_pos _
  accepts d hd := by
    obtain ⟨d, rfl⟩ : ∃ k, d = k + 1 := ⟨d - 1, by omega⟩
    have hunary := accepts_unary (operator_kind (by decide) hop) op
      (he.accepts (show depth ≤ d by omega) (by decide))
    exact accepts_of_primary hunary (by decide)

/-- An operator between blanks. -/
theorem lexes_infixOperator {op : String} (hop : (infixOperators.lookup op).isSome = true) {after : List Char}
    {more : List Lexeme} (h : Lexes after more) :
    Lexes (op.toList ++ ' ' :: after) (operator infixOperators op :: more) := by
  obtain ⟨kind, hkind, hmem⟩ := exists_operator hop
  have hoperators : ∀ p ∈ infixOperators,
      isSymbol p.1 p.2 = true ∨ isWord p.1 = true ∧ Kind.ofWord p.1 = p.2 := by decide
  rw [hkind]
  rcases hoperators _ hmem with hsymbol | ⟨hword, hofWord⟩
  · exact lexes_symbol hsymbol (halts_cons (by decide) after) (lexes_blank h)
  · have hlexes := lexes_word hword (loose_cons (by decide) after) (lexes_blank h)
    rwa [hofWord] at hlexes

theorem Shows.binary {op : String} (hop : (infixOperators.lookup op).isSome = true) (hl : l.Shows ls depth)
    (hr : r.Shows rs depth') :
    (binary () op l r).ShowsEnclosed (ls ++ operator infixOperators op :: rs) (max depth (depth' + 1) + 1) where
  chunk := by
    intro after more _ hmore
    have hclose := lexes_single (show single? ')' = some .rparen from rfl) hmore
    have hright := hr.chunk _ _ (loose_cons (by decide) after) hclose
    have hleft := hl.chunk _ _ (loose_cons (by decide) _) (lexes_blank (lexes_infixOperator hop hright))
    have hall := lexes_single (show single? '(' = some .lparen from rfl) hleft
    simpa [render, enclosed] using hall
  opening := by simp [render]
  pos := Nat.succ_pos _
  accepts d hd := by
    have hpos := hl.pos
    obtain ⟨d, rfl⟩ : ∃ k, d = k + 1 := ⟨d - 1, by omega⟩
    have hkind : (operator infixOperators op).1 ∈ infixKinds := operator_kind (by decide) hop
    have hpower := lowest_lt_of_infixKinds _ hkind
    have htight : ∀ kind ∈ infixKinds, bindingPower kind < bindingPower .lparen := by decide
    have helse : ∀ kind ∈ infixKinds, kind ≠ .elseWord := by decide
    have hclimbs : (expression d).Climbs lowest l (operator infixOperators op :: (rs ++ []))
        (Node.binary () op l r) :=
      climbs_binary hkind hpower (hr.accepts (by omega) (htight _ hkind))
        (fun more hmore => ⟨Nat.le_trans hmore.1 hpower.le, hmore.2⟩) climbs_nil
    rw [List.append_nil] at hclimbs
    exact (hl.operand d (by omega)).accepts (by decide) (helse _ hkind) hclimbs

theorem Shows.index (hl : l.Shows ls depth) (hi : i.Shows rs depth') :
    (index () l i).ShowsEnclosed (ls ++ (.lbracket, "[") :: (rs ++ [(.rbracket, "]")]))
      (max depth (depth' + 1) + 1) where
  chunk := by
    intro after more _ hmore
    have hclose := lexes_single (show single? ')' = some .rparen from rfl) hmore
    have hbracket := lexes_single (show single? ']' = some .rbracket from rfl) hclose
    have hindex := hi.chunk _ _ (loose_cons (by decide) _) hbracket
    have hopen := lexes_single (show single? '[' = some .lbracket from rfl) hindex
    have hleft := hl.chunk _ _ (loose_cons (by decide) _) hopen
    have hall := lexes_single (show single? '(' = some .lparen from rfl) hleft
    simpa [render, enclosed] using hall
  opening := by simp [render]
  pos := Nat.succ_pos _
  accepts d hd := by
    have hpos := hl.pos
    obtain ⟨d, rfl⟩ : ∃ k, d = k + 1 := ⟨d - 1, by omega⟩
    have hclimbs : (expression d).Climbs lowest l
        ((.lbracket, "[") :: (rs ++ [(.rbracket, "]")] ++ [])) (Node.index () l i) :=
      climbs_index (by decide) (hi.accepts (by omega) (by decide)) climbs_nil
    rw [List.append_nil] at hclimbs
    have helse : Kind.lbracket ≠ .elseWord := by decide
    exact (hl.operand d (by omega)).accepts (by decide) helse hclimbs

/-! ### Lists -/

theorem renderAll_eq_map {α : Type} (ns : List (Node α)) : renderAll ns = ns.map render := by
  induction ns with
  | nil => rfl
  | cons n ns ih => rw [renderAll, ih, List.map_cons]

theorem renderPairs_eq_map {α : Type} (ps : List (Node α × Node α)) :
    renderPairs ps = ps.map fun p => p.1.render ++ ": " ++ p.2.render := by
  induction ps with
  | nil => rfl
  | cons p ps ih => rw [renderPairs, ih, List.map_cons]

section Lists

variable {ns : List (Node Unit)} {g : Node Unit → List Lexeme} (hns : ∀ n ∈ ns, n.Shows (g n) depth)
include hns

theorem chunk_renderAll : Chunk (String.intercalate ", " (renderAll ns)) (joined (ns.map g)) := by
  have hps : ∀ p ∈ ns.map fun n => (n.render, g n), Chunk p.1 p.2 := by
    intro p hp
    obtain ⟨n, hn, rfl⟩ := List.mem_map.1 hp
    exact (hns n hn).chunk
  have hchunk := chunk_intercalate hps
  rw [List.map_map, List.map_map] at hchunk
  rw [renderAll_eq_map]
  exact hchunk

theorem accepts_each_shown {d : Nat} (hdepth : depth ≤ d) :
    ∀ p ∈ ns.map fun n => (g n, n), (expression d).Accepts lowest p.1 p.2 := by
  intro p hp
  obtain ⟨n, hn, rfl⟩ := List.mem_map.1 hp
  exact (hns n hn).accepts hdepth (by decide)

theorem shows_array :
    (array () ns).Shows ((.lbracket, "[") :: (joined (ns.map g) ++ [(.rbracket, "]")])) (depth + 1) where
  chunk := by
    rw [render]
    exact (chunk_renderAll hns).between (show single? '[' = some .lbracket from rfl)
      (show single? ']' = some .rbracket from rfl)
  halts after := by
    simpa [render] using halts_cons (by decide) _
  pos := Nat.succ_pos _
  operand d hd := by
    have helements := accepts_each_shown hns (Nat.le_of_succ_le_succ hd)
    have harray : (expression d).AcceptsOperand _ _ := .of_primary fun _ => accepts_array helements
    rwa [map_snd_pairs, List.map_map] at harray

theorem shows_call (hf : f.Shows ls depth') :
    (call () f ns).Shows (ls ++ enclosed (joined (ns.map g))) (max depth' (depth + 1)) where
  chunk := by
    intro after more _ hmore
    have hclose := lexes_single (show single? ')' = some .rparen from rfl) hmore
    have hargs := chunk_renderAll hns _ _ (loose_cons (by decide) after) hclose
    have hopen := lexes_single (show single? '(' = some .lparen from rfl) hargs
    have hall := hf.chunk _ _ (loose_cons (by decide) _) hopen
    simpa [render, enclosed] using hall
  halts after := by
    have hcallee := hf.halts ('(' :: (String.intercalate ", " (renderAll ns)).toList ++ ')' :: after)
    simpa [render] using hcallee
  pos := by omega
  operand d hd := by
    have hargs := accepts_each_shown hns (show depth ≤ d by omega)
    have hcall := (hf.operand d (by omega)).call hargs
    rwa [map_snd_pairs, List.map_map] at hcall

end Lists

section Entries

variable {ps : List (Node Unit × Node Unit)} {g : Node Unit → List Lexeme}
  (hps : ∀ p ∈ ps, p.1.Shows (g p.1) depth ∧ p.2.Shows (g p.2) depth)
include hps

theorem chunk_renderPairs : Chunk (String.intercalate ", " (renderPairs ps))
    (joined (ps.map fun p => g p.1 ++ (.colon, ":") :: g p.2)) := by
  have hentries : ∀ q ∈ ps.map fun p =>
      (p.1.render ++ ": " ++ p.2.render, g p.1 ++ (.colon, ":") :: g p.2), Chunk q.1 q.2 := by
    intro q hq
    obtain ⟨p, hp, rfl⟩ := List.mem_map.1 hq
    exact (hps p hp).1.chunk.entry (hps p hp).2.chunk
  have hchunk := chunk_intercalate hentries
  rw [List.map_map, List.map_map] at hchunk
  rw [renderPairs_eq_map]
  exact hchunk

theorem shows_map : (map () ps).Shows ((.lbrace, "\x7b") ::
    (joined (ps.map fun p => g p.1 ++ (.colon, ":") :: g p.2) ++ [(.rbrace, "\x7d")])) (depth + 1) where
  chunk := by
    rw [render]
    exact (chunk_renderPairs hps).between (show single? '\x7b' = some .lbrace from rfl)
      (show single? '\x7d' = some .rbrace from rfl)
  halts after := by
    simpa [render] using halts_cons (by decide) _
  pos := Nat.succ_pos _
  operand d hd := by
    let part (n : Node Unit) : List Lexeme × Node Unit := (g n, n)
    have hentries : ∀ q ∈ ps.map fun p => (part p.1, part p.2),
        (expression d).Accepts lowest q.1.1 q.1.2 ∧ (expression d).Accepts lowest q.2.1 q.2.2 := by
      intro q hq
      obtain ⟨p, hp, rfl⟩ := List.mem_map.1 hq
      have hle := Nat.le_of_succ_le_succ hd
      exact ⟨(hps p hp).1.accepts hle (by decide), (hps p hp).2.accepts hle (by decide)⟩
    have hmap : (expression d).AcceptsOperand _ _ := .of_primary fun _ => accepts_map hentries
    rw [List.map_map, List.map_map] at hmap
    have hback : ps.map ((fun q : EntryLexemes => (q.1.2, q.2.2)) ∘ fun p => (part p.1, part p.2)) = ps :=
      List.map_id ps
    rwa [hback] at hmap

end Entries

/-! ## Statements -/

/-- The canonical form of the statement is cut into the lexemes, and these are read as the statement
itself, whatever follows it. -/
structure ShowsStatement (n : Node Unit) (ls : List Lexeme) (depth : Nat) : Prop where
  lexes : ∀ (after : List Char) (more : List Lexeme), Lexes after more →
    Lexes (n.render.toList ++ after) (ls ++ more)
  accepts : ∀ d, depth ≤ d → (expression d).AcceptsStatement ls n

/-- The text of a statement that binds a name. -/
theorem lexes_binding {word : String} {kind : Kind} (hword : isWord word = true)
    (hkind : Kind.ofWord word = kind) {x : Ident Unit} (hx : isName x.text = true) (he : Chunk e.render ls)
    {after : List Char} {more : List Lexeme} (h : Lexes after more) :
    Lexes ((word ++ " " ++ x.text ++ " = " ++ e.render ++ ";").toList ++ after)
      (bindingLexemes (kind, word) x ls ++ more) := by
  obtain ⟨hname, hident⟩ := isName_iff.1 hx
  have hend := lexes_single (show single? ';' = some .semicolon from rfl) h
  have hvalue := lexes_blank (he _ _ (loose_cons (by decide) after) hend)
  have hassign := lexes_symbol (show isSymbol "=" .assign = true by decide)
    (halts_cons (by decide) _) hvalue
  have hbound := lexes_word hname (loose_cons (by decide) _) (lexes_blank hassign)
  have hall := lexes_word hword (loose_cons (by decide) _) (lexes_blank hbound)
  rw [hident, hkind] at hall
  rw [bindingLexemes_append]
  simpa [semicolon] using hall

namespace Shows

variable {x : Ident Unit}

theorem valueStmt (he : e.Shows ls depth) (hx : isName x.text = true) :
    (valueStmt () x e).ShowsStatement (bindingLexemes (.valueWord, "value") x ls) depth where
  lexes after more hmore := by
    have hword : Kind.ofWord "value" = .valueWord := by decide
    have hall := lexes_binding (by decide) hword hx he.chunk hmore
    rw [render]
    simpa using hall
  accepts d hd := accepts_valueStmt (he.accepts hd (by decide)) x

theorem updateStmt (he : e.Shows ls depth) (hx : isName x.text = true) :
    (updateStmt () x e).ShowsStatement (bindingLexemes (.updateWord, "update") x ls) depth where
  lexes after more hmore := by
    have hword : Kind.ofWord "update" = .updateWord := by decide
    have hall := lexes_binding (by decide) hword hx he.chunk hmore
    rw [render]
    simpa using hall
  accepts d hd := accepts_updateStmt (he.accepts hd (by decide)) x

theorem returnStmt (he : e.Shows ls depth) :
    (returnStmt () e).ShowsStatement ((.returnWord, "return") :: (ls ++ [semicolon])) depth where
  lexes after more hmore := by
    have hend := lexes_single (show single? ';' = some .semicolon from rfl) hmore
    have hvalue := lexes_blank (he.chunk _ _ (loose_cons (by decide) after) hend)
    have hall := lexes_word (show isWord "return" = true by decide) (loose_cons (by decide) _) hvalue
    have hword : Kind.ofWord "return" = .returnWord := by decide
    rw [hword] at hall
    rw [render]
    simpa [semicolon] using hall
  accepts d hd := accepts_returnStmt (he.accepts hd (by decide))

end Shows

/-- An expression as a statement has the text of the expression. -/
theorem render_expressionStmt (he : e ≠ absent) : (expressionStmt () e).render = e.render := by
  cases e with
  | absent => exact absurd rfl he
  | _ => rfl

end Node

end SepiaLang
