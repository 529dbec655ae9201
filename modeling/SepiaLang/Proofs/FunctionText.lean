import SepiaLang.Eval.Basic
import SepiaLang.Proofs.Parse.Proper
import SepiaLang.Proofs.Parse.Shows
import SepiaLang.Session
import SepiaLang.Syntax.Alike

/-!
# The text of a function

A function is shown as its source: parameters, arrow, the statements of its body with blanks between them,
and `end`. This text is read as the same function if two things are avoided, since the text has no
parentheses around the condition of a choice, and no semicolon after an expression.

* `Node.isReadable`: every condition is an operation, which is in parentheses by itself, and no expression
  is followed by another one that starts with a bracket. `Node.shownDepth`: how deeply the text is nested.
* `Node.ShowsBlock`: a block whose text is cut into lexemes that are read as its statements.
  `Node.ShowsBlock.function`, `Node.ShowsEnclosed.conditional`: the expressions with blocks in them.
* `Node.Displays`, `Node.DisplaysStatement`: readable expressions and statements, with their own depth.
* **`displayed_of_yields`**: what is read without a problem is displayed, if it is readable.
* `yields_of_occurs`: a function that occurs in what is read is read itself.
* **`function_text_read_back`**: the text of a function.
-/

namespace SepiaLang

open Parse SepiaLang.Computation

namespace Node

/-! ## Trees whose text can be read -/

/-- The canonical form of the expression is in parentheses. -/
def isEnclosed : Node Unit → Bool
  | unary .. | binary .. | index .. => true
  | _ => false

/-- The canonical form of the expression or the statement starts with a parenthesis or a bracket, so that
it goes on with an expression before it. -/
def opensBracket : Node Unit → Bool
  | unary .. | binary .. | index .. | array .. => true
  | call _ f _ | expressionStmt _ f => opensBracket f
  | _ => false

/-- The tree is an expression as a statement. -/
def isExpressionStmt : Node Unit → Bool
  | expressionStmt .. => true
  | _ => false

/-- No statement goes on with an expression before it. -/
def keepApart : List (Node Unit) → Bool
  | n :: m :: ns => !(n.isExpressionStmt && m.opensBracket) && keepApart (m :: ns)
  | _ => true

mutual

/-- The conditions of all choices in the tree are in parentheses, and the statements of all blocks are kept
apart. -/
@[simp] def isReadable : Node Unit → Bool
  | absent | integer .. | boolean .. | string .. | identifier .. => true
  | program body | array _ body => areReadable body
  | block _ body => keepApart body && areReadable body
  | expressionStmt _ e | valueStmt _ _ e | updateStmt _ _ e | returnStmt _ e | unary _ _ e
  | function _ _ e => isReadable e
  | binary _ _ l r | index _ l r => isReadable l && isReadable r
  | conditional _ c t e => c.isEnclosed && (isReadable c && (isReadable t && isReadable e))
  | call _ f args => isReadable f && areReadable args
  | map _ ps => areReadableEntries ps

/-- All the trees are such trees. -/
@[simp] def areReadable : List (Node Unit) → Bool
  | [] => true
  | n :: ns => isReadable n && areReadable ns

/-- Both trees of every pair are such trees. -/
@[simp] def areReadableEntries : List (Node Unit × Node Unit) → Bool
  | [] => true
  | (k, v) :: ps => isReadable k && (isReadable v && areReadableEntries ps)

end

mutual

/-- How many expressions are nested in each other when the canonical form is read. The parentheses of an
operation count as one, but not where they are those around a condition. -/
@[simp] def shownDepth : Node Unit → Nat
  | absent => 0
  | integer .. | boolean .. | string .. | identifier .. => 1
  | unary _ _ e => shownDepth e + 2
  | binary _ _ l r | index _ l r => max (shownDepth l) (shownDepth r + 1) + 1
  | conditional _ c t e => max (shownDepth c) (max (shownDepth t) (shownDepth e) + 1)
  | function _ _ b => shownDepth b + 1
  | call _ f args => max (shownDepth f) (shownDepthAll args + 1)
  | array _ es => shownDepthAll es + 1
  | map _ ps => shownDepthEntries ps + 1
  | valueStmt _ _ e | updateStmt _ _ e | returnStmt _ e | expressionStmt _ e => shownDepth e
  | program body | block _ body => shownDepthAll body

/-- The nesting of several trees. -/
@[simp] def shownDepthAll : List (Node Unit) → Nat
  | [] => 0
  | n :: ns => max (shownDepth n) (shownDepthAll ns)

/-- The nesting of the entries of a map. -/
@[simp] def shownDepthEntries : List (Node Unit × Node Unit) → Nat
  | [] => 0
  | (k, v) :: ps => max (max (shownDepth k) (shownDepth v)) (shownDepthEntries ps)

end

theorem areReadable_iff {ns : List (Node Unit)} : areReadable ns = true ↔ ∀ n ∈ ns, n.isReadable = true := by
  induction ns with
  | nil => simp
  | cons n ns ih => rw [areReadable, Bool.and_eq_true, ih, List.forall_mem_cons]

theorem areReadableEntries_iff {ps : List (Node Unit × Node Unit)} :
    areReadableEntries ps = true ↔ ∀ p ∈ ps, p.1.isReadable = true ∧ p.2.isReadable = true := by
  induction ps with
  | nil => simp
  | cons p ps ih =>
    rw [areReadableEntries, Bool.and_eq_true, Bool.and_eq_true, ih, List.forall_mem_cons, and_assoc]

/-- The parts of a readable tree are readable. -/
theorem isReadable_child {n m : Node Unit} (h : n.isReadable = true) (hm : m ∈ n.children) :
    m.isReadable = true := by
  cases n with
  | absent | integer | boolean | string | identifier => cases hm
  | map _ ps =>
    rw [isReadable, areReadableEntries_iff] at h
    obtain ⟨p, hp, hm⟩ := List.mem_flatMap.1 hm
    rcases List.mem_cons.1 hm with rfl | hm
    · exact (h p hp).1
    · rw [List.mem_singleton.1 hm]
      exact (h p hp).2
  | _ =>
    simp only [isReadable, Bool.and_eq_true, areReadable_iff] at h
    simp only [children, List.mem_cons, List.not_mem_nil, or_false] at hm
    grind

theorem shownDepth_le_all : ∀ {ns : List (Node Unit)}, ∀ n ∈ ns, n.shownDepth ≤ shownDepthAll ns
  | m :: ns, n, h => by
    rw [shownDepthAll]
    rcases List.mem_cons.1 h with rfl | h
    · exact Nat.le_max_left ..
    · exact Nat.le_trans (shownDepth_le_all n h) (Nat.le_max_right ..)

theorem shownDepth_le_entries : ∀ {ps : List (Node Unit × Node Unit)}, ∀ p ∈ ps,
    p.1.shownDepth ≤ shownDepthEntries ps ∧ p.2.shownDepth ≤ shownDepthEntries ps
  | (k, v) :: ps, p, h => by
    rw [shownDepthEntries]
    rcases List.mem_cons.1 h with rfl | h
    · show k.shownDepth ≤ _ ∧ v.shownDepth ≤ _
      omega
    · have hrest := shownDepth_le_entries p h
      omega

/-! ## Blocks -/

/-- The tree is a block of the statements. Its canonical form is cut into their lexemes, which are read as
the statements, one after the other. -/
structure ShowsBlock (b : Node Unit) (ps : List (List Lexeme × Node Unit)) (depth : Nat) : Prop where
  eq : b = .block () (ps.map Prod.snd)
  lexes : ∀ (after : List Char) (more : List Lexeme), Lexes after more →
    Lexes (b.render.toList ++ ' ' :: after) (ps.flatMap Prod.fst ++ more)
  accepts : ∀ d, depth ≤ d → (expression d).AcceptsBlock ps

variable {b c t e : Node Unit} {ls : List Lexeme} {ps qs : List (List Lexeme × Node Unit)}
  {depth depth' depth'' : Nat}

/-- A block between the arrow and `end`. -/
theorem ShowsBlock.lexes_arrow (h : b.ShowsBlock ps depth) {after : List Char} {more : List Lexeme}
    (hafter : Loose after) (hmore : Lexes after more) :
    Lexes (("-> " ++ b.render ++ " end").toList ++ after) (blockLexemes ps ++ more) := by
  have hword : Kind.ofWord "end" = .closeBlock := by decide
  have hend := lexes_word (show isWord "end" = true by decide) hafter hmore
  rw [hword] at hend
  have hall := lexes_symbol (show isSymbol "->" .openBlock = true by decide) (halts_cons (by decide) _)
    (lexes_blank (h.lexes _ _ hend))
  simpa [blockLexemes] using hall

/-- A function. -/
theorem ShowsBlock.function (hb : b.ShowsBlock ps depth) {xs : List (Ident Unit)}
    (hxs : ∀ x ∈ xs, isName x.text = true) :
    (function () xs b).Shows ((.fnWord, "fn") :: (enclosed (joined (xs.map name)) ++ blockLexemes ps))
      (depth + 1) where
  chunk := by
    intro after more hafter hmore
    have hnames : ∀ q ∈ xs.map fun x => (x.text, name x), Chunk q.1 q.2 := by
      intro q hq
      obtain ⟨x, hx, rfl⟩ := List.mem_map.1 hq
      intro after more hafter h
      obtain ⟨hword, hident⟩ := isName_iff.1 (hxs x hx)
      rw [name, ← hident]
      exact lexes_word hword hafter h
    have hparams := chunk_intercalate hnames
    rw [List.map_map, List.map_map] at hparams
    have hclose := lexes_single (show single? ')' = some .rparen from rfl)
      (lexes_blank (hb.lexes_arrow hafter hmore))
    have hopen := lexes_single (show single? '(' = some .lparen from rfl)
      (hparams _ _ (loose_cons (by decide) _) hclose)
    have hall := lexes_word (show isWord "fn" = true by decide) (loose_cons (by decide) _) hopen
    have hword : Kind.ofWord "fn" = .fnWord := by decide
    rw [hword] at hall
    simpa [render, enclosed, Function.comp_def] using hall
  halts after := by
    simpa [render] using halts_cons (by decide) _
  pos := Nat.succ_pos _
  operand d hd := by
    rw [hb.eq]
    exact .of_primary fun _ => accepts_function xs (hb.accepts d (Nat.le_of_succ_le_succ hd))

/-! ## Choices -/

/-- The text of the `else` branch of a choice. -/
def alternativeText : Node Unit → String
  | absent => ""
  | e => " else -> " ++ e.render ++ " end"

theorem render_conditional (c t e : Node Unit) : (conditional () c t e).render =
    "if " ++ c.render ++ " -> " ++ t.render ++ " end" ++ alternativeText e := by
  have hwords : (" end else -> " : String) = " end" ++ " else -> " := by decide
  cases e with
  | absent => simp [render, alternativeText]
  | _ => simp only [render, alternativeText, hwords, String.append_assoc]

/-- The `else` branch is a block with the statements, or missing. -/
structure ShowsAlternative (e : Node Unit) (qs? : Option (List (List Lexeme × Node Unit))) (depth : Nat) :
    Prop where
  eq : e = alternativeNode qs?
  chunk : Chunk (alternativeText e) (alternativeLexemes qs?)
  loose : ∀ after, Loose after → Loose ((alternativeText e).toList ++ after)
  accepts : ∀ d, depth ≤ d → ∀ qs ∈ qs?, (expression d).AcceptsBlock qs

theorem showsAlternative_absent : absent.ShowsAlternative none depth where
  eq := rfl
  chunk := fun _ _ _ hmore => hmore
  loose := fun _ hafter => hafter
  accepts := nofun

theorem ShowsBlock.alternative (h : e.ShowsBlock qs depth) : e.ShowsAlternative (some qs) depth := by
  have htext : (alternativeText e).toList =
      ' ' :: ("else".toList ++ ' ' :: ("-> " ++ e.render ++ " end").toList) := by
    rw [h.eq]
    simp [alternativeText]
  refine ⟨h.eq, fun after more hafter hmore => ?_, fun after _ => ?_, fun d hd => ?_⟩
  · have hblock := lexes_blank (h.lexes_arrow hafter hmore)
    have helse := lexes_word (show isWord "else" = true by decide) (loose_cons (by decide) _) hblock
    have hall := lexes_blank helse
    have hword : Kind.ofWord "else" = .elseWord := by decide
    rw [hword] at hall
    rw [htext]
    simpa [alternativeLexemes] using hall
  · rw [htext]
    exact loose_cons (by decide) _
  · rintro _ ⟨⟩
    exact h.accepts d hd

/-- **A choice.** The parentheses of its condition are those that the condition has by itself. -/
theorem ShowsEnclosed.conditional {qs? : Option (List (List Lexeme × Node Unit))}
    (hc : c.ShowsEnclosed ls depth) (ht : t.ShowsBlock ps depth') (he : e.ShowsAlternative qs? depth'') :
    (conditional () c t e).Shows
      ((.ifWord, "if") :: (enclosed ls ++ (blockLexemes ps ++ alternativeLexemes qs?)))
      (max depth (max depth' depth'' + 1)) where
  chunk := by
    intro after more hafter hmore
    have hblock := lexes_blank (ht.lexes_arrow (he.loose _ hafter) (he.chunk _ _ hafter hmore))
    have hcondition := lexes_blank (hc.chunk _ _ (loose_cons (by decide) _) hblock)
    have hall := lexes_word (show isWord "if" = true by decide) (loose_cons (by decide) _) hcondition
    have hword : Kind.ofWord "if" = .ifWord := by decide
    rw [hword] at hall
    rw [render_conditional]
    simpa using hall
  halts after := by
    rw [render_conditional]
    simpa using halts_cons (by decide) _
  pos := by omega
  operand d hd := by
    rw [ht.eq, he.eq]
    exact .of_primary fun _ =>
      accepts_conditional (hc.accepts d (by omega)) (ht.accepts d (by omega)) (he.accepts d (by omega))

/-! ## Expressions and statements with their own depth -/

/-- The expression is shown. If its canonical form does not start with a bracket, it does not go on with an
expression before it. -/
structure Displays (n : Node Unit) (ls : List Lexeme) : Prop where
  shows : n.Shows ls n.shownDepth
  enclosed : n.isEnclosed = true → ∃ inner, n.ShowsEnclosed inner n.shownDepth
  apart : n.opensBracket = false → bindingPower (nextKind ls) ≤ lowest

/-- An expression before the lexemes ends before them, also without a semicolon. -/
def Apart (ls : List Lexeme) : Prop := Follows lowest ls ∧ nextKind ls ≠ .semicolon

/-- What comes after the first lexeme does not matter. -/
theorem Apart.append {ls : List Lexeme} (h : Apart ls) (hls : nextKind ls ≠ .eof) (more : List Lexeme) :
    Apart (ls ++ more) := by
  cases ls with
  | nil => exact absurd rfl hls
  | cons l ls => exact h

/-- The statement is shown, and read before all that keeps apart from it. -/
structure DisplaysStatement (n : Node Unit) (ls : List Lexeme) : Prop where
  chunk : Chunk n.render ls
  starts : nextKind ls ≠ .closeBlock ∧ nextKind ls ≠ .eof
  apart : n.opensBracket = false → Apart ls
  accepts : ∀ d, n.shownDepth ≤ d → ∀ more, (n.isExpressionStmt = true → Apart more) →
    (expression d).AcceptsBefore more ls n

theorem Shows.displays (h : e.Shows ls e.shownDepth) (he : e.isEnclosed = false)
    (hls : bindingPower (nextKind ls) ≤ lowest) : e.Displays ls :=
  ⟨h, fun henclosed => absurd (he.symm.trans henclosed) (by decide), fun _ => hls⟩

theorem ShowsEnclosed.displays (h : e.ShowsEnclosed ls e.shownDepth) (hopens : e.opensBracket = true) :
    e.Displays (Parse.enclosed ls) :=
  ⟨h.shows, fun _ => ⟨ls, h⟩, fun hne => absurd (hopens.symm.trans hne) (by decide)⟩

/-- A call starts with what is called. -/
theorem Displays.call (h : e.Displays ls) {ns : List (Node Unit)} {g : Node Unit → List Lexeme}
    (hns : ∀ n ∈ ns, n.Shows (g n) (shownDepthAll ns)) :
    (call () e ns).Displays (ls ++ Parse.enclosed (joined (ns.map g))) where
  shows := by
    rw [shownDepth]
    exact shows_call hns h.shows
  enclosed := nofun
  apart hopens := by
    rw [nextKind_append h.shows.starts]
    exact h.apart hopens

theorem displays_array {ns : List (Node Unit)} {g : Node Unit → List Lexeme}
    (hns : ∀ n ∈ ns, n.Shows (g n) (shownDepthAll ns)) :
    (array () ns).Displays ((.lbracket, "[") :: (joined (ns.map g) ++ [(.rbracket, "]")])) where
  shows := by
    rw [shownDepth]
    exact shows_array hns
  enclosed := nofun
  apart := nofun

theorem displays_map {es : List (Node Unit × Node Unit)} {g : Node Unit → List Lexeme}
    (hes : ∀ p ∈ es, p.1.Shows (g p.1) (shownDepthEntries es) ∧ p.2.Shows (g p.2) (shownDepthEntries es)) :
    (map () es).Displays ((.lbrace, "\x7b") ::
      (joined (es.map fun p => g p.1 ++ (.colon, ":") :: g p.2) ++ [(.rbrace, "\x7d")])) where
  shows := by
    rw [shownDepth]
    exact shows_map hes
  enclosed := nofun
  apart _ := Nat.le_refl lowest

theorem Displays.expressionStmt (h : e.Displays ls) : (expressionStmt () e).DisplaysStatement ls where
  chunk := by
    have he : e ≠ absent := by
      rintro rfl
      exact absurd h.shows.pos (by simp)
    rw [render_expressionStmt he]
    exact h.shows.chunk
  starts := ⟨ne_of_start h.shows.starts (by decide), ne_of_start h.shows.starts (by decide)⟩
  apart hopens := by
    rw [opensBracket] at hopens
    exact ⟨⟨h.apart hopens, ne_of_start h.shows.starts (by decide)⟩, ne_of_start h.shows.starts (by decide)⟩
  accepts d hd more hmore := by
    rw [shownDepth] at hd
    obtain ⟨hfollows, hend⟩ := hmore rfl
    exact accepts_openExpression (h.shows.accepts hd (by decide)) hfollows hend

/-- A statement that ends with a semicolon. -/
theorem ShowsStatement.displays {n : Node Unit} (h : n.ShowsStatement ls n.shownDepth)
    (hls : nextKind ls ∈ [.valueWord, .updateWord, .returnWord]) : n.DisplaysStatement ls where
  chunk after more _ hmore := h.lexes after more hmore
  starts := (h.accepts _ (Nat.le_refl _)).starts
  apart _ := by
    have hwords : ∀ kind ∈ [Kind.valueWord, .updateWord, .returnWord],
        bindingPower kind ≤ lowest ∧ kind ≠ .elseWord ∧ kind ≠ .semicolon := by decide
    obtain ⟨hpower, helse, hend⟩ := hwords _ hls
    exact ⟨⟨hpower, helse⟩, hend⟩
  accepts d hd more _ := (h.accepts d hd).before more

/-! ### Statements one after the other -/

theorem keepApart_tail {n : Node Unit} {ns : List (Node Unit)} (h : keepApart (n :: ns) = true) :
    keepApart ns = true := by
  cases ns with
  | nil => rfl
  | cons m ns => exact (Bool.and_eq_true_iff.1 h).2

theorem loose_statements {ns : List (Node Unit)} {after : List Char} :
    Loose (ns.flatMap (fun n => ' ' :: n.render.toList) ++ ' ' :: after) := by
  cases ns with
  | nil => exact loose_cons (by decide) _
  | cons n ns => exact loose_cons (by decide) _

section Block

variable {ns : List (Node Unit)} {g : Node Unit → List Lexeme} (hns : ∀ n ∈ ns, n.DisplaysStatement (g n))
include hns

/-- Statements with a blank before each of them. -/
theorem lexes_statements_blank {after : List Char} {more : List Lexeme} (h : Lexes after more) :
    Lexes (ns.flatMap (fun n => ' ' :: n.render.toList) ++ ' ' :: after) (ns.flatMap g ++ more) := by
  induction ns with
  | nil => exact lexes_blank h
  | cons n ns ih =>
    rw [List.forall_mem_cons] at hns
    have hall := lexes_blank (hns.1.chunk _ _ loose_statements (ih hns.2))
    simpa using hall

/-- **The statements of a block.** Each is read before the others, since they keep apart from it. -/
theorem acceptsBlock_of_keepApart (hapart : keepApart ns = true) {d : Nat} (hd : shownDepthAll ns ≤ d) :
    (expression d).AcceptsBlock (ns.map fun n => (g n, n)) := by
  induction ns with
  | nil => trivial
  | cons n ns ih =>
    rw [List.forall_mem_cons] at hns
    rw [shownDepthAll] at hd
    have hrest := ih hns.2 (keepApart_tail hapart) (by omega)
    refine ⟨hns.1.starts.1, fun more => hns.1.accepts d (by omega) _ fun hstmt => ?_, hrest⟩
    cases ns with
    | nil => exact ⟨⟨Nat.le_refl lowest, nofun⟩, nofun⟩
    | cons m ns =>
      have hnext := (List.forall_mem_cons.1 hns.2).1
      have hopens : m.opensBracket = false := by
        rw [keepApart, hstmt] at hapart
        simpa using (Bool.and_eq_true_iff.1 hapart).1
      rw [List.map_cons, List.flatMap_cons, List.append_assoc]
      exact (hnext.apart hopens).append hnext.starts.2 _

theorem showsBlock (hapart : keepApart ns = true) :
    (block () ns).ShowsBlock (ns.map fun n => (g n, n)) (shownDepthAll ns) where
  eq := by rw [map_snd_pairs]
  lexes after more hmore := by
    rw [render, renderAll_eq_map, List.flatMap_map]
    cases ns with
    | nil => exact lexes_blank hmore
    | cons n ns =>
      rw [List.forall_mem_cons] at hns
      have hall := hns.1.chunk _ _ loose_statements (lexes_statements_blank hns.2 hmore)
      rw [List.map_cons, toList_intercalate_cons]
      simpa [List.flatMap_map] using hall
  accepts d hd := acceptsBlock_of_keepApart hns hapart hd

end Block

end Node

/-! ## Trees that are read -/

namespace Parse

/-- The trees at the top of a form. -/
def Form.trees : Form → List (Node Token)
  | expression n | block n | alternative n | statement n => [n]
  | items ns | moreItems ns | statements ns => ns
  | names _ | moreNames _ => []
  | entries ps => ps.flatMap fun (k, v) => [k, v]

/-- The trees of the form are displayed. -/
def Form.Displayed : Form → Prop
  | expression n => ∃ ls, n.strip.Displays ls
  | items ns | moreItems ns => ∀ n ∈ ns, ∃ ls, n.strip.Displays ls
  | names _ | moreNames _ => True
  | entries ps => ∀ p ∈ ps, (∃ ls, p.1.strip.Displays ls) ∧ ∃ ls, p.2.strip.Displays ls
  | block n => ∃ ps, n.strip.ShowsBlock ps n.strip.shownDepth
  | alternative n => ∃ ps?, n.strip.ShowsAlternative ps? n.strip.shownDepth
  | statement n => ∃ ls, n.strip.DisplaysStatement ls
  | statements ns => ∀ n ∈ ns, ∃ ls, n.strip.DisplaysStatement ls

/-- The tree is built from lexemes, unless it is missing, and readable. -/
structure Legible (n : Node Token) : Prop where
  built : n ≠ .absent → Built Lexed n
  readable : n.strip.isReadable = true

theorem Legible.child {n m : Node Token} (h : Legible n) (hm : m ∈ n.children) : Legible m where
  built hne := (h.built (by rintro rfl; cases hm)).child hm hne
  readable := by
    refine Node.isReadable_child h.readable ?_
    rw [Node.strip, Node.children_mapNotes]
    exact List.mem_map_of_mem hm

theorem Legible.only {n m : Node Token} (h : Legible n) (hm : m ∈ n.children) : ∀ k ∈ [m], Legible k :=
  List.forall_mem_singleton.2 (h.child hm)

theorem Legible.proper {n : Node Token} (h : Legible n) (hne : n ≠ .absent) : n.Proper := (h.built hne).proper

end Parse

theorem IsName.isName {x : String} (h : IsName x) : isName x = true := by
  have hword : isWord x = true := by
    simp only [isWord, Bool.and_eq_true, Bool.not_eq_true', List.isEmpty_eq_false_iff, List.all_eq_true]
    exact ⟨by simpa using h.ne_empty, h.letters⟩
  have hkey : Kind.keywords.lookup x = none := by
    rw [List.lookup_eq_none_iff]
    intro p hp
    rw [bne_iff_ne]
    rintro rfl
    exact h.no_keyword (List.mem_map_of_mem hp)
  refine isName_iff.2 ⟨hword, ?_⟩
  rw [Kind.ofWord, hkey]
  rfl

namespace Parse

theorem lookup_prefixOperators :
    ∀ op ∈ prefixOperators.map (·.1), (prefixOperators.lookup op).isSome = true := by
  decide

theorem lookup_infixOperators :
    ∀ op ∈ infixOperators.map (·.1), (infixOperators.lookup op).isSome = true := by
  decide

section Strip

variable (t : Token) (ns : List (Node Token))

theorem strip_call (f : Node Token) : (Node.call t f ns).strip = .call () f.strip (ns.map Node.strip) := by
  rw [Node.strip, Node.mapNotes, Node.mapNotesAll_eq_map]
  rfl

theorem strip_array : (Node.array t ns).strip = .array () (ns.map Node.strip) := by
  rw [Node.strip, Node.mapNotes, Node.mapNotesAll_eq_map]
  rfl

theorem strip_block : (Node.block t ns).strip = .block () (ns.map Node.strip) := by
  rw [Node.strip, Node.mapNotes, Node.mapNotesAll_eq_map]
  rfl

theorem strip_map (ps : List (Node Token × Node Token)) :
    (Node.map t ps).strip = .map () (ps.map fun p => (p.1.strip, p.2.strip)) := by
  rw [Node.strip, Node.mapNotes, Node.mapNotesPairs_eq_map]
  rfl

end Strip

/-- Expressions, each with its lexemes. -/
theorem exists_shows_all {ns : List (Node Token)} (h : ∀ n ∈ ns, ∃ ls, n.strip.Displays ls) :
    ∃ g : Node Unit → List Lexeme, ∀ m ∈ ns.map Node.strip,
      m.Shows (g m) (Node.shownDepthAll (ns.map Node.strip)) := by
  have hall : ∀ m ∈ ns.map Node.strip, ∃ ls, m.Displays ls := List.forall_mem_map.2 h
  choose! g hg using hall
  exact ⟨g, fun m hm => (hg m hm).shows.mono (Node.shownDepth_le_all m hm)⟩

/-- The entries of a map, each part with its lexemes. -/
theorem exists_shows_entries {ps : List (Node Token × Node Token)}
    (h : ∀ p ∈ ps, (∃ ls, p.1.strip.Displays ls) ∧ ∃ ls, p.2.strip.Displays ls) :
    ∃ g : Node Unit → List Lexeme, ∀ q ∈ ps.map fun p => (p.1.strip, p.2.strip),
      q.1.Shows (g q.1) (Node.shownDepthEntries (ps.map fun p => (p.1.strip, p.2.strip))) ∧
      q.2.Shows (g q.2) (Node.shownDepthEntries (ps.map fun p => (p.1.strip, p.2.strip))) := by
  choose! g hg using fun (n : Node Unit) (hn : ∃ ls, n.Displays ls) => hn
  refine ⟨g, fun q hq => ?_⟩
  obtain ⟨hk, hv⟩ := Node.shownDepth_le_entries q hq
  obtain ⟨p, hp, rfl⟩ := List.mem_map.1 hq
  exact ⟨(hg _ (h p hp).1).shows.mono hk, (hg _ (h p hp).2).shows.mono hv⟩

/-- Statements, each with its lexemes. -/
theorem exists_showsBlock {ns : List (Node Token)} (h : ∀ n ∈ ns, ∃ ls, n.strip.DisplaysStatement ls)
    (hapart : Node.keepApart (ns.map Node.strip) = true) :
    ∃ ps, (Node.block () (ns.map Node.strip)).ShowsBlock ps
      (Node.block () (ns.map Node.strip)).shownDepth := by
  have hall : ∀ m ∈ ns.map Node.strip, ∃ ls, m.DisplaysStatement ls := List.forall_mem_map.2 h
  choose! g hg using hall
  rw [Node.shownDepth]
  exact ⟨_, Node.showsBlock hg hapart⟩

/-- **What is read without a problem is displayed**, if it is readable. One case for each way to write down
a tree. -/
theorem displayed_of_yields {f : Form} {ts : List Token} (h : Yields f ts) (hf : ∀ n ∈ f.trees, Legible n) :
    f.Displayed := by
  induction h with
  | integer =>
    obtain ⟨h₀, hle⟩ := (hf _ List.mem_cons_self).proper nofun
    exact ⟨_, (Node.shows_integer h₀ hle).displays rfl (Nat.le_refl _)⟩
  | boolean b => exact ⟨_, (Node.shows_boolean b).displays rfl (by cases b <;> decide)⟩
  | string =>
    exact ⟨_, (Node.shows_string ((hf _ List.mem_cons_self).proper nofun)).displays rfl (Nat.le_refl _)⟩
  | identifier =>
    have hname := ((hf _ List.mem_cons_self).proper nofun).isName
    exact ⟨_, (Node.shows_identifier hname).displays rfl (Nat.le_refl _)⟩
  | group _ _ _ ih => exact ih hf
  | unary _ _ ih =>
    have hn := hf _ List.mem_cons_self
    obtain ⟨ls, he⟩ := ih (hn.only (by simp [Node.children]))
    exact ⟨_, (he.shows.unary (lookup_prefixOperators _ (hn.proper nofun))).displays rfl⟩
  | binary _ _ _ ihl ihr =>
    have hn := hf _ List.mem_cons_self
    obtain ⟨ls, hl⟩ := ihl (hn.only (by simp [Node.children]))
    obtain ⟨rs, hr⟩ := ihr (hn.only (by simp [Node.children]))
    exact ⟨_, (hl.shows.binary (lookup_infixOperators _ (hn.proper nofun)) hr.shows).displays rfl⟩
  | @conditional t _ _ c b e _ _ _ _ _ _ _ _ _ ihc ihb ihe =>
    have hn := hf _ List.mem_cons_self
    obtain ⟨ls, hc⟩ := ihc (hn.only (by simp [Node.children]))
    obtain ⟨ps, hb⟩ := ihb (hn.only (by simp [Node.children]))
    obtain ⟨qs?, he⟩ := ihe (hn.only (by simp [Node.children]))
    have hreadable : (c.strip.isEnclosed && _) = true := hn.readable
    obtain ⟨inner, hinner⟩ := hc.enclosed (Bool.and_eq_true_iff.1 hreadable).1
    exact ⟨_, (hinner.conditional hb he).displays rfl (Nat.le_refl _)⟩
  | @function t _ _ xs b _ _ _ _ _ _ _ _ ihb =>
    have hn := hf _ List.mem_cons_self
    obtain ⟨ps, hb⟩ := ihb (hn.only (by simp [Node.children]))
    have hxs : ∀ x ∈ xs.map (Ident.map fun _ => ()), isName x.text = true :=
      List.forall_mem_map.2 fun x hx => (hn.proper nofun x hx).isName
    exact ⟨_, (hb.function hxs).displays rfl (Nat.le_refl _)⟩
  | @call t _ g args _ _ _ _ _ _ ihf ihargs =>
    have hn := hf _ List.mem_cons_self
    obtain ⟨ls, hg⟩ := ihf (hn.only (by simp [Node.children]))
    obtain ⟨k, hargs⟩ := exists_shows_all (ihargs fun m hm => hn.child (List.mem_cons_of_mem _ hm))
    have hcall := hg.call hargs
    rw [← strip_call t] at hcall
    exact ⟨_, hcall⟩
  | @array t _ _ _ _ _ _ ih =>
    have hn := hf _ List.mem_cons_self
    obtain ⟨k, hns⟩ := exists_shows_all (ih fun m hm => hn.child hm)
    have harray := Node.displays_array hns
    rw [← strip_array t] at harray
    exact ⟨_, harray⟩
  | index _ _ _ _ ihl ihi =>
    have hn := hf _ List.mem_cons_self
    obtain ⟨ls, hl⟩ := ihl (hn.only (by simp [Node.children]))
    obtain ⟨rs, hi⟩ := ihi (hn.only (by simp [Node.children]))
    exact ⟨_, (hl.shows.index hi.shows).displays rfl⟩
  | @map t _ _ _ _ _ _ ih =>
    have hn := hf _ List.mem_cons_self
    obtain ⟨k, hps⟩ := exists_shows_entries (ih fun m hm => hn.child hm)
    have hmap := Node.displays_map hps
    rw [← strip_map t] at hmap
    exact ⟨_, hmap⟩
  | noItems | noMoreItems | noEntries | noStatements => exact nofun
  | noNames | names | noMoreNames | moreNames => trivial
  | items _ _ ih ihmore | moreItems _ _ _ ih ihmore =>
    rw [Form.trees, List.forall_mem_cons] at hf
    exact List.forall_mem_cons.2 ⟨ih (List.forall_mem_singleton.2 hf.1), ihmore hf.2⟩
  | @lastEntry _ k v _ _ _ _ _ ihk ihv =>
    have hk : Legible k := hf k (by simp [Form.trees])
    have hv : Legible v := hf v (by simp [Form.trees])
    exact List.forall_mem_singleton.2
      ⟨ihk (List.forall_mem_singleton.2 hk), ihv (List.forall_mem_singleton.2 hv)⟩
  | @entry _ _ k v _ _ _ _ _ _ _ _ _ ihk ihv ihmore =>
    have hk : Legible k := hf k (by simp [Form.trees])
    have hv : Legible v := hf v (by simp [Form.trees])
    have hmore := ihmore fun m hm => hf m (List.mem_cons_of_mem _ (List.mem_cons_of_mem _ hm))
    exact List.forall_mem_cons.2
      ⟨⟨ihk (List.forall_mem_singleton.2 hk), ihv (List.forall_mem_singleton.2 hv)⟩, hmore⟩
  | @block t _ _ _ _ _ _ ih =>
    have hn := hf _ List.mem_cons_self
    have hreadable := hn.readable
    rw [strip_block, Node.isReadable, Bool.and_eq_true] at hreadable
    obtain ⟨ps, hblock⟩ := exists_showsBlock (ih fun m hm => hn.child hm) hreadable.1
    rw [← strip_block t] at hblock
    exact ⟨_, hblock⟩
  | noAlternative => exact ⟨none, Node.showsAlternative_absent⟩
  | alternative _ _ ih =>
    obtain ⟨ps, hb⟩ := ih hf
    exact ⟨some ps, hb.alternative⟩
  | @valueStmt _ t _ _ _ _ _ _ _ _ _ ih =>
    have hn := hf _ List.mem_cons_self
    obtain ⟨ls, he⟩ := ih (hn.only (by simp [Node.children]))
    have hname : IsName t.literal := hn.proper nofun
    have hshows := he.shows.valueStmt (x := ⟨t.literal, ()⟩) hname.isName
    exact ⟨_, hshows.displays List.mem_cons_self⟩
  | @updateStmt _ t _ _ _ _ _ _ _ _ _ ih =>
    have hn := hf _ List.mem_cons_self
    obtain ⟨ls, he⟩ := ih (hn.only (by simp [Node.children]))
    have hname : IsName t.literal := hn.proper nofun
    have hshows := he.shows.updateStmt (x := ⟨t.literal, ()⟩) hname.isName
    exact ⟨_, hshows.displays (List.mem_cons_of_mem _ List.mem_cons_self)⟩
  | expressionStmt _ _ ih =>
    obtain ⟨ls, he⟩ := ih ((hf _ List.mem_cons_self).only (by simp [Node.children]))
    exact ⟨_, he.expressionStmt⟩
  | returnStmt _ _ _ _ ih =>
    obtain ⟨ls, he⟩ := ih ((hf _ List.mem_cons_self).only (by simp [Node.children]))
    exact ⟨_, he.shows.returnStmt.displays (by simp [nextKind])⟩
  | statements _ _ ih ihmore =>
    rw [Form.trees, List.forall_mem_cons] at hf
    exact List.forall_mem_cons.2 ⟨ih (List.forall_mem_singleton.2 hf.1), ihmore hf.2⟩
  | lastReturn _ _ _ ih =>
    obtain ⟨ls, he⟩ := ih ((hf _ List.mem_cons_self).only (by simp [Node.children]))
    exact List.forall_mem_singleton.2 ⟨_, he.shows.returnStmt.displays (by simp [nextKind])⟩

/-! ## Functions of a program -/

/-- Something occurs in one of the trees. -/
def OccursAmong (k : Node Token) (ns : List (Node Token)) : Prop := ∃ n ∈ ns, k.Occurs n

section Occurs

variable {k n : Node Token} {ns : List (Node Token)}

theorem OccursAmong.cons (h : OccursAmong k (n :: ns)) : OccursAmong k [n] ∨ OccursAmong k ns := by
  obtain ⟨m, hm, h⟩ := h
  rcases List.mem_cons.1 hm with rfl | hm
  · exact .inl ⟨m, List.mem_singleton_self m, h⟩
  · exact .inr ⟨m, hm, h⟩

/-- What occurs in another tree occurs in one of its parts. -/
theorem OccursAmong.children (h : OccursAmong k [n]) (hne : k ≠ n) : OccursAmong k n.children := by
  obtain ⟨m, hm, h⟩ := h
  obtain rfl := List.mem_singleton.1 hm
  cases h with
  | self => exact absurd rfl hne
  | inside hm h => exact ⟨_, hm, h⟩

end Occurs

/-- **A function in what is read is read itself.** -/
theorem yields_of_occurs {f : Form} {ts : List Token} (h : Yields f ts) {t : Token} {xs : List (Ident Token)}
    {b : Node Token} (hocc : OccursAmong (.function t xs b) f.trees) :
    ∃ us, Yields (.expression (.function t xs b)) us := by
  induction h with
  | integer | boolean | string | identifier | noAlternative =>
    obtain ⟨_, hm, _⟩ := hocc.children nofun
    cases hm
  | noItems | noMoreItems | noNames | names | noMoreNames | moreNames | noEntries | noStatements =>
    obtain ⟨_, hm, _⟩ := hocc
    cases hm
  | group _ _ _ ih | alternative _ _ ih => exact ih hocc
  | unary _ _ ih | array _ _ _ ih | map _ _ _ ih | block _ _ _ ih | valueStmt _ _ _ _ _ ih
  | updateStmt _ _ _ _ _ ih | expressionStmt _ _ ih | returnStmt _ _ _ _ ih | lastReturn _ _ _ ih =>
    exact ih (hocc.children nofun)
  | binary _ _ _ ihl ihr | index _ _ _ _ ihl ihr | call _ _ _ _ ihl ihr =>
    rcases (hocc.children nofun).cons with h | h
    · exact ihl h
    · exact ihr h
  | items _ _ ih ihmore | moreItems _ _ _ ih ihmore | statements _ _ ih ihmore | lastEntry _ _ _ ih ihmore =>
    rcases OccursAmong.cons hocc with h | h
    · exact ih h
    · exact ihmore h
  | entry _ _ _ _ _ ihk ihv ihmore =>
    rcases OccursAmong.cons hocc with h | h
    · exact ihk h
    · rcases OccursAmong.cons h with h | h
      · exact ihv h
      · exact ihmore h
  | conditional _ _ _ _ _ _ ihc ihb ihe =>
    rcases (hocc.children nofun).cons with h | h
    · exact ihc h
    · rcases h.cons with h | h
      · exact ihb h
      · exact ihe h
  | function ht ho hxs hc hb _ ihb =>
    obtain ⟨m, hm, h⟩ := hocc
    obtain rfl := List.mem_singleton.1 hm
    cases h with
    | self => exact ⟨_, .function ht ho hxs hc hb⟩
    | inside hm h => exact ihb ⟨_, hm, h⟩

/-- A function of a program that is read without a problem has a text with its own depth, if it is
readable. -/
theorem displays_function {source : String} (hclean : (parseSource source).problems = [])
    {xs : List (Ident Unit)} {b : Node Unit}
    (hocc : (Node.function () xs b).Occurs (parseSource source).program.strip) (hread : b.isReadable = true) :
    ∃ ls, (Node.function () xs b).Displays ls := by
  obtain ⟨k, hk, hstrip⟩ := hocc.of_strip
  cases k with
  | function t ys c =>
    have hstatements : OccursAmong (.function t ys c) (Form.statements (parseSource source).body).trees :=
      (show OccursAmong (.function t ys c) [(parseSource source).program] from
        ⟨_, List.mem_singleton_self _, hk⟩).children nofun
    obtain ⟨us, hyields⟩ := yields_of_occurs (yields_upToEnd hclean) hstatements
    have hlegible : Legible (.function t ys c) := by
      refine ⟨fun hne => (built_parseSource source).occurs hk hne, ?_⟩
      rw [← hstrip]
      exact hread
    have hdisplayed : (Form.expression (.function t ys c)).Displayed :=
      displayed_of_yields hyields (List.forall_mem_singleton.2 hlegible)
    rw [hstrip]
    exact hdisplayed
  | _ => cases hstrip

end Parse

namespace Node

/-- What is displayed is read from its text, as the only statement. -/
theorem Displays.parseSource {e : Node Unit} {ls : List Lexeme} (h : e.Displays ls)
    (hdepth : e.shownDepth ≤ nestingLimit) : (SepiaLang.parseSource e.render).problems = [] ∧
      (SepiaLang.parseSource e.render).program.strip = .program [.expressionStmt () e] := by
  have hbody : (expression nestingLimit).AcceptsBody [(ls, .expressionStmt () e)] :=
    ⟨accepts_lastExpression (h.shows.accepts hdepth (by decide)), trivial⟩
  have hlexes := h.shows.chunk [] [] nofun (.nil .nil)
  rw [List.append_nil, List.append_nil] at hlexes
  refine program_of_acceptsBody hbody ?_
  rw [upToEnd_scan hlexes, List.flatMap_cons, List.flatMap_nil, List.append_nil]

end Node

namespace Value

variable (id scope : Nat) (xs : List (Ident Unit)) (b : Node Unit)

/-- A function is shown as its tree. -/
theorem inspect_function :
    (function id (xs.map (·.text)) b scope).inspect = (Node.function () xs b).render := by
  rw [inspect, Node.render]

theorem fits_function (limit : Nat) : (function id (xs.map (·.text)) b scope).fits (limit + 1) =
    (Node.function () xs b).fits (limit + 1) := by
  simp [fits, Node.fits, Node.children]

theorem shown?_function :
    (function id (xs.map (·.text)) b scope).shown? = (Node.function () xs b).shown? := by
  unfold shown? Node.shown?
  rw [displayLimit, fits_function, inspect_function]

end Value

/-- **The text of a function is read as the function.** Let a program be read without a problem. Let a
function occur in it in whose body all conditions are operations, and no expression is followed by one that
starts with a bracket. Where the function is evaluated, its text can be made if that of the tree can. If the
text is not nested more deeply than the reader allows, reading it finds no problem, and gives the function as
the only statement. -/
theorem function_text_read_back {source : String} (hclean : (parseSource source).problems = [])
    {xs : List (Ident Unit)} {b : Node Unit}
    (hocc : (Node.function () xs b).Occurs (parseSource source).program.strip) (hread : b.isReadable = true)
    (hdepth : (Node.function () xs b).shownDepth ≤ nestingLimit) (cfg : Config) (depth scope : Nat)
    (s : Store) :
    ∃ v s', eval cfg (depth + 1) (.function () xs b) scope s = (.ok v, s') ∧ v.type = .function ∧
      v.shown? = (Node.function () xs b).shown? ∧ (parseSource v.inspect).problems = [] ∧
      (parseSource v.inspect).program.strip = .program [.expressionStmt () (.function () xs b)] := by
  obtain ⟨ls, hls⟩ := displays_function hclean hocc hread
  refine ⟨.function s.nextId (xs.map (·.text)) b scope, { s with nextId := s.nextId + 1 }, rfl, rfl, ?_, ?_⟩
  · exact Value.shown?_function s.nextId scope xs b
  · rw [Value.inspect_function]
    exact hls.parseSource hdepth

/-- The function in `value f = fn(n) -> value m = n - 1; if (m < 0) -> return n; end f(m) end;`. -/
theorem function_text_read_back_statements :
    let source := "value f = fn(n) -> value m = n - 1; if (m < 0) -> return n; end f(m) end;"
    let name (x : String) : Node Unit := .identifier () x
    let b : Node Unit := .block ()
      [.valueStmt () ⟨"m", ()⟩ (.binary () "-" (name "n") (.integer () 1)),
        .expressionStmt () (.conditional () (.binary () "<" (name "m") (.integer () 0))
          (.block () [.returnStmt () (name "n")]) .absent),
        .expressionStmt () (.call () (name "f") [name "m"])]
    let n : Node Unit := .function () [⟨"n", ()⟩] b
    (parseSource source).problems = [] ∧ n.Occurs (parseSource source).program.strip ∧ b.isReadable = true ∧
      n.shownDepth ≤ nestingLimit ∧ ∃ v s', eval {} 1 n globalScope ({} : Config).start = (.ok v, s') ∧
        v.type = .function ∧ v.shown? = n.shown? ∧ (parseSource v.inspect).problems = [] ∧
        (parseSource v.inspect).program.strip = .program [.expressionStmt () n] := by
  intro source name b n
  have hclean : (parseSource source).problems = [] := by decide +kernel
  have hprogram : (parseSource source).program.strip = .program [.valueStmt () ⟨"f", ()⟩ n] := by
    refine (Node.alike_iff _ (.program [.valueStmt () ⟨"f", ()⟩ n])).1 ?_
    decide +kernel
  have hocc : n.Occurs (parseSource source).program.strip := by
    rw [hprogram]
    exact .inside List.mem_cons_self (.inside List.mem_cons_self (.self n))
  have hread : b.isReadable = true := by decide +kernel
  have hdepth : n.shownDepth ≤ nestingLimit := by decide +kernel
  exact ⟨hclean, hocc, hread, hdepth, function_text_read_back hclean hocc hread hdepth {} 0 globalScope _⟩

/-- The text of the function in `fn(x) -> if (x) -> 1 end end` is `fn(x) -> if x -> 1 end end`. -/
theorem function_text_lost_parentheses :
    ¬ ∀ (source : String) (xs : List (Ident Unit)) (b : Node Unit), (parseSource source).problems = [] →
      (Node.function () xs b).Occurs (parseSource source).program.strip →
      ∀ (cfg : Config) (depth scope : Nat) (s s' : Store) (v : Value),
        eval cfg (depth + 1) (.function () xs b) scope s = (.ok v, s') →
        (parseSource v.inspect).problems = [] := by
  intro h
  let b : Node Unit := .block () [.expressionStmt ()
    (.conditional () (.identifier () "x") (.block () [.expressionStmt () (.integer () 1)]) .absent)]
  let n : Node Unit := .function () [⟨"x", ()⟩] b
  have hclean : (parseSource "fn(x) -> if (x) -> 1 end end").problems = [] := by decide +kernel
  have hprogram : (parseSource "fn(x) -> if (x) -> 1 end end").program.strip =
      .program [.expressionStmt () n] := by
    refine (Node.alike_iff _ (.program [.expressionStmt () n])).1 ?_
    decide +kernel
  have hocc : n.Occurs (parseSource "fn(x) -> if (x) -> 1 end end").program.strip := by
    rw [hprogram]
    exact .inside List.mem_cons_self (.inside List.mem_cons_self (.self n))
  have hread := h _ _ _ hclean hocc {} 0 globalScope ({} : Config).start _ _ rfl
  have htext : (Value.function 0 ["x"] b globalScope).inspect = "fn(x) -> if x -> 1 end end" := by
    decide +kernel
  have hproblems : (parseSource "fn(x) -> if x -> 1 end end").problems ≠ [] := by decide +kernel
  exact hproblems (htext ▸ hread)

end SepiaLang
