import SepiaLang.Proofs.Parse.Shows

/-!
# Canonical source form is read back

The canonical form of a program without choices and functions is a text of the language, and reading it
gives the program back.

* `Node.isPlain`, `Node.isPlainProgram`: the programs in question.
* `Node.printed`: the lexemes of the canonical form. `Node.printedDepth`: how deeply it is nested.
* `Node.prints`, `Node.printsStatement`: the canonical form of every plain expression, and of every plain
  statement, is cut into its lexemes, which are read as itself.
* **`parseSource_render`**: programs.
-/

namespace SepiaLang

open Parse

/-! ## Programs without blocks -/

namespace Node

mutual

/-- The tree makes sense as an expression, has neither a choice nor a function in it, and the texts in it
can be written. -/
@[simp] def isPlain : Node Unit → Bool
  | integer _ n => 0 ≤ n && n ≤ Word64.greatest
  | boolean .. => true
  | string _ text => !text.toList.contains '"'
  | identifier _ x => isName x
  | unary _ op e => (prefixOperators.lookup op).isSome && isPlain e
  | binary _ op l r => (infixOperators.lookup op).isSome && (isPlain l && isPlain r)
  | call _ f args => isPlain f && arePlain args
  | array _ es => arePlain es
  | index _ l i => isPlain l && isPlain i
  | map _ ps => arePlainEntries ps
  | _ => false

/-- The trees are such expressions. -/
@[simp] def arePlain : List (Node Unit) → Bool
  | [] => true
  | n :: ns => isPlain n && arePlain ns

/-- The pairs of trees are entries of a map with such expressions. -/
@[simp] def arePlainEntries : List (Node Unit × Node Unit) → Bool
  | [] => true
  | (k, v) :: ps => isPlain k && (isPlain v && arePlainEntries ps)

end

/-- The tree is a statement that ends with a semicolon, with such an expression. -/
def isPlainStatement : Node Unit → Bool
  | valueStmt _ x e | updateStmt _ x e => isName x.text && isPlain e
  | returnStmt _ e => isPlain e
  | _ => false

/-- The tree is such a statement, or an expression as a statement. -/
def isPlainLast : Node Unit → Bool
  | expressionStmt _ e => isPlain e
  | n => isPlainStatement n

/-- The tree is a program of such statements. Only the last one may be an expression. -/
def isPlainProgram : Node Unit → Bool
  | program body => body.dropLast.all isPlainStatement && body.getLast?.all isPlainLast
  | _ => false

/-! ## Their lexemes -/

mutual

/-- The lexemes of the canonical form of a plain expression or statement. -/
@[simp] def printed : Node Unit → List Lexeme
  | integer _ n => [(.int, toString n)]
  | boolean _ b => [if b then (.trueWord, "true") else (.falseWord, "false")]
  | string _ text => [(.string, text)]
  | identifier _ x => [(.ident, x)]
  | unary _ op e => enclosed (operator prefixOperators op :: printed e)
  | binary _ op l r => enclosed (printed l ++ operator infixOperators op :: printed r)
  | call _ f args => printed f ++ enclosed (joined (printedEach args))
  | array _ es => (.lbracket, "[") :: (joined (printedEach es) ++ [(.rbracket, "]")])
  | index _ l i => enclosed (printed l ++ (.lbracket, "[") :: (printed i ++ [(.rbracket, "]")]))
  | map _ ps => (.lbrace, "\x7b") :: (joined (printedEntries ps) ++ [(.rbrace, "\x7d")])
  | valueStmt _ x e => bindingLexemes (.valueWord, "value") x (printed e)
  | updateStmt _ x e => bindingLexemes (.updateWord, "update") x (printed e)
  | returnStmt _ e => (.returnWord, "return") :: (printed e ++ [semicolon])
  | expressionStmt _ e => printed e
  | absent | program _ | block .. | conditional .. | function .. => []

/-- The lexemes of each of several expressions. -/
@[simp] def printedEach : List (Node Unit) → List (List Lexeme)
  | [] => []
  | n :: ns => printed n :: printedEach ns

/-- The lexemes of each entry of a map. -/
@[simp] def printedEntries : List (Node Unit × Node Unit) → List (List Lexeme)
  | [] => []
  | (k, v) :: ps => (printed k ++ (.colon, ":") :: printed v) :: printedEntries ps

end

mutual

/-- How many expressions are nested in each other when the canonical form is read. A pair of parentheses
counts as one. -/
@[simp] def printedDepth : Node Unit → Nat
  | integer .. | boolean .. | string .. | identifier .. => 1
  | unary _ _ e => printedDepth e + 2
  | binary _ _ l r | index _ l r => max (printedDepth l) (printedDepth r + 1) + 1
  | call _ f args => max (printedDepth f) (printedDepthAll args + 1)
  | array _ es => printedDepthAll es + 1
  | map _ ps => printedDepthEntries ps + 1
  | valueStmt _ _ e | updateStmt _ _ e | returnStmt _ e | expressionStmt _ e => printedDepth e
  | program body => printedDepthAll body
  | absent | block .. | conditional .. | function .. => 0

/-- The nesting of several trees. -/
@[simp] def printedDepthAll : List (Node Unit) → Nat
  | [] => 0
  | n :: ns => max (printedDepth n) (printedDepthAll ns)

/-- The nesting of the entries of a map. -/
@[simp] def printedDepthEntries : List (Node Unit × Node Unit) → Nat
  | [] => 0
  | (k, v) :: ps => max (max (printedDepth k) (printedDepth v)) (printedDepthEntries ps)

end

end Node

/-! ## Expressions -/

namespace Node

/-- The expressions, each with its lexemes. -/
def withLexemes (ns : List (Node Unit)) : List (List Lexeme × Node Unit) := ns.map fun n => (printed n, n)

theorem printedEach_eq_map (ns : List (Node Unit)) : printedEach ns = ns.map printed := by
  induction ns with
  | nil => rfl
  | cons n ns ih => rw [printedEach, ih, List.map_cons]

theorem printedEntries_eq_map (ps : List (Node Unit × Node Unit)) :
    printedEntries ps = ps.map fun p => printed p.1 ++ (.colon, ":") :: printed p.2 := by
  induction ps with
  | nil => rfl
  | cons p ps ih => rw [printedEntries, ih, List.map_cons]

theorem printedDepth_le_all : ∀ {ns : List (Node Unit)}, ∀ n ∈ ns, n.printedDepth ≤ printedDepthAll ns
  | m :: ns, n, h => by
    rw [printedDepthAll]
    rcases List.mem_cons.1 h with rfl | h
    · exact Nat.le_max_left ..
    · exact Nat.le_trans (printedDepth_le_all n h) (Nat.le_max_right ..)

mutual

/-- **Plain expressions.** One case for each way to build them. -/
theorem prints : ∀ n : Node Unit, n.isPlain = true → n.Shows n.printed n.printedDepth
  | integer _ n, h => by
    rw [isPlain, Bool.and_eq_true, decide_eq_true_eq, decide_eq_true_eq] at h
    rw [printed, printedDepth]
    exact shows_integer h.1 h.2
  | boolean _ b, _ => by
    rw [printed, printedDepth]
    exact shows_boolean b
  | string _ text, h => by
    rw [isPlain, Bool.not_eq_true', List.contains_eq_mem, decide_eq_false_iff_not] at h
    rw [printed, printedDepth]
    exact shows_string h
  | identifier _ x, h => by
    rw [isPlain] at h
    rw [printed, printedDepth]
    exact shows_identifier h
  | unary _ op e, h => by
    rw [isPlain, Bool.and_eq_true] at h
    rw [printed, printedDepth]
    exact ((prints e h.2).unary h.1).shows
  | binary _ op l r, h => by
    rw [isPlain, Bool.and_eq_true, Bool.and_eq_true] at h
    rw [printed, printedDepth]
    exact ((prints l h.2.1).binary h.1 (prints r h.2.2)).shows
  | call _ f args, h => by
    rw [isPlain, Bool.and_eq_true] at h
    rw [printed, printedDepth, printedEach_eq_map]
    exact shows_call (prints_all args h.2) (prints f h.1)
  | array _ es, h => by
    rw [isPlain] at h
    rw [printed, printedDepth, printedEach_eq_map]
    exact shows_array (prints_all es h)
  | index _ l i, h => by
    rw [isPlain, Bool.and_eq_true] at h
    rw [printed, printedDepth]
    exact ((prints l h.1).index (prints i h.2)).shows
  | map _ ps, h => by
    rw [isPlain] at h
    rw [printed, printedDepth, printedEntries_eq_map]
    exact shows_map (prints_entries ps h)
  | absent, h | program _, h | expressionStmt .., h | valueStmt .., h | updateStmt .., h
  | returnStmt .., h | block .., h | conditional .., h | function .., h => by simp at h

theorem prints_all : ∀ ns : List (Node Unit), arePlain ns = true →
    ∀ n ∈ ns, n.Shows n.printed (printedDepthAll ns)
  | [], _ => nofun
  | n :: ns, h => by
    rw [arePlain, Bool.and_eq_true] at h
    rw [printedDepthAll]
    exact List.forall_mem_cons.2 ⟨(prints n h.1).mono (Nat.le_max_left ..),
      fun m hm => (prints_all ns h.2 m hm).mono (Nat.le_max_right ..)⟩

theorem prints_entries : ∀ ps : List (Node Unit × Node Unit), arePlainEntries ps = true → ∀ p ∈ ps,
    p.1.Shows p.1.printed (printedDepthEntries ps) ∧ p.2.Shows p.2.printed (printedDepthEntries ps)
  | [], _ => nofun
  | (k, v) :: ps, h => by
    rw [arePlainEntries, Bool.and_eq_true, Bool.and_eq_true] at h
    rw [printedDepthEntries]
    refine List.forall_mem_cons.2 ⟨⟨(prints k h.1).mono (by omega), (prints v h.2.1).mono (by omega)⟩, ?_⟩
    intro p hp
    obtain ⟨hkey, hvalue⟩ := prints_entries ps h.2.2 p hp
    exact ⟨hkey.mono (Nat.le_max_right ..), hvalue.mono (Nat.le_max_right ..)⟩

end

/-! ## Statements -/

theorem printsStatement : ∀ n : Node Unit, n.isPlainStatement = true →
    n.ShowsStatement n.printed n.printedDepth
  | valueStmt _ x e, h => by
    rw [isPlainStatement, Bool.and_eq_true] at h
    rw [printed, printedDepth]
    exact (prints e h.2).valueStmt h.1
  | updateStmt _ x e, h => by
    rw [isPlainStatement, Bool.and_eq_true] at h
    rw [printed, printedDepth]
    exact (prints e h.2).updateStmt h.1
  | returnStmt _ e, h => by
    rw [isPlainStatement] at h
    rw [printed, printedDepth]
    exact (prints e h).returnStmt
  | absent, h | program _, h | expressionStmt .., h | block .., h | integer .., h | boolean .., h
  | string .., h | identifier .., h | unary .., h | binary .., h | conditional .., h | function .., h
  | call .., h | array .., h | index .., h | map .., h => by cases h

theorem lexes_statements {ns : List (Node Unit)} (hns : ∀ n ∈ ns, n.isPlainStatement = true)
    {after : List Char} {more : List Lexeme} (h : Lexes after more) :
    Lexes (ns.flatMap (fun n => n.render.toList) ++ after) (ns.flatMap printed ++ more) := by
  induction ns with
  | nil => exact h
  | cons n ns ih =>
    rw [List.forall_mem_cons] at hns
    rw [List.flatMap_cons, List.flatMap_cons, List.append_assoc, List.append_assoc]
    exact (printsStatement n hns.1).lexes _ _ (ih hns.2)

/-- The last statement of a program. -/
theorem prints_last {n : Node Unit} (h : n.isPlainLast = true) :
    Lexes n.render.toList n.printed ∧
      ∀ depth, n.printedDepth ≤ depth → (expression depth).AcceptsBefore [] n.printed n := by
  have hnothing : Lexes [] [] := .nil .nil
  have hstatement (hn : n.isPlainStatement = true) : Lexes n.render.toList n.printed ∧
      ∀ depth, n.printedDepth ≤ depth → (expression depth).AcceptsBefore [] n.printed n := by
    have hprints := printsStatement n hn
    refine ⟨?_, fun depth hdepth => (hprints.accepts depth hdepth).before []⟩
    have hlexes := hprints.lexes [] [] hnothing
    rwa [List.append_nil, List.append_nil] at hlexes
  cases n with
  | expressionStmt note e =>
    rw [isPlainLast] at h
    have he := prints e h
    have hrender : (expressionStmt note e).render = e.render :=
      render_expressionStmt (by rintro rfl; simp at h)
    refine ⟨?_, fun depth hdepth => ?_⟩
    · have hlexes := he.chunk [] [] nofun hnothing
      rw [List.append_nil, List.append_nil] at hlexes
      rwa [hrender, printed]
    · rw [printed]
      exact accepts_lastExpression (he.accepts (by simpa using hdepth) (by decide))
  | _ => exact hstatement h

end Node

/-! ## Programs -/

/-- The canonical form of a plain program is cut into the lexemes of its statements. -/
theorem lexes_program {body : List (Node Unit)} (h : (Node.program body).isPlainProgram = true) :
    Lexes (Node.program body).render.toList (body.flatMap Node.printed) := by
  rw [Node.isPlainProgram, Bool.and_eq_true, List.all_eq_true] at h
  have htext : (Node.program body).render.toList = body.flatMap fun n => n.render.toList := by
    rw [Node.render, Node.renderAll_eq_map, String.toList_join, List.flatMap_map]
  rw [htext]
  rcases List.eq_nil_or_concat body with rfl | ⟨front, last, rfl⟩
  · exact .nil .nil
  · rw [List.concat_eq_append] at h ⊢
    rw [List.dropLast_concat, List.getLast?_concat] at h
    have hlexes := Node.lexes_statements h.1 (Node.prints_last h.2).1
    simpa using hlexes

/-- Its statements are read from them one after the other. -/
theorem acceptsBody_program {limit : Nat} {body : List (Node Unit)}
    (h : (Node.program body).isPlainProgram = true) (hlimit : (Node.program body).printedDepth ≤ limit) :
    (expression limit).AcceptsBody (Node.withLexemes body) := by
  rw [Node.isPlainProgram, Bool.and_eq_true, List.all_eq_true] at h
  rw [Node.printedDepth] at hlimit
  have hdepth (n : Node Unit) (hn : n ∈ body) : n.printedDepth ≤ limit :=
    Nat.le_trans (Node.printedDepth_le_all n hn) hlimit
  rcases List.eq_nil_or_concat body with rfl | ⟨front, last, rfl⟩
  · exact trivial
  · rw [List.concat_eq_append] at h hdepth ⊢
    rw [List.dropLast_concat, List.getLast?_concat] at h
    rw [Node.withLexemes, List.map_append]
    refine acceptsBody_append (fun p hp => ?_) ⟨?_, trivial⟩
    · obtain ⟨n, hn, rfl⟩ := List.mem_map.1 hp
      exact (Node.printsStatement n (h.1 n hn)).accepts limit (hdepth n (List.mem_append_left _ hn))
    · exact (Node.prints_last h.2).2 limit (hdepth last (by simp))

/-- **The canonical form of a program without blocks is read back.** Let all statements of a program but
the last one bind a name or return, where the last one may also be an expression, and let no expression
have a choice or a function in it. If its canonical form is not nested more deeply than the reader
allows, reading that finds no problem and gives the program. -/
theorem parseSource_render {p : Node Unit} (h : p.isPlainProgram = true)
    (hdepth : p.printedDepth ≤ nestingLimit) :
    (parseSource p.render).problems = [] ∧ (parseSource p.render).program.strip = p := by
  cases p with
  | program body =>
    have htokens : (upToEnd (scan (Node.program body).render)).map Token.bare =
        (Node.withLexemes body).flatMap Prod.fst := by
      rw [upToEnd_scan (lexes_program h), Node.withLexemes, List.flatMap_map]
    have hprogram := program_of_acceptsBody (acceptsBody_program h hdepth) htokens
    rwa [Node.withLexemes, Node.map_snd_pairs] at hprogram
  | _ => cases h

/-- The program `value x = ((-f(1)[2]) + (!{"a": []}));x(y)(1)`. -/
theorem parseSource_render_calls :
    let name (x : String) : Node Unit := .identifier () x
    let p : Node Unit := .program
      [.valueStmt () ⟨"x", ()⟩ (.binary () "+"
        (.unary () "-" (.index () (.call () (name "f") [.integer () 1]) (.integer () 2)))
        (.unary () "!" (.map () [(.string () "a", .array () [])]))),
       .expressionStmt () (.call () (.call () (name "x") [name "y"]) [.integer () 1])]
    p.render = "value x = ((-(f(1)[2])) + (!\x7b\"a\": []\x7d));x(y)(1)" ∧
      (parseSource p.render).problems = [] ∧ (parseSource p.render).program.strip = p := by
  intro name p
  have hp : p.isPlainProgram = true := by decide +kernel
  have hdepth : p.printedDepth ≤ nestingLimit := by decide +kernel
  exact ⟨by decide +kernel, parseSource_render hp hdepth⟩

end SepiaLang
