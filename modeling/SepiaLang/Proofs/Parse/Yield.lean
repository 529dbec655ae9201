import SepiaLang.Syntax.Walk
import SepiaLang.Text.Numeral
import SepiaLang.Token.Basic

/-!
# The tokens of a tree

Which lists of tokens write down a tree. Every word, operator, delimiter, name and literal of the
tree has its token, in the order of the source, and a note of the tree is the token itself. Beyond
that a list may hold

* parentheses around an expression,
* a semicolon after an expression or a binding,
* a comma after the last entry of a map,
* after the value of a return anything up to a semicolon, or up to the end of the block or the list.

The relation is `Yields`.

* `Yields.kind_ne_eof`: `eof` is no part of a tree.
* `Yields.endsWell`: no expression ends in a semicolon. `Yields.startsWell`: no statement starts with
  one or with the word that closes a block.
* **`Yields.closings_eq`**: every word that closes a block closes one block of the tree.
-/

namespace SepiaLang.Parse

/-- The operators that stand before an operand. -/
def prefixKinds : List Kind := [.bang, .minus, .increment, .decrement]

/-- The operators that stand between operands. -/
def infixKinds : List Kind :=
  [.plus, .minus, .asterisk, .slash, .eq, .notEq, .lt, .gt, .ltEq, .gtEq, .and, .or, .plusEq,
   .minusEq, .mulEq, .slashEq]

/-- The tokens are one of the given kind, or none. -/
def Optional (kind : Kind) (ts : List Token) : Prop := ts = [] ∨ ∃ t : Token, t.kind = kind ∧ ts = [t]

/-- No token ends a return, a block or the list. -/
def Loose (ts : List Token) : Prop :=
  ∀ t ∈ ts, t.kind ≠ .semicolon ∧ t.kind ≠ .closeBlock ∧ t.kind ≠ .eof

/-- What a list of tokens is taken for. There are commas between `items` and `names`, and one before
each of `moreItems` and `moreNames`; an `alternative` is the `else` branch of a choice, or nothing. -/
inductive Form where
  | expression (n : Node Token)
  | items (ns : List (Node Token))
  | moreItems (ns : List (Node Token))
  | names (xs : List (Ident Token))
  | moreNames (xs : List (Ident Token))
  | entries (ps : List (Node Token × Node Token))
  | block (n : Node Token)
  | alternative (n : Node Token)
  | statement (n : Node Token)
  | statements (ns : List (Node Token))

/-- The tokens write down the form. There may be no entry after the comma of an `entry`, and only a
return that nothing follows may lack its semicolon (`lastReturn`). -/
inductive Yields : Form → List Token → Prop
  | integer {t : Token} {n : Int} (ht : t.kind = .int) (hn : Text.readInt t.literal = .ok n) :
      Yields (.expression (.integer t n)) [t]
  | boolean {t : Token} (b : Bool) (ht : t.kind = if b then .trueWord else .falseWord) :
      Yields (.expression (.boolean t b)) [t]
  | string {t : Token} (ht : t.kind = .string) : Yields (.expression (.string t t.literal)) [t]
  | identifier {t : Token} (ht : t.kind = .ident) :
      Yields (.expression (.identifier t t.literal)) [t]
  | group {opening closing : Token} {n : Node Token} {ts : List Token} (ho : opening.kind = .lparen)
      (h : Yields (.expression n) ts) (hc : closing.kind = .rparen) :
      Yields (.expression n) (opening :: ts ++ [closing])
  | unary {t : Token} {n : Node Token} {ts : List Token} (ht : t.kind ∈ prefixKinds)
      (h : Yields (.expression n) ts) : Yields (.expression (.unary t t.literal n)) (t :: ts)
  | binary {t : Token} {l r : Node Token} {ts us : List Token} (hl : Yields (.expression l) ts)
      (ht : t.kind ∈ infixKinds) (hr : Yields (.expression r) us) :
      Yields (.expression (.binary t t.literal l r)) (ts ++ t :: us)
  | conditional {t opening closing : Token} {c b e : Node Token} {ts us vs : List Token}
      (ht : t.kind = .ifWord) (ho : opening.kind = .lparen) (hcond : Yields (.expression c) ts)
      (hc : closing.kind = .rparen) (hb : Yields (.block b) us) (he : Yields (.alternative e) vs) :
      Yields (.expression (.conditional t c b e))
        (t :: opening :: ts ++ closing :: us ++ vs)
  | function {t opening closing : Token} {xs : List (Ident Token)} {b : Node Token}
      {ts us : List Token} (ht : t.kind = .fnWord) (ho : opening.kind = .lparen)
      (hxs : Yields (.names xs) ts) (hc : closing.kind = .rparen) (hb : Yields (.block b) us) :
      Yields (.expression (.function t xs b)) (t :: opening :: ts ++ closing :: us)
  | call {opening closing : Token} {f : Node Token} {args : List (Node Token)} {ts us : List Token}
      (hf : Yields (.expression f) ts) (ho : opening.kind = .lparen) (hargs : Yields (.items args) us)
      (hc : closing.kind = .rparen) :
      Yields (.expression (.call opening f args)) (ts ++ opening :: us ++ [closing])
  | index {opening closing : Token} {l i : Node Token} {ts us : List Token}
      (hl : Yields (.expression l) ts) (ho : opening.kind = .lbracket)
      (hi : Yields (.expression i) us) (hc : closing.kind = .rbracket) :
      Yields (.expression (.index opening l i)) (ts ++ opening :: us ++ [closing])
  | array {opening closing : Token} {ns : List (Node Token)} {ts : List Token}
      (ho : opening.kind = .lbracket) (h : Yields (.items ns) ts) (hc : closing.kind = .rbracket) :
      Yields (.expression (.array opening ns)) (opening :: ts ++ [closing])
  | map {opening closing : Token} {ps : List (Node Token × Node Token)} {ts : List Token}
      (ho : opening.kind = .lbrace) (h : Yields (.entries ps) ts) (hc : closing.kind = .rbrace) :
      Yields (.expression (.map opening ps)) (opening :: ts ++ [closing])
  | noItems : Yields (.items []) []
  | items {n : Node Token} {ns : List (Node Token)} {ts us : List Token}
      (h : Yields (.expression n) ts) (hmore : Yields (.moreItems ns) us) :
      Yields (.items (n :: ns)) (ts ++ us)
  | noMoreItems : Yields (.moreItems []) []
  | moreItems {comma : Token} {n : Node Token} {ns : List (Node Token)} {ts us : List Token}
      (hc : comma.kind = .comma) (h : Yields (.expression n) ts) (hmore : Yields (.moreItems ns) us) :
      Yields (.moreItems (n :: ns)) (comma :: ts ++ us)
  | noNames : Yields (.names []) []
  | names {t : Token} {xs : List (Ident Token)} {ts : List Token} (ht : t.kind = .ident)
      (hmore : Yields (.moreNames xs) ts) : Yields (.names (⟨t.literal, t⟩ :: xs)) (t :: ts)
  | noMoreNames : Yields (.moreNames []) []
  | moreNames {comma t : Token} {xs : List (Ident Token)} {ts : List Token}
      (hc : comma.kind = .comma) (ht : t.kind = .ident) (hmore : Yields (.moreNames xs) ts) :
      Yields (.moreNames (⟨t.literal, t⟩ :: xs)) (comma :: t :: ts)
  | noEntries : Yields (.entries []) []
  | lastEntry {colon : Token} {k v : Node Token} {ts us : List Token}
      (hk : Yields (.expression k) ts) (hc : colon.kind = .colon) (hv : Yields (.expression v) us) :
      Yields (.entries [(k, v)]) (ts ++ colon :: us)
  | entry {colon comma : Token} {k v : Node Token} {ps : List (Node Token × Node Token)}
      {ts us vs : List Token} (hk : Yields (.expression k) ts) (hc : colon.kind = .colon)
      (hv : Yields (.expression v) us) (hcomma : comma.kind = .comma) (hmore : Yields (.entries ps) vs) :
      Yields (.entries ((k, v) :: ps)) (ts ++ colon :: us ++ comma :: vs)
  | block {opening closing : Token} {ns : List (Node Token)} {ts : List Token}
      (ho : opening.kind = .openBlock) (h : Yields (.statements ns) ts)
      (hc : closing.kind = .closeBlock) : Yields (.block (.block opening ns)) (opening :: ts ++ [closing])
  | noAlternative : Yields (.alternative .absent) []
  | alternative {word : Token} {b : Node Token} {ts : List Token} (hw : word.kind = .elseWord)
      (hb : Yields (.block b) ts) : Yields (.alternative b) (word :: ts)
  | valueStmt {word t sign : Token} {n : Node Token} {ts us : List Token}
      (hw : word.kind = .valueWord) (ht : t.kind = .ident) (hsign : sign.kind = .assign)
      (h : Yields (.expression n) ts) (hend : Optional .semicolon us) :
      Yields (.statement (.valueStmt word ⟨t.literal, t⟩ n)) (word :: t :: sign :: ts ++ us)
  | updateStmt {word t sign : Token} {n : Node Token} {ts us : List Token}
      (hw : word.kind = .updateWord) (ht : t.kind = .ident) (hsign : sign.kind = .assign)
      (h : Yields (.expression n) ts) (hend : Optional .semicolon us) :
      Yields (.statement (.updateStmt word ⟨t.literal, t⟩ n)) (word :: t :: sign :: ts ++ us)
  | expressionStmt {t : Token} {n : Node Token} {ts us : List Token}
      (h : Yields (.expression n) (t :: ts)) (hend : Optional .semicolon us) :
      Yields (.statement (.expressionStmt t n)) (t :: ts ++ us)
  | returnStmt {word semicolon : Token} {n : Node Token} {ts run : List Token}
      (hw : word.kind = .returnWord) (h : Yields (.expression n) ts) (hrun : Loose run)
      (hend : semicolon.kind = .semicolon) :
      Yields (.statement (.returnStmt word n)) (word :: ts ++ run ++ [semicolon])
  | noStatements : Yields (.statements []) []
  | statements {n : Node Token} {ns : List (Node Token)} {ts us : List Token}
      (h : Yields (.statement n) ts) (hmore : Yields (.statements ns) us) :
      Yields (.statements (n :: ns)) (ts ++ us)
  | lastReturn {word : Token} {n : Node Token} {ts run : List Token} (hw : word.kind = .returnWord)
      (h : Yields (.expression n) ts) (hrun : Loose run) :
      Yields (.statements [.returnStmt word n]) (word :: ts ++ run)

/-! ## Tokens that are no part of a tree -/

theorem Optional.kind_of_mem {kind : Kind} {ts : List Token} (h : Optional kind ts) :
    ∀ t ∈ ts, t.kind = kind := by
  rcases h with rfl | ⟨t, ht, rfl⟩
  · simp
  · simpa using ht

/-- The kinds of a list differ from every kind that is not in it. -/
theorem kind_ne_of_mem {t : Token} {kinds : List Kind} (h : t.kind ∈ kinds) {kind : Kind}
    (hk : kind ∉ kinds) : t.kind ≠ kind := by
  rintro rfl
  exact hk h

namespace Yields

/-- `eof` is no part of a tree. -/
theorem kind_ne_eof {f : Form} {ts : List Token} (h : Yields f ts) : ∀ t ∈ ts, t.kind ≠ .eof := by
  induction h with
  | boolean b ht =>
    cases b <;> simp_all
  | unary ht h ih | binary hl ht hr ih₁ ih₂ =>
    have := kind_ne_of_mem ht (by decide : Kind.eof ∉ _)
    grind
  | valueStmt hw ht hsign h hend ih | updateStmt hw ht hsign h hend ih
  | expressionStmt h hend ih =>
    have := hend.kind_of_mem
    grind
  | returnStmt hw h hrun hend ih | lastReturn hw h hrun ih =>
    grind [Loose]
  | _ => grind

end Yields

/-! ## The last token of an expression -/

/-- The last token is no semicolon. -/
def EndsWell (ts : List Token) : Prop := ∀ t, ts.getLast? = some t → t.kind ≠ .semicolon

theorem endsWell_nil : EndsWell [] := fun _ h => nomatch h

theorem EndsWell.append {ts us : List Token} (hts : EndsWell ts) (hus : EndsWell us) :
    EndsWell (ts ++ us) := by
  intro u hu
  rw [List.getLast?_append] at hu
  rcases Option.or_eq_some_iff.1 hu with h | ⟨-, h⟩
  · exact hus u h
  · exact hts u h

/-- What stands before the last tokens does not matter. -/
theorem EndsWell.append_cons {t : Token} {us : List Token} (h : t.kind ≠ .semicolon)
    (hus : EndsWell us) (ts : List Token) : EndsWell (ts ++ t :: us) := by
  intro u hu
  rw [List.getLast?_append, List.getLast?_cons, Option.some_or] at hu
  cases hu
  cases hlast : us.getLast? with
  | none => exact h
  | some v => exact hus v hlast

theorem EndsWell.concat {t : Token} (h : t.kind ≠ .semicolon) (ts : List Token) :
    EndsWell (ts ++ [t]) := endsWell_nil.append_cons h ts

namespace Form

/-- The tokens of the form end with an expression or a block, if there are any. -/
def endsWell : Form → Bool
  | expression _ | block _ | alternative _ => true
  | _ => false

end Form

/-- No expression ends in a semicolon. -/
theorem Yields.endsWell {f : Form} {ts : List Token} (h : Yields f ts) (hf : f.endsWell = true) :
    EndsWell ts := by
  induction h with
  | integer ht | string ht | identifier ht => exact EndsWell.concat (by simp [ht]) []
  | boolean b ht => exact EndsWell.concat (by cases b <;> simp [ht]) []
  | group _ _ hc | call _ _ _ hc | index _ _ _ hc | array _ _ hc | map _ _ hc | block _ _ hc =>
    exact EndsWell.concat (by simp [hc]) _
  | unary ht _ ih => exact (ih rfl).append_cons (kind_ne_of_mem ht (by decide)) []
  | binary _ ht _ _ ih => exact (ih rfl).append_cons (kind_ne_of_mem ht (by decide)) _
  | conditional _ _ _ hc _ _ _ ihb ihe =>
    exact ((ihb rfl).append_cons (by simp [hc]) _).append (ihe rfl)
  | function _ _ _ hc _ _ ih => exact (ih rfl).append_cons (by simp [hc]) _
  | noAlternative => exact endsWell_nil
  | alternative hw _ ih => exact (ih rfl).append_cons (by simp [hw]) []
  | _ => cases hf

/-! ## The first token of a statement -/

/-- The first token does not close a block and is no semicolon. -/
def StartsWell (ts : List Token) : Prop :=
  ∀ t, ts.head? = some t → t.kind ≠ .closeBlock ∧ t.kind ≠ .semicolon

theorem startsWell_cons {t : Token} (h : t.kind ≠ .closeBlock ∧ t.kind ≠ .semicolon) (ts : List Token) :
    StartsWell (t :: ts) := by
  intro u hu
  cases hu
  exact h

theorem StartsWell.append {ts us : List Token} (hts : StartsWell ts) (hus : StartsWell us) :
    StartsWell (ts ++ us) := by
  cases ts with
  | nil => exact hus
  | cons t ts => exact startsWell_cons (hts t rfl) _

/-- The tokens of the form start with an expression or a statement, if there are any. -/
def Form.startsWell : Form → Bool
  | expression _ | statement _ | statements _ => true
  | _ => false

/-- No statement starts with a semicolon or with the word that closes a block. -/
theorem Yields.startsWell {f : Form} {ts : List Token} (h : Yields f ts) (hf : f.startsWell = true) :
    StartsWell ts := by
  induction h with
  | boolean b ht => exact startsWell_cons (by cases b <;> simp [ht]) _
  | unary ht => exact startsWell_cons ⟨kind_ne_of_mem ht (by decide), kind_ne_of_mem ht (by decide)⟩ _
  | binary _ ht _ ih =>
    exact (ih rfl).append
      (startsWell_cons ⟨kind_ne_of_mem ht (by decide), kind_ne_of_mem ht (by decide)⟩ _)
  | call _ ho _ _ ih | index _ ho _ _ ih =>
    rw [List.append_assoc]
    exact (ih rfl).append (startsWell_cons (by simp [ho]) _)
  | integer ht | string ht | identifier ht | group ht | conditional ht | function ht | array ht
  | map ht | valueStmt ht | updateStmt ht | returnStmt ht | lastReturn ht =>
    exact startsWell_cons (by simp [ht]) _
  | expressionStmt _ _ ih => exact startsWell_cons (ih rfl _ rfl) _
  | noStatements => exact fun _ h => nomatch h
  | statements _ _ ih ih' => exact (ih rfl).append (ih' rfl)
  | _ => cases hf

/-! ## Blocks -/

/-- The number of words that close a block. -/
def closings (ts : List Token) : Nat := ts.countP (·.kind = .closeBlock)

/-- The number of blocks among the nodes. -/
def blocksAmong (vs : List (Visit Token)) : Nat := vs.countP (·.form = "BlockStatement")

/-- The number of blocks in the trees of a form. -/
def Form.blocks : Form → Nat
  | expression n | block n | alternative n | statement n => blocksAmong n.preorder
  | items ns | moreItems ns | statements ns => blocksAmong (Node.preorderAll ns)
  | entries ps => blocksAmong (Node.preorderPairs ps)
  | names _ | moreNames _ => 0

@[simp] theorem closings_nil : closings [] = 0 := rfl

@[simp] theorem closings_append (ts us : List Token) : closings (ts ++ us) = closings ts + closings us :=
  List.countP_append

@[simp] theorem closings_cons {t : Token} (h : t.kind ≠ .closeBlock) (ts : List Token) :
    closings (t :: ts) = closings ts := List.countP_cons_of_neg (by simpa using h)

theorem closings_eq_zero {ts : List Token} (h : ∀ t ∈ ts, t.kind ≠ .closeBlock) : closings ts = 0 :=
  List.countP_eq_zero.2 (by simpa using h)

theorem Optional.closings {kind : Kind} {ts : List Token} (h : Optional kind ts)
    (hk : kind ≠ .closeBlock) : closings ts = 0 :=
  closings_eq_zero fun t ht => h.kind_of_mem t ht ▸ hk

@[simp] theorem blocksAmong_nil : blocksAmong [] = 0 := rfl

@[simp] theorem blocksAmong_append (vs ws : List (Visit Token)) :
    blocksAmong (vs ++ ws) = blocksAmong vs + blocksAmong ws := List.countP_append

@[simp] theorem blocksAmong_cons {v : Visit Token} (h : v.form ≠ "BlockStatement") (vs : List (Visit Token)) :
    blocksAmong (v :: vs) = blocksAmong vs := List.countP_cons_of_neg (by simpa using h)

/-- Names are no blocks. -/
@[simp]
theorem blocksAmong_names (xs : List (Ident Token)) : blocksAmong (xs.map Ident.visit) = 0 := by
  refine List.countP_eq_zero.2 fun v hv => ?_
  obtain ⟨x, -, rfl⟩ := List.mem_map.1 hv
  exact nofun

/-- **Blocks.** Every word that closes a block closes one block of the tree. -/
theorem Yields.closings_eq {f : Form} {ts : List Token} (h : Yields f ts) :
    closings ts = f.blocks := by
  induction h with
  | boolean b ht => cases b <;> simp [Form.blocks, Node.preorder, Node.visit, Node.form, ht]
  | unary ht _ ih =>
    have := kind_ne_of_mem ht (by decide : Kind.closeBlock ∉ _)
    simp [Form.blocks, Node.preorder, Node.visit, Node.form, *]
  | binary _ ht _ ihl ihr =>
    have := kind_ne_of_mem ht (by decide : Kind.closeBlock ∉ _)
    simp [Form.blocks, Node.preorder, Node.visit, Node.form, *]
  | block ho _ hc ih =>
    -- the only case that counts on either side
    rw [List.cons_append, closings_cons (by simp [ho]), closings_append, ih]
    simp [Form.blocks, Node.preorder, Node.visit, Node.form, closings, blocksAmong, hc]
  | valueStmt _ _ _ _ hend | updateStmt _ _ _ _ hend =>
    have := hend.closings (by decide)
    simp [Form.blocks, Node.preorder, Node.visit, Node.form, Ident.visit, *]
  | expressionStmt _ hend ih =>
    rw [closings_append, ih, hend.closings (by decide)]
    simp [Form.blocks, Node.preorder, Node.visit, Node.form]
  | returnStmt _ _ hrun | lastReturn _ _ hrun =>
    have := closings_eq_zero fun t ht => (hrun t ht).2.1
    simp [Form.blocks, Node.preorder, Node.preorderAll, Node.visit, Node.form, *]
  | _ =>
    simp [Form.blocks, Node.preorder, Node.preorderAll, Node.preorderPairs, Node.visit, Node.form, *]

end SepiaLang.Parse
