import SepiaLang.Proofs.Parse.Accept
import SepiaLang.Proofs.Parse.Resume
import SepiaLang.Proofs.Scan.Lexes

/-!
# Programs one after the other

A program that ends with a semicolon can be followed by another one: the statements of both are read,
and no others.

* `Echo.near_start`: the tokens ahead at the start are those of the list.
* **`Echo.program_append`**: two lists of tokens one after the other, also if the first one has
  problems.
* **`parse_of_bare_eq`**: tokens that differ in their places only.
* **`parseSource_append_line`**: two texts without problems, with a line break between them.
-/

namespace SepiaLang

namespace Parse

/-- The token that the window is filled up with at the start. -/
def padding : Token := { kind := .eof, literal := "" }

namespace Echo

variable {α : Type} {P : Echo α}

/-! ## The start -/

theorem near_start (tokens : List Token) (i : Nat) :
    P.Near ((State.start tokens).nth i) (tokens.getD i padding) := by
  have hs : State.Padded ⟨padding, padding, tokens, padding, #[], 0, #[]⟩ := rfl
  exact (near_consume hs.consume i).trans (near_consume hs (i + 1))

theorem near_start_of_map {tokens tokens' : List Token} (h : tokens.map P.view = tokens'.map P.view)
    (i : Nat) : P.Near ((State.start tokens).nth i) (tokens'.getD i padding) := by
  have hview : P.view (tokens.getD i padding) = P.view (tokens'.getD i padding) := by
    rw [← List.getD_map (f := P.view), ← List.getD_map (f := P.view), h]
  exact (near_start tokens i).trans (.inl hview)

/-- The second list holds the tokens of the first one, up to its end, and then others. -/
theorem ends_start {init closing second both : List Token} {stop : Token}
    (hinit : ∀ t ∈ init, t.kind ≠ .eof) (hstop : stop.kind = .semicolon)
    (hclosing : ∀ t ∈ closing, t.kind = .eof)
    (hboth : both.map P.view = (init ++ stop :: second).map P.view) :
    P.Ends init.length (State.start second) (State.start (init ++ stop :: closing)).nth
      (State.start both).nth where
  upTo i hi := by
    obtain ⟨t, ht, hget⟩ : ∃ t : Token, t.kind ≠ .eof ∧
        ∀ rest, (init ++ stop :: rest).getD i padding = t := by
      rcases Nat.lt_or_eq_of_le hi with hlt | rfl
      · refine ⟨init.get ⟨i, hlt⟩, hinit _ (List.get_mem _ _), fun rest => ?_⟩
        rw [List.getD_append _ _ _ _ hlt, List.getD_eq_getElem _ _ hlt]
        rfl
      · exact ⟨stop, by simp [hstop], by simp⟩
    have hfirst := near_start (P := P) (init ++ stop :: closing) i
    have hsecond := near_start_of_map hboth i
    rw [hget] at hfirst hsecond
    refine ⟨hfirst.kind ▸ ht, ?_⟩
    exact (hfirst.trans hsecond.symm).resolve_right fun h => ht (hfirst.kind ▸ h.1)
  semicolon := by
    rw [(near_start (P := P) _ _).kind]
    simpa using hstop
  after i hi := by
    rw [(near_start (P := P) _ _).kind, List.append_cons, List.getD_append_right _ _ _ _ (by simp; omega)]
    by_cases hlt : i - (init ++ [stop]).length < closing.length
    · rw [List.getD_eq_getElem _ _ hlt]
      exact hclosing _ (List.getElem_mem hlt)
    · rw [List.getD_eq_default _ _ (by omega)]
      rfl
  further i := by
    have hsecond := near_start_of_map hboth (i + (init.length + 1))
    rw [List.append_cons, List.getD_append_right _ _ _ _ (by simp), List.length_append,
      List.length_singleton, Nat.add_sub_cancel] at hsecond
    exact (near_start second i).trans hsecond.symm

/-! ## Two lists of tokens -/

/-- The same view of tokens, where the second list does not go on. -/
def apart (P : Echo α) (before : List Problem) : Echo α :=
  { P with next := none, next_kind := fun b h => absurd h (Option.not_mem_none b), before }

/-- **Two lists of tokens one after the other.** Where the first one ends with a semicolon and leaves no
block open, the statements and the problems of both are found, and no others. -/
theorem program_append (limit : Nat) {init closing second both : List Token} {stop : Token}
    (hnext : P.next = some (State.start second)) (hbefore : P.before = [])
    (hinit : ∀ t ∈ init, t.kind ≠ .eof) (hstop : stop.kind = .semicolon)
    (hclosing : ∀ t ∈ closing, t.kind = .eof)
    (hboth : both.map P.view = (init ++ stop :: second).map P.view) :
    (∃ t, .openBlock t ∈ (program limit (init ++ stop :: closing)).problems) ∨
    .tooDeep ∈ (program limit (init ++ stop :: closing)).problems ∨
    ((program limit both).body.map P.tree =
        ((program limit (init ++ stop :: closing)).body ++ (program limit second).body).map P.tree ∧
      ∃ found found', (program limit both).problems = found ++ found' ∧
        List.Forall₂ P.Alike (program limit (init ++ stop :: closing)).problems found ∧
        List.Forall₂ (P.apart found).Alike (program limit second).problems found') := by
  have hstart : P.Shadow (State.start (init ++ stop :: closing)) (State.start both) := by
    refine ⟨State.padded_start _, State.padded_start _, ?_, [], ?_, ?_⟩
    · rw [Aligned, hnext]
      exact ⟨init.length, ends_start hinit hstop hclosing hboth⟩
    · rw [State.problems_start, hbefore]
      rfl
    · rw [State.problems_start]
      exact .nil
  rcases programBody_further (mirrors_expression limit) hnext _ _ hstart
    (State.left_lt_budget _) (State.left_lt_budget _) with
    ⟨-, t, ht⟩ | hdeep | ⟨body, k, s, hless, honward, hend⟩
  · exact .inl ⟨t, Array.mem_toList_iff.2 ht⟩
  · exact .inr (.inl (Array.mem_toList_iff.2 hdeep))
  · obtain ⟨found, hproblems, hfound⟩ := honward.problems
    rw [hbefore, List.nil_append] at hproblems
    have hagain : (P.apart found).Shadow (State.start second) s := by
      refine ⟨State.padded_start _, honward.padded, honward.streams, [], ?_, ?_⟩
      · rw [hproblems]
        exact (List.append_nil _).symm
      · rw [State.problems_start]
        exact .nil
    obtain ⟨hbody, hfinal⟩ := programBody_same (mirrors_expression limit) rfl _ _ hagain
      (State.left_lt_budget _) hless
    obtain ⟨found', hproblems', hfound'⟩ := hfinal.problems
    refine .inr (.inr ⟨?_, found, found', ?_, hfound, hfound'⟩)
    · have hwhole : (program limit both).body = body ++ (programBody (expression limit) k s).1 :=
        congrArg Prod.fst hend
      rw [hwhole, List.map_append, List.map_append, honward.body]
      exact congrArg _ hbody.symm
    · have hwhole : (program limit both).problems = (programBody (expression limit) k s).2.problems.toList :=
        congrArg (·.2.problems.toList) hend
      rw [hwhole, hproblems']
      rfl

end Echo

end Parse

/-! ## Two texts -/

namespace Node

variable {α β : Type}

mutual

theorem mapNotes_mapNotes {γ : Type} (g : β → γ) (f : α → β) : ∀ n : Node α,
    (n.mapNotes f).mapNotes g = n.mapNotes (g ∘ f)
  | absent => by simp [mapNotes]
  | program body => by simp [mapNotes, mapNotesAll_mapNotesAll g f body]
  | block _ body => by simp [mapNotes, mapNotesAll_mapNotesAll g f body]
  | expressionStmt _ e => by simp [mapNotes, mapNotes_mapNotes g f e]
  | valueStmt _ _ e => by simp [mapNotes, Ident.map, mapNotes_mapNotes g f e]
  | updateStmt _ _ e => by simp [mapNotes, Ident.map, mapNotes_mapNotes g f e]
  | returnStmt _ e => by simp [mapNotes, mapNotes_mapNotes g f e]
  | integer _ _ => by simp [mapNotes]
  | boolean _ _ => by simp [mapNotes]
  | string _ _ => by simp [mapNotes]
  | identifier _ _ => by simp [mapNotes]
  | unary _ _ e => by simp [mapNotes, mapNotes_mapNotes g f e]
  | binary _ _ l r => by simp [mapNotes, mapNotes_mapNotes g f l, mapNotes_mapNotes g f r]
  | conditional _ c t e => by
    simp [mapNotes, mapNotes_mapNotes g f c, mapNotes_mapNotes g f t, mapNotes_mapNotes g f e]
  | function _ _ b => by simp [mapNotes, Ident.map, mapNotes_mapNotes g f b]
  | call _ h args => by simp [mapNotes, mapNotes_mapNotes g f h, mapNotesAll_mapNotesAll g f args]
  | array _ es => by simp [mapNotes, mapNotesAll_mapNotesAll g f es]
  | index _ l i => by simp [mapNotes, mapNotes_mapNotes g f l, mapNotes_mapNotes g f i]
  | map _ ps => by simp [mapNotes, mapNotesPairs_mapNotesPairs g f ps]

theorem mapNotesAll_mapNotesAll {γ : Type} (g : β → γ) (f : α → β) : ∀ ns : List (Node α),
    mapNotesAll g (mapNotesAll f ns) = mapNotesAll (g ∘ f) ns
  | [] => by simp [mapNotesAll]
  | n :: ns => by simp [mapNotesAll, mapNotes_mapNotes g f n, mapNotesAll_mapNotesAll g f ns]

theorem mapNotesPairs_mapNotesPairs {γ : Type} (g : β → γ) (f : α → β) : ∀ ps : List (Node α × Node α),
    mapNotesPairs g (mapNotesPairs f ps) = mapNotesPairs (g ∘ f) ps
  | [] => by simp [mapNotesPairs]
  | (k, v) :: ps => by
    simp [mapNotesPairs, mapNotes_mapNotes g f k, mapNotes_mapNotes g f v,
      mapNotesPairs_mapNotesPairs g f ps]

end

end Node

open Parse

/-- A program without problems starts with no semicolon. -/
theorem start_kind_ne {tokens : List Token} (h : (parse tokens).problems = []) :
    (State.start tokens).current.kind ≠ .semicolon := by
  intro hkind
  have hy := yields_upToEnd h
  rw [← State.pending_start, State.pending_eq_cons (by simp [hkind])] at hy
  exact (hy.startsWell rfl _ rfl).2 hkind

theorem Parse.Echo.next_kind_of_start {second : List Token}
    (h : (State.start second).current.kind ≠ .semicolon) :
    ∀ s ∈ some (State.start second), s.current.kind ≠ .semicolon := by
  rintro _ ⟨⟩
  exact h

/-- The kinds and the texts of the tokens, where a second list of tokens follows. -/
def Parse.Echo.onto (second : List Token) (h : (State.start second).current.kind ≠ .semicolon) :
    Echo Lexeme where
  view := Token.bare
  view_inj h := Prod.ext_iff.1 h
  next := some (State.start second)
  next_kind := Echo.next_kind_of_start h
  before := []

theorem Parse.Echo.strip_eq {α : Type} {P : Echo α} {ns ms : List (Node Token)}
    (heq : ns.map P.tree = ms.map P.tree) : ns.map Node.strip = ms.map Node.strip := by
  have hstrip (n : Node Token) : (P.tree n).strip = n.strip := Node.mapNotes_mapNotes _ _ n
  have := congrArg (List.map Node.strip) heq
  simpa [List.map_map, Function.comp_def, hstrip] using this

/-- The kinds and the texts of the tokens, where no other list follows. -/
def Parse.Echo.lexemes : Echo Lexeme where
  view := Token.bare
  view_inj h := Prod.ext_iff.1 h
  next := none
  next_kind b h := absurd h (Option.not_mem_none b)
  before := []

/-- Tokens in other places give the same statements and the same problems, apart from the places. -/
theorem Parse.Echo.programBody_of_bare_eq {tokens tokens' : List Token}
    (h : tokens.map Token.bare = tokens'.map Token.bare) (limit : Nat) :
    let first := Parse.programBody (expression limit) (State.start tokens).budget (State.start tokens)
    let second := Parse.programBody (expression limit) (State.start tokens').budget (State.start tokens')
    first.1.map lexemes.tree = second.1.map lexemes.tree ∧ lexemes.Shadow first.2 second.2 := by
  have hstart : lexemes.Shadow (State.start tokens) (State.start tokens') := by
    refine ⟨State.padded_start _, State.padded_start _, fun i => ?_, [], ?_, ?_⟩
    · exact (near_start_of_map (P := lexemes) h i).trans (near_start tokens' i).symm
    · rw [State.problems_start]
      rfl
    · rw [State.problems_start]
      exact .nil
  exact programBody_same (mirrors_expression limit) rfl _ _ hstart (State.left_lt_budget _)
    (State.left_lt_budget _)

/-- **Tokens in other places** are read as the same program. -/
theorem parse_of_bare_eq {tokens tokens' : List Token} (h : tokens.map Token.bare = tokens'.map Token.bare) :
    (parse tokens).program.strip = (parse tokens').program.strip := by
  have hstrip := Echo.strip_eq (Echo.programBody_of_bare_eq h nestingLimit).1
  change Node.program (Node.mapNotesAll _ (program nestingLimit tokens).body) =
    Node.program (Node.mapNotesAll _ (program nestingLimit tokens').body)
  rw [Node.mapNotesAll_eq_map, Node.mapNotesAll_eq_map]
  exact congrArg Node.program hstrip

/-- Nothing is wrong with tokens if nothing is wrong with them in other places. -/
theorem problems_eq_nil_of_bare_eq {tokens tokens' : List Token}
    (h : tokens.map Token.bare = tokens'.map Token.bare) (hproblems : (parse tokens').problems = []) :
    (parse tokens).problems = [] := by
  obtain ⟨found, hfound, halike⟩ := (Echo.programBody_of_bare_eq h nestingLimit).2.problems
  have hnone : Echo.lexemes.before ++ found = [] := hfound.symm.trans hproblems
  rw [(List.append_eq_nil_iff.1 hnone).2] at halike
  exact List.forall₂_nil_right_iff.1 halike

/-- **Two texts with a line break between them**, where the first one ends with a semicolon: the
statements of both are read, and no others. -/
theorem parseSource_append_line {a b : String} (ha : (parseSource a).problems = [])
    (hb : (parseSource b).problems = [])
    (hlast : ∃ t ∈ (scan a).dropLast.getLast?, t.kind = .semicolon) :
    (parseSource (a ++ "\n" ++ b)).problems = [] ∧
      (parseSource (a ++ "\n" ++ b)).body.map Node.strip =
        ((parseSource a).body ++ (parseSource b).body).map Node.strip := by
  obtain ⟨stop, hget, hstop⟩ := hlast
  obtain ⟨before, last, hscan, heof, hbefore⟩ := exists_scan_eq a
  have hlines := scan_append_line (a := a) (b := b) fun t ht => by
    rw [Option.mem_unique ht hget, hstop]
    decide
  rw [hscan, List.dropLast_concat] at hget hlines
  obtain ⟨init, rfl⟩ := List.getLast?_eq_some_iff.1 hget
  rw [List.append_assoc] at hscan hlines
  have happend := Echo.program_append (P := .onto (scan b) (start_kind_ne hb)) nestingLimit rfl rfl
    (fun t ht => hbefore t (List.mem_append_left _ ht)) hstop (fun t ht => List.mem_singleton.1 ht ▸ heof)
    hlines
  have hfirst : (program nestingLimit (init ++ stop :: [last])).problems = [] := by
    rw [parseSource, hscan] at ha
    exact ha
  have hsecond : (program nestingLimit (scan b)).problems = [] := hb
  rw [hfirst, hsecond] at happend
  rcases happend with ⟨_, hopen⟩ | hdeep | ⟨hbodies, found, found', hproblems, hfound, hfound'⟩
  · cases hopen
  · cases hdeep
  · cases hfound
    cases hfound'
    refine ⟨hproblems, ?_⟩
    rw [parseSource, parseSource, hscan]
    exact Echo.strip_eq hbodies

end SepiaLang
