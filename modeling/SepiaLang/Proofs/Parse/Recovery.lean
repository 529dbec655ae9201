import SepiaLang.Proofs.Parse.Charges
import SepiaLang.Proofs.Parse.Join

/-!
# Going on after a semicolon

However much is wrong before a semicolon, what stands after it is read as it is by itself. A phrase that
is given up leaves the window somewhere before the semicolon, at it, or on the token before it, and
nothing looks further than to the next token. Only a block goes past a semicolon, and without an arrow
there is none.

* `Echo.exactly`: the tokens as they are, where a second list of tokens follows.
* **`parse_append_of_semicolon`**: a list of tokens that ends with a semicolon, and a program after it.
-/

namespace SepiaLang

open Parse

/-- The tokens as they are, where a second list of tokens follows. -/
def Parse.Echo.exactly (second : List Token) (h : (State.start second).current.kind ≠ .semicolon) :
    Echo Token where
  view := id
  view_inj h := ⟨congrArg Token.kind h, congrArg Token.literal h⟩
  next := some (State.start second)
  next_kind := Echo.next_kind_of_start h
  before := []

namespace Parse.Echo

variable {second : List Token} {h : (State.start second).current.kind ≠ .semicolon}

theorem tree_exactly : (exactly second h).tree = id := funext Node.mapNotes_id

/-- The first list does not end before the second one, so that all its tokens are seen. -/
theorem Alike.eq_of_exactly {p p' : Problem} (halike : (exactly second h).Alike p p') : p = p' := by
  cases halike with
  | same => rfl
  | @expected wanted t t' hlike =>
    have heq : t = t' := hlike.2 nofun
    rw [heq]
  | @openBlock t t' hview =>
    have heq : t = t' := hview
    rw [heq]

end Parse.Echo

/-- **Reading goes on at a semicolon.** A list of tokens without arrows that ends with a semicolon, however
much is wrong with it, has the same statements and the same problems if a program follows, and so has the
program. -/
theorem parse_append_of_semicolon {a b : List Token} (heof : ∀ t ∈ a, t.kind ≠ .eof)
    (harrow : ∀ t ∈ a, t.kind ≠ .openBlock) (hlast : ∃ t ∈ a.getLast?, t.kind = .semicolon)
    (hdeep : .tooDeep ∉ (parse a).problems) (hb : (parse b).problems = []) :
    (parse (a ++ b)).body = (parse a).body ++ (parse b).body ∧
      (parse (a ++ b)).problems = (parse a).problems := by
  obtain ⟨stop, hget, hstop⟩ := hlast
  obtain ⟨init, rfl⟩ := List.getLast?_eq_some_iff.1 hget
  have hnoblock := openBlock_not_mem nestingLimit harrow
  have hboth : (init ++ [stop] ++ b).map id = (init ++ stop :: b).map id := by
    rw [List.append_assoc, List.singleton_append]
  have happend := Echo.program_append (P := .exactly b (start_kind_ne hb)) nestingLimit rfl rfl
    (fun t ht => heof t (List.mem_append_left _ ht)) hstop (List.forall_mem_nil fun t : Token => t.kind = .eof)
    hboth
  rcases happend with ⟨t, hopen⟩ | htooDeep | ⟨hbody, found, found', hproblems, hfound, hfound'⟩
  · exact absurd hopen (hnoblock t)
  · exact absurd htooDeep hdeep
  · rw [Echo.tree_exactly, List.map_id, List.map_id] at hbody
    have hsecond : (program nestingLimit b).problems = [] := hb
    rw [hsecond, List.forall₂_nil_left_iff] at hfound'
    have hsame : (program nestingLimit (init ++ [stop])).problems = found :=
      List.forall₂_eq_eq_eq ▸ hfound.imp fun _ _ => Echo.Alike.eq_of_exactly
    refine ⟨hbody, ?_⟩
    rw [parse, hproblems, hfound', List.append_nil, ← hsame]
    rfl

/-- A binding without a name and a call without an end, before a statement. -/
theorem parse_append_of_broken_call :
    let a := (scan "value = 5; f(1, [2;").dropLast
    let b := scan "value x = 3;"
    (parse a).problems = [.expected .ident ⟨.assign, "=", 1, 7⟩, .noExpression .assign,
      .expected .rbracket ⟨.semicolon, ";", 1, 19⟩] ∧ (parse b).body.length = 1 ∧
    (parse (a ++ b)).body = (parse a).body ++ (parse b).body ∧
    (parse (a ++ b)).problems = (parse a).problems := by
  intro a b
  have hproblems : (parse a).problems = [.expected .ident ⟨.assign, "=", 1, 7⟩, .noExpression .assign,
      .expected .rbracket ⟨.semicolon, ";", 1, 19⟩] := by decide +kernel
  have hdeep : .tooDeep ∉ (parse a).problems := by rw [hproblems]; decide
  exact ⟨hproblems, by decide +kernel, parse_append_of_semicolon (by decide +kernel) (by decide +kernel)
    ⟨⟨.semicolon, ";", 1, 19⟩, by decide +kernel, rfl⟩ hdeep (by decide +kernel)⟩

end SepiaLang
