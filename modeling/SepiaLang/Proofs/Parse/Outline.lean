import SepiaLang.Proofs.Parse.Related

/-!
# The outline of a trace

A trace records when a phrase was begun and when it was left, and it does so however the phrase was
left: at its end, given up somewhere inside, or because expressions are nested too deeply. So the lines
of a phrase always stand in pairs, with those of the phrases inside it between them.

* `Outline`: the lines of phrases, one after the other, with those inside them one step further in.
* `Outline.depth_add_ended`: the lines before a line tell how far in it stands.
* `attempts`: where a program starts on a statement, whatever comes of it.
* `outlines_expression`: what reading an expression adds to the trace is an outline.
* **`trace_program`**: a trace is made up of the lines of the statements that were tried, in their order.
-/

namespace SepiaLang

/-! ## Lines -/

namespace TraceLine

/-- The number of phrases around the one of the line. -/
def depth : TraceLine → Nat
  | enter depth _ _ => depth
  | leave depth _ => depth

/-- A line without the space before it. -/
def content : TraceLine → String
  | enter _ phrase first => "BEGIN " ++ phrase.name ++ " at " ++ first.label
  | leave _ phrase => "END " ++ phrase.name

/-- The line begins a phrase. -/
def begins : TraceLine → Bool
  | enter .. => true
  | leave .. => false

theorem render_eq (line : TraceLine) : line.render = indentation line.depth ++ line.content := by
  cases line <;> simp [render, depth, content, String.append_assoc]

end TraceLine

/-- How many phrases the lines begin. -/
def begun (lines : List TraceLine) : Nat := lines.countP TraceLine.begins

/-- How many phrases the lines leave. -/
def ended (lines : List TraceLine) : Nat := lines.countP fun line => !line.begins

section Counts

variable (depth : Nat) (phrase : Phrase) (first : Token) (lines more : List TraceLine)

theorem begun_nil : begun [] = 0 := rfl

theorem ended_nil : ended [] = 0 := rfl

theorem begun_enter : begun (.enter depth phrase first :: lines) = begun lines + 1 :=
  List.countP_cons_of_pos rfl

theorem ended_enter : ended (.enter depth phrase first :: lines) = ended lines :=
  List.countP_cons_of_neg nofun

theorem begun_leave : begun (.leave depth phrase :: lines) = begun lines := List.countP_cons_of_neg nofun

theorem ended_leave : ended (.leave depth phrase :: lines) = ended lines + 1 := List.countP_cons_of_pos rfl

theorem begun_append : begun (lines ++ more) = begun lines + begun more := List.countP_append

theorem ended_append : ended (lines ++ more) = ended lines + ended more := List.countP_append

end Counts

/-- The lines of any number of phrases, one after the other, inside `depth` others. Each phrase is begun
and left in the same place and under the same name, and the phrases inside it stand between. -/
inductive Outline : Nat → List TraceLine → Prop
  | none {depth : Nat} : Outline depth []
  | phrase {depth : Nat} {phrase : Phrase} {first : Token} {inner rest : List TraceLine}
      (hinner : Outline (depth + 1) inner) (hrest : Outline depth rest) :
      Outline depth (.enter depth phrase first :: (inner ++ .leave depth phrase :: rest))

namespace Outline

variable {depth : Nat} {lines more : List TraceLine}

theorem append (h : Outline depth lines) (hmore : Outline depth more) : Outline depth (lines ++ more) := by
  induction h with
  | none => exact hmore
  | phrase hinner _ _ ih =>
    rw [List.cons_append, List.append_assoc, List.cons_append]
    exact .phrase hinner (ih hmore)

/-- Every phrase that is begun is left. -/
theorem begun_eq_ended (h : Outline depth lines) : begun lines = ended lines := by
  induction h with
  | none => rfl
  | phrase _ _ ihinner ihrest =>
    simp only [begun_enter, begun_leave, begun_append, ended_enter, ended_leave, ended_append]
    omega

/-- **How far in a line stands** is how many phrases the lines before it have begun and it and they have
not left. -/
theorem depth_add_ended (h : Outline depth lines) : ∀ {before after : List TraceLine} {line : TraceLine},
    lines = before ++ line :: after → line.depth + ended (before ++ [line]) = depth + begun before := by
  induction h with
  | none =>
    intro before after line heq
    cases before <;> cases heq
  | @phrase depth phrase first inner rest hinner _ ihinner ihrest =>
    intro before after line heq
    have hall := hinner.begun_eq_ended
    rcases before with _ | ⟨enter, before⟩
    · obtain ⟨rfl, -⟩ := List.cons.inj heq
      rfl
    · rw [List.cons_append] at heq
      obtain ⟨rfl, htail⟩ := List.cons.inj heq
      rw [List.cons_append, begun_enter, ended_enter]
      -- the line stands among those of the phrases inside, or it is the last one of the phrase, or it
      -- stands after it
      rcases List.append_eq_append_iff.1 htail with ⟨ls, rfl, hls⟩ | ⟨_ | ⟨line', ls⟩, rfl, hls⟩
      · rcases ls with _ | ⟨leave, ls⟩
        · obtain ⟨rfl, -⟩ := List.cons.inj hls
          simp only [ended_append, ended_leave, ended_nil, begun_append, begun_nil, TraceLine.depth]
          omega
        · obtain ⟨rfl, hrest⟩ := List.cons.inj hls
          have := ihrest hrest
          simp only [List.append_assoc, List.cons_append, ended_append, ended_leave, begun_append,
            begun_leave] at this ⊢
          omega
      · obtain ⟨rfl, -⟩ := List.cons.inj hls
        simp only [List.append_nil, ended_append, ended_leave, ended_nil, TraceLine.depth] at hall ⊢
        omega
      · obtain ⟨rfl, -⟩ := List.cons.inj hls
        have := ihinner rfl
        omega

end Outline

namespace Parse

open SepiaLang.Computation

variable {α β : Type}

/-! ## Readers -/

/-- The lines that a state has more than another one, where as many phrases are open. -/
def State.Adds (s : State) (lines : List TraceLine) (s' : State) : Prop :=
  s'.depth = s.depth ∧ s'.trace.toList = s.trace.toList ++ lines

namespace State.Adds

variable {s s₁ s₂ : State} {lines more : List TraceLine}

theorem none (hdepth : s₁.depth = s.depth) (htrace : s₁.trace = s.trace) : s.Adds [] s₁ :=
  ⟨hdepth, by rw [htrace, List.append_nil]⟩

theorem consume (s : State) : s.Adds [] s.consume := by
  refine .none ?_ ?_ <;> unfold State.consume <;> split <;> rfl

theorem trans (h : s.Adds lines s₁) (h' : s₁.Adds more s₂) : s.Adds (lines ++ more) s₂ :=
  ⟨h'.1.trans h.1, by rw [h'.2, h.2, List.append_assoc]⟩

/-- The lines of a phrase stand around what reading it adds. -/
theorem traced {phrase : Phrase} (h : (s.enter phrase).Adds lines s₁) :
    s.Adds (.enter s.depth phrase s.current :: (lines ++ [.leave s.depth phrase])) (s₁.leave phrase) := by
  have hdepth : (s₁.leave phrase).depth = s.depth := by
    change s₁.depth - 1 = s.depth
    rw [h.1]
    rfl
  refine ⟨hdepth, ?_⟩
  change (s₁.trace.push (.leave (s₁.leave phrase).depth phrase)).toList = _
  rw [Array.toList_push, h.2, hdepth]
  simp [State.enter]

end State.Adds

/-- What the reader adds to the trace is an outline, and it leaves as many phrases open as it found. -/
def Outlines (r : Reader α) : Prop := ∀ s : State, ∃ lines, Outline s.depth lines ∧ s.Adds lines (r s).2

namespace Outlines

theorem of_nothing {r : Reader α} (h : ∀ s : State, s.Adds [] (r s).2) : Outlines r := fun s => ⟨[], .none, h s⟩

theorem bind {r : Reader α} {f : α → Reader β} (hr : Outlines r) (hf : ∀ a, Outlines (f a)) :
    Outlines (r >>= f) := by
  intro s
  obtain ⟨lines, houtline, hadds⟩ := hr s
  rw [bind_apply]
  rcases hx : r s with ⟨e | a, s₁⟩ <;> rw [hx] at hadds
  · exact ⟨lines, houtline, hadds⟩
  · obtain ⟨more, hmore, hadds'⟩ := hf a s₁
    rw [hadds.1] at hmore
    exact ⟨lines ++ more, houtline.append hmore, hadds.trans hadds'⟩

/-- A phrase adds one pair of lines, with an outline between them. -/
theorem traced_apply {r : Reader α} (h : Outlines r) (phrase : Phrase) (s : State) :
    ∃ inner, Outline (s.depth + 1) inner ∧
      s.Adds (.enter s.depth phrase s.current :: (inner ++ [.leave s.depth phrase])) (traced phrase r s).2 :=
  have ⟨inner, hinner, hadds⟩ := h (s.enter phrase)
  ⟨inner, hinner, hadds.traced⟩

theorem traced {r : Reader α} (h : Outlines r) (phrase : Phrase) : Outlines (traced phrase r) := fun s =>
  have ⟨_, hinner, hadds⟩ := h.traced_apply phrase s
  ⟨_, .phrase hinner .none, hadds⟩

theorem attempt {r : Reader α} (h : Outlines r) : Outlines (attempt r) := by
  intro s
  rw [Echo.attempt_apply]
  exact h s

theorem regardless {r : Reader α} {after : Reader Unit} (hr : Outlines r) (hafter : Outlines after)
    (make : α → β) : Outlines (regardless r after make) := by
  refine .bind hr.attempt fun found => .bind hafter fun _ => ?_
  cases found with
  | some a => exact .of_nothing fun _ => .none rfl rfl
  | none => exact .of_nothing fun _ => .none rfl rfl

end Outlines

theorem compatible_outlines : Compatible fun _ r _ => Outlines r where
  pure _ := .of_nothing fun _ => .none rfl rfl
  bind := .bind
  current := .of_nothing fun _ => .none rfl rfl
  ahead := .of_nothing fun _ => .none rfl rfl
  consume := .of_nothing State.Adds.consume
  report _ := .of_nothing fun _ => .none rfl rfl
  reject _ := .of_nothing fun _ => .none rfl rfl
  budget _ _ h s := h s.budget s
  traced phrase _ _ h := h.traced phrase
  attempt := .attempt
  regardless make hr hafter := hr.regardless hafter make

/-- **Expressions add outlines**, at every depth of nesting, also where they are given up. -/
theorem outlines_expression (limit : Nat) :
    Sub.Related (fun _ r _ => Outlines r) (expression limit) (expression limit) :=
  related_itself compatible_outlines (.of_nothing fun _ => .none rfl rfl) limit

/-! ## Statements -/

/-- The phrase that a statement is, by the kind of its first token. -/
def statementPhrase : Kind → Phrase
  | .valueWord => .valueStatement
  | .updateWord => .updateStatement
  | .returnWord => .returnStatement
  | _ => .expressionStatement

/-- The lines of one phrase that was begun on the current token of the state. -/
def State.Lines (s : State) (phrase : Phrase) (lines : List TraceLine) : Prop :=
  ∃ inner, Outline (s.depth + 1) inner ∧
    lines = .enter s.depth phrase s.current :: (inner ++ [.leave s.depth phrase])

theorem State.Lines.outline {s : State} {phrase : Phrase} {lines : List TraceLine} (h : s.Lines phrase lines) :
    Outline s.depth lines := by
  obtain ⟨inner, hinner, rfl⟩ := h
  exact .phrase hinner .none

/-- **A statement adds the lines of one phrase.** -/
theorem exists_lines_statement (limit : Nat) (s : State) :
    ∃ lines, s.Lines (statementPhrase s.current.kind) lines ∧
      s.Adds lines (statement (expression limit) s).2 := by
  have hR := compatible_outlines
  have hsub := outlines_expression limit
  have htraced (phrase : Phrase) {r : Reader (Node Token)} (hr : Outlines r) :
      ∃ lines, s.Lines phrase lines ∧ s.Adds lines (traced phrase r s).2 :=
    have ⟨inner, hinner, hadds⟩ := hr.traced_apply phrase s
    ⟨_, ⟨inner, hinner, rfl⟩, hadds⟩
  have hbinding (make : Token → Ident Token × Node Token → Node Token) :
      Outlines (do let first ← current; let parts ← binding (expression limit); return make first parts) :=
    .bind hR.current fun _ => .bind (related_binding hR hsub) fun _ => hR.pure _
  have hafter : Outlines (budget >>= skipToSemicolon) :=
    hR.budget steady_skipToSemicolon steady_skipToSemicolon (related_skipToSemicolon hR)
  rw [statement_apply]
  cases s.current.kind
  case valueWord => exact htraced .valueStatement (hbinding fun first parts => .valueStmt first parts.1 parts.2)
  case updateWord => exact htraced .updateStatement (hbinding fun first parts => .updateStmt first parts.1 parts.2)
  case returnWord =>
    dsimp only
    rw [returnStatement_eq]
    exact htraced .returnStatement (.bind hR.current fun _ => .bind hR.consume fun _ =>
      .regardless hsub.lowest hafter _)
  all_goals
    dsimp only
    rw [expressionStatement_eq]
    exact htraced .expressionStatement (.bind hR.current fun _ =>
      .regardless hsub.lowest (hR.skip _) _)

/-! ## Programs -/

/-- The states in which the reader of a program starts on a statement, in their order. It starts on the
next one after a statement that was read and after one that was given up. -/
def attempts (sub : Sub) : Nat → State → List State
  | 0, _ => []
  | n + 1, s =>
    if s.current.kind = .eof then []
    else s :: match statement sub s with
      | (.error .tooDeep, _) => []
      | (_, s₁) => attempts sub n s₁.consume

/-- The statements of a program add their lines, each those of one phrase. -/
theorem exists_lines_programBody (limit : Nat) : ∀ (n : Nat) (s : State),
    ∃ groups, (attempts (expression limit) n s).Forall₂
        (fun s₁ lines => s₁.depth = s.depth ∧ s₁.Lines (statementPhrase s₁.current.kind) lines) groups ∧
      Outline s.depth groups.flatten ∧ s.Adds groups.flatten (programBody (expression limit) n s).2
  | 0, s => ⟨[], .nil, .none, .none rfl rfl⟩
  | n + 1, s => by
    rw [programBody_succ, attempts]
    split
    · exact ⟨[], .nil, .none, .none rfl rfl⟩
    · obtain ⟨lines, hlines, hadds⟩ := exists_lines_statement limit s
      -- what follows a statement that has come to an end, in one way or the other
      have hmore (s₁ : State) (hadds : s.Adds lines s₁) : ∃ groups,
          (s :: attempts (expression limit) n s₁.consume).Forall₂ (fun s₁ lines => s₁.depth = s.depth ∧
            s₁.Lines (statementPhrase s₁.current.kind) lines) groups ∧
          Outline s.depth groups.flatten ∧ s.Adds groups.flatten (programBody (expression limit) n s₁.consume).2 := by
        obtain ⟨groups, hgroups, houtline, hrest⟩ := exists_lines_programBody limit n s₁.consume
        have hnext := hadds.trans (.consume s₁)
        rw [hnext.1] at hgroups houtline
        rw [List.append_nil] at hnext
        exact ⟨lines :: groups, .cons ⟨rfl, hlines⟩ hgroups, hlines.outline.append houtline,
          hnext.trans hrest⟩
      rcases hx : statement (expression limit) s with ⟨(_ | _) | stmt, s₁⟩ <;> rw [hx] at hadds
      · exact hmore s₁ hadds
      · exact ⟨[lines], .cons ⟨rfl, hlines⟩ .nil, hlines.outline.append .none,
          hadds.trans (.none rfl rfl)⟩
      · exact hmore s₁ hadds

theorem depth_start (tokens : List Token) : (State.start tokens).depth = 0 := by
  unfold State.start
  rw [(State.Adds.consume _).1, (State.Adds.consume _).1]

theorem trace_start (tokens : List Token) : (State.start tokens).trace.toList = [] := by
  unfold State.start
  rw [(State.Adds.consume _).2, (State.Adds.consume _).2]
  rfl

end Parse

open Parse

/-- **Traces are well bracketed.** For every list of tokens, well formed or not, the trace is made up of the
lines of the statements that were tried, one phrase each and in their order: it is begun on the token where
the statement starts, its lines are not indented, and those of the phrases inside it are an outline. Every
line of the trace is indented by the phrases that are open there, and none is open at the end. -/
theorem trace_program (limit : Nat) (tokens : List Token) :
    let start := State.start tokens
    let trace := (program limit tokens).trace
    (∃ groups, trace = groups.flatten ∧
      (attempts (expression limit) start.budget start).Forall₂ (fun s lines => ∃ inner, Outline 1 inner ∧
        lines = .enter 0 (statementPhrase s.current.kind) s.current ::
          (inner ++ [.leave 0 (statementPhrase s.current.kind)])) groups) ∧
    (∀ before line after, trace = before ++ line :: after →
      line.render = indentation (begun before - ended (before ++ [line])) ++ line.content) ∧
    (Parse.programBody (expression limit) start.budget start).2.depth = 0 := by
  intro start trace
  obtain ⟨groups, hgroups, houtline, hdepth, htrace⟩ := exists_lines_programBody limit start.budget start
  have hzero : start.depth = 0 := depth_start tokens
  have hflat : trace = groups.flatten := by
    rw [trace_start tokens, List.nil_append] at htrace
    exact htrace
  have hgroups' : (attempts (expression limit) start.budget start).Forall₂ (fun s lines => ∃ inner,
      Outline 1 inner ∧ lines = .enter 0 (statementPhrase s.current.kind) s.current ::
        (inner ++ [.leave 0 (statementPhrase s.current.kind)])) groups := by
    refine hgroups.imp fun s lines ⟨hs, hlines⟩ => ?_
    rwa [State.Lines, hs, hzero] at hlines
  rw [hzero, ← hflat] at houtline
  refine ⟨⟨groups, hflat, hgroups'⟩, fun before line after heq => ?_, hdepth.trans hzero⟩
  have hline := houtline.depth_add_ended heq
  rw [TraceLine.render_eq, show begun before - ended (before ++ [line]) = line.depth by omega]

/-- A call that is given up at the semicolon. -/
example : (parseSource "f(;").trace.map TraceLine.render = [
    "BEGIN parse_expression_statement at IDENT('f')",
    "  BEGIN parse_expression at IDENT('f')",
    "    BEGIN parse_call_expression at LPAREN('(')",
    "      BEGIN parse_expression at SEMICOLON(';')",
    "      END parse_expression",
    "    END parse_call_expression",
    "  END parse_expression",
    "END parse_expression_statement"] := by decide +kernel

end SepiaLang
