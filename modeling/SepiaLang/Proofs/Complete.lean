import SepiaLang.Proofs.Guarded
import SepiaLang.Proofs.Parse.Proper

/-!
# Programs that lack nothing

A tree that comes from a file may lack parts, and evaluating a node that is missing is an error. The
trees that are read from texts lack nothing, so that this error is never met: neither in the program
itself nor in the functions that it makes.

* `Value.Intact`, `completeGuard`: what is at hand when nothing is lacking.
* `TellsOfMissingNode`: the wording of a missing node. `EvalError.eq_of_message`: which errors have it.
* `runWithin_complete`: the run of a program that lacks nothing.
* **`programs_lack_nothing`**: programs that are read from texts.
-/

namespace SepiaLang

open SepiaLang.Computation

/-! ## Values at hand -/

/-- The value is no error, is not on its way out, and is no function that lacks anything. -/
def Value.Intact (v : Value) : Prop :=
  ¬ hidden v.type ∧
    ∀ id params body scope, v = .function id params body scope → body ≠ .absent ∧ body.Complete

/-- All that occurs in the value is intact. -/
def Value.AllIntact (v : Value) : Prop := ∀ w : Value, w.PartOf v → w.Intact

theorem Value.allIntact_of_atomic {v : Value} (h : v.atomic = true) (hv : v.Intact) : v.AllIntact := by
  intro w hw
  cases hw with
  | self => exact hv
  | element | key | value | returned => cases h

/-- Nothing that is at hand lacks a part. -/
def completeGuard : Guard where
  Ok s := ∀ v : Value, s.Holds v → v.Intact
  Has := Value.AllIntact
  Tree n := n ≠ .absent ∧ n.Complete
  Lax := False
  of_scopes hs h v hv := hs v ((Store.holds_congr h v).1 hv)
  get? hs h w hw := hs w (Store.holds_of_get? h hw)
  set hs hv _ _ w hw := (Store.holds_set hw).elim (hv w) (hs w)
  addScope hs _ w hw := hs w (Store.holds_addScope hw)
  atom {v} h hf := by
    refine Value.allIntact_of_atomic h ⟨?_, ?_⟩
    · rintro (ht | ht) <;> cases v <;> cases ht <;> cases h
    · rintro id params body scope rfl
      exact absurd rfl hf
  function {id params body scope} := by
    constructor
    · exact fun h => (h _ (.self _)).2 id params body scope rfl
    · intro h
      refine Value.allIntact_of_atomic rfl ⟨fun ht => ht.elim nofun nofun, ?_⟩
      intro id' params' body' scope' heq
      cases heq
      exact h
  array {id elements} := by
    constructor
    · exact fun h v hv w hw => h w (.element hv hw)
    · intro h w hw
      cases hw with
      | self => exact ⟨fun ht => ht.elim nofun nofun, nofun⟩
      | element hv hw => exact h _ hv w hw
  map {id entries} _ h w hw := by
    cases hw with
    | self => exact ⟨fun ht => ht.elim nofun nofun, nofun⟩
    | key he hw => exact (h _ he).1 w hw
    | value he hw => exact (h _ he).2 w hw
  entry h e he := ⟨fun w hw => h w (.key he hw), fun w hw => h w (.value he hw)⟩
  returned h := absurd (.inl rfl) (h _ (.self _)).1
  error h := absurd (.inr rfl) (h _ (.self _)).1
  part {n m} h hm :=
    ⟨h.2 n (.self n) h.1 m hm, h.2.child (Node.mem_children_of_mem_needed hm)⟩
  alternative {c t e} h he := ⟨he, h.2.child (by simp [Node.children])⟩
  absent h := h.1 rfl

/-! ## The wording of a missing node -/

theorem take_eq_of_append_eq {a b x y : String} (k : Nat) (ha : k ≤ a.toList.length)
    (hb : k ≤ b.toList.length) (h : a ++ x = b ++ y) : a.toList.take k = b.toList.take k := by
  have htake := congrArg (fun t : String => t.toList.take k) h
  simpa only [String.toList_append, List.take_append_of_le_length ha,
    List.take_append_of_le_length hb] using htake

/-- The text tells of a missing node. -/
def TellsOfMissingNode (text : String) : Prop := ∃ form, text = "unknown node type: " ++ form

theorem not_tellsOfMissingNode {text rest : String} (hlength : 9 ≤ text.toList.length)
    (h : text.toList.take 9 ≠ "unknown n".toList) : ¬ TellsOfMissingNode (text ++ rest) := by
  rintro ⟨form, hform⟩
  exact h (take_eq_of_append_eq 9 hlength (by decide +kernel) hform)

/-- Only a missing node is worded so, and what a native function may answer with. -/
theorem EvalError.eq_of_message {e : EvalError} (h : TellsOfMissingNode e.message) :
    (∃ form, e = .unknownNode form) ∨ ∃ message, e = .reported message := by
  rw [← String.append_empty (s := e.message)] at h
  cases e with
  | unknownNode form => exact .inl ⟨form, rfl⟩
  | reported message => exact .inr ⟨message, rfl⟩
  | _ =>
    unfold message at h
    simp only [String.append_assoc] at h
    exact absurd h (not_tellsOfMissingNode (by decide +kernel) (by decide +kernel))

/-! ## Programs -/

/-- The error is not that of a missing node. -/
def Value.TellsOther (v : Value) : Prop :=
  ∀ id message, v = .error id message → ¬ TellsOfMissingNode message

theorem safe_newError {message : String} (h : ¬ TellsOfMissingNode message) :
    completeGuard.Safe Value.TellsOther (newError message) := by
  refine Keeps.bind safe_freshId fun id _ => Keeps.pure ?_
  intro _ _ heq
  cases heq
  exact h

/-- **The run of a program that lacks nothing** never tells of a missing node. -/
theorem runWithin_complete {cfg : Config} (hn : cfg.natives.Safe completeGuard) (limit : Nat)
    {program : Node Unit} (hprogram : completeGuard.Tree program) (scope : Nat) :
    completeGuard.Safe Value.TellsOther (runWithin cfg limit program scope) := by
  have heval : completeGuard.Safe Value.TellsOther (eval cfg limit program scope) := by
    refine Keeps.mono (eval_safe hn limit program scope hprogram) fun v hv id message hv' => ?_
    subst hv'
    exact (completeGuard.error hv).elim
  refine Keeps.bind (safe_note cfg 1 _) fun _ _ => ?_
  refine Keeps.bind (Keeps.tryCatch heval fun stop hstop => ?_) fun v hv =>
    Keeps.bind (safe_note cfg 1 _) fun _ _ => Keeps.pure hv
  split
  · refine safe_newError fun hmessage => ?_
    -- neither of the two errors that are worded so can have stopped the evaluation
    rcases EvalError.eq_of_message hmessage with ⟨form, rfl⟩ | ⟨message, rfl⟩
    · exact hstop
    · exact hstop
  · refine safe_newError ?_
    rw [← String.append_empty (s := "maximum recursion depth exceeded")]
    exact not_tellsOfMissingNode (by decide +kernel) (by decide +kernel)
  · exact Keeps.throw hstop

open Parse

/-- **Programs lack nothing.** Let a program be read from a text, with or without problems. All its nodes
have the parts that they need, an `else` branch alone may be missing, and what they are written with
makes sense: names are words but no keywords, operators are those of the language, numbers are words
that are not negative, and there is no quote in a string. A statement never makes problems forgotten,
and one that is given up adds a problem, be it at the top or in a block at any depth; so where there
are no problems the tokens of the text write down the statements that were read, and none was dropped.
Evaluated in a fresh store, the program never meets a missing node, and its run never tells of one. -/
theorem programs_lack_nothing (source : String) :
    (∀ n : Node Token, n.Occurs (parseSource source).program → n ≠ .absent →
      (∀ m ∈ n.needed, m ≠ .absent) ∧ n.Proper) ∧
    (∀ (depth : Nat) (s s' : State) (outcome : Except Halt (Node Token)),
      statement (expression depth) s = (outcome, s') →
        s.KeptBy s' ∧ (outcome = .error .rejected → s.Reported s')) ∧
    ((parseSource source).problems = [] →
      Yields (.statements (parseSource source).body) (upToEnd (scan source))) ∧
    ∀ (level limit : Nat) (logging : Bool),
      let cfg : Config := { logLevel := level }
      let program := (parseSource source).program.strip
      let s := Store.start logging
      (∀ form, (eval cfg limit program globalScope s).1 ≠ .error (.failed (.unknownNode form))) ∧
      ∀ id form, (runWithin cfg limit program globalScope s).1 ≠
        .ok (.error id ("unknown node type: " ++ form)) := by
  have hbuilt := built_parseSource source
  refine ⟨fun n hn hne => ?_, fun depth s s' outcome h => ?_, fun h => yields_upToEnd h,
    fun level limit logging => ?_⟩
  · have hn := hbuilt.occurs hn hne
    exact ⟨fun m hm => (hn.part hm).ne_absent, hn.proper⟩
  · have hreports := reports_statement depth
    refine ⟨?_, fun hrejected => hreports.rejected s s' (hrejected ▸ h)⟩
    have hkept := hreports.kept s
    rwa [h] at hkept
  · intro cfg program s
    have hn : cfg.natives.Safe completeGuard := standard_safe
    have hs : completeGuard.Ok s := fun v hv => absurd hv (holds_start logging v)
    have htree : completeGuard.Tree program := ⟨nofun, hbuilt.complete.strip⟩
    refine ⟨fun form h => ?_, fun id form h => ?_⟩
    · exact ((eval_safe hn limit _ globalScope htree).of_error hs (Prod.ext h rfl)).2
    · have hother := (runWithin_complete hn limit htree globalScope).of_ok hs (Prod.ext h rfl)
      exact hother.2 id _ rfl ⟨form, rfl⟩

end SepiaLang
