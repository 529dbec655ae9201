import SepiaLang.Proofs.Discipline
import SepiaLang.Proofs.Parse.Built
import SepiaLang.Session

/-!
# Integers stay words

Every integer that occurs while programs run is a word: literals are read only if they are, every
operation brings its result back into range, and lengths are words as long as nothing is longer than
the largest word.

* `Node.HasLiteral`: the integers written in a tree. `literal_parseSource`: they are words.
* `Value.Words`, `Store.Words`: every integer is a word, in a value and in a store.
* `wordRange`: the discipline.
* `sourceTask`, `runSource`, `storeAfter`: one program after the other.
* **`integers_stay_words`**: at every moment of the runs of several programs.
-/

namespace SepiaLang

/-! ## Literals -/

/-- The integer is written in the tree, perhaps in the body of a function. -/
inductive Node.HasLiteral {α : Type} (k : Int) : Node α → Prop
  | here {note : α} : HasLiteral k (.integer note k)
  | inside {n m : Node α} (hm : m ∈ n.children) (h : HasLiteral k m) : HasLiteral k n

theorem Node.HasLiteral.of_strip {α : Type} {k : Int} {n : Node α} (h : n.strip.HasLiteral k) :
    n.HasLiteral k := by
  generalize hn : n.strip = m at h
  induction h generalizing n with
  | here =>
    cases n with
    | integer note j =>
      cases hn
      exact .here
    | _ => cases hn
  | inside hm _ ih =>
    rw [← hn, Node.strip, Node.children_mapNotes] at hm
    obtain ⟨c, hc, rfl⟩ := List.mem_map.1 hm
    exact .inside hc (ih rfl)

namespace Parse

/-- An integer in a tree is what is read from a token. -/
theorem Built.literal {P : Token → Prop} {n : Node Token} {k : Int} (hn : Built P n)
    (h : n.HasLiteral k) :
    ∃ t : Token, P t ∧ t.kind = .int ∧ Text.readInt t.literal = .ok k ∧ k ≤ Word64.greatest := by
  induction h with
  | here =>
    cases hn with
    | integer ht hk hread hle => exact ⟨_, ht, hk, hread, hle⟩
  | @inside n m hm h ih =>
    have hne : m ≠ .absent := by
      rintro rfl
      cases h with
      | inside hm _ => cases hm
    exact ih (hn.child hm hne)

end Parse

/-- **The integers in the program of a text are words**, and none is negative. -/
theorem literal_parseSource {source : String} {k : Int}
    (h : (parseSource source).program.strip.HasLiteral k) : 0 ≤ k ∧ k ≤ Word64.greatest := by
  obtain ⟨t, hlexed, hkind, hread, hle⟩ := (Parse.built_parseSource source).literal h.of_strip
  exact ⟨hlexed.nonneg hkind hread, hle⟩

/-! ## Values and stores -/

/-- The integers written in the tree are words. -/
def Node.Words (n : Node Unit) : Prop := ∀ k, n.HasLiteral k → Word64.InRange k

/-- The integers in the value are words, also those written in the bodies of functions. -/
def Value.Words (v : Value) : Prop := v.Within Word64.InRange fun body _ => body.Words

/-- The integers that the store holds are words, also those written in the bodies of functions. -/
def Store.Words (s : Store) : Prop := ∀ v : Value, s.Holds v → v.Words

theorem Store.Words.of_scopes {s s' : Store} (h : s.Words) (hs : s'.scopes = s.scopes) : s'.Words :=
  fun v hv => h v ((Store.holds_congr hs v).1 hv)

theorem Store.Words.set {s : Store} (h : s.Words) {v : Value} (hv : v.Words) (i : Nat) (x : String) :
    ({ s with scopes := s.scopes.set i x v } : Store).Words :=
  fun w hw => (Store.holds_set hw).elim (fun hw => hv.part hw) (h w)

/-- The length of the value, if it has one, is a word. -/
def Value.Short (v : Value) : Prop := ∀ k : Nat, v.size? = some k → k < 2 ^ 63

/-- Only words occur. -/
def wordRange : Discipline where
  Ok := Store.Words
  Leads _ _ := True
  Open _ _ := True
  Word := Word64.InRange
  Closure _ body _ := body.Words
  Tree _ n := n.Words
  Binds _ _ := True
  refl _ := trivial
  trans _ _ := trivial
  open_mono _ _ := trivial
  closure_mono _ h := h
  of_scopes hs h := ⟨hs.of_scopes h, trivial⟩
  get? {s i x v} hs _ h := hs v (Store.holds_of_get? h (.self v))
  set hs _ _ hv := ⟨hs.set hv _ _, trivial⟩
  update? hs _ hv h := by
    obtain ⟨j, -, rfl⟩ := Option.map_eq_some_iff.1 h
    exact ⟨hs.set hv j _, trivial⟩
  enter hs h := ⟨⟨fun v hv => hs v (Store.holds_addScope hv), trivial⟩, trivial, h, fun _ => trivial⟩
  function _ _ h k hk := h k (.inside List.mem_cons_self hk)
  part {i n m} h hm k hk := by
    have hchild : m ∈ n.children := by
      cases n with
      | function => cases hm
      | _ => exact hm
    exact h k (.inside hchild hk)
  valueStmt _ := trivial
  integer h := h _ .here
  wrap := Word64.inRange_wrap

theorem respects_wordRange {natives : Registry} (hn : natives = standard ∨ natives.Confined) :
    natives.Respects wordRange Value.Short := by
  refine (confined_of_standard_or hn).respects fun v k hv hk => ?_
  have hlt := hv k hk
  change Word64.least ≤ (k : Int) ∧ (k : Int) ≤ Word64.greatest
  unfold Word64.least Word64.greatest
  omega

/-! ## One program after the other -/

theorem calm_readSource {scopes : Scopes} (cfg : Config) (source : String) :
    Calm scopes (fun _ => True) (readSource cfg source) := by
  refine Computation.Keeps.bind (Computation.Keeps.forM (fun _ => calm_note cfg 4 _) _) fun _ _ => ?_
  exact Computation.Keeps.bind (calm_note cfg 1 _) fun _ _ => Computation.Keeps.pure trivial

section Runs

variable (cfg : Config) (limit scope : Nat)

/-- The evaluation of the program of a text, once it is read. -/
def sourceTask (s : Store) (source : String) : Task :=
  ⟨limit, (parseSource source).program.strip, scope,
    (note cfg 1 .running (readSource cfg source s).2).2⟩

/-- Reads the program of a text and runs it. -/
def runSource (s : Store) (source : String) : Except Stop Value × Store :=
  runWithin cfg limit (parseSource source).program.strip scope (readSource cfg source s).2

/-- The store after the runs of several programs, one after the other. -/
def storeAfter (s : Store) (sources : List String) : Store :=
  sources.foldl (fun s source => (runSource cfg limit scope s source).2) s

variable {cfg} {limit scope} {s : Store}

theorem Store.Words.readSource (hs : s.Words) (source : String) :
    (SepiaLang.readSource cfg source s).2.Words :=
  hs.of_scopes (calm_readSource cfg source s rfl).1

theorem Store.Words.sourceTask (hs : s.Words) (source : String) :
    (SepiaLang.sourceTask cfg limit scope s source).Ready wordRange := by
  refine ⟨?_, trivial, fun k hk => ?_⟩
  · exact (hs.readSource source).of_scopes (calm_note cfg 1 .running _ rfl).1
  · obtain ⟨hnonneg, hle⟩ := literal_parseSource hk
    have hleast : Word64.least ≤ 0 := by decide
    exact ⟨Int.le_trans hleast hnonneg, hle⟩

variable (hn : cfg.natives = standard ∨ cfg.natives.Confined)
include hn

/-- An evaluation that may be made leaves words only, and so does every one on its way. -/
theorem Task.Ready.words {t t' : Task} (ht : t.Ready wordRange) (huses : t.Uses cfg Value.Short)
    (h : t.Reaches cfg t') : t'.store.Words ∧ (t'.result cfg).2.Words ∧
      ∀ v, carried? (t'.result cfg).1 = some v → v.Words := by
  have hn := respects_wordRange hn
  have ht' := h.ready hn huses ht
  have hrespects := respectsAt hn t'.depth t'.tree t'.scope t'.store (h.uses huses) ht'.2.1 ht'.2.2
  obtain ⟨hnext, hcarried⟩ := hrespects.carried ht'.1
  exact ⟨ht'.1, hnext.1, hcarried⟩

/-- The run of one program leaves words only. -/
theorem Store.Words.runSource (hs : s.Words) {source : String}
    (huses : (SepiaLang.sourceTask cfg limit scope s source).Uses cfg Value.Short) :
    (SepiaLang.runSource cfg limit scope s source).2.Words ∧
      ∀ v, carried? (SepiaLang.runSource cfg limit scope s source).1 = some v → v.Words := by
  have ht : (SepiaLang.sourceTask cfg limit scope s source).Ready wordRange := hs.sourceTask source
  have heval := respectsAt (respects_wordRange hn) limit _ scope _ huses ht.2.1 ht.2.2
  obtain ⟨hnext, hcarried⟩ := (respects_runWithin heval).carried (hs.readSource source)
  exact ⟨hnext.1, hcarried⟩

/-- So do the runs of several programs. -/
theorem Store.Words.storeAfter (hs : s.Words) {sources : List String}
    (huses : ∀ before source after, sources = before ++ source :: after →
      (SepiaLang.sourceTask cfg limit scope (SepiaLang.storeAfter cfg limit scope s before)
        source).Uses cfg Value.Short) : (SepiaLang.storeAfter cfg limit scope s sources).Words := by
  induction sources generalizing s with
  | nil => exact hs
  | cons source sources ih =>
    refine ih (hs.runSource hn (huses [] source sources rfl)).1 fun before source' after heq => ?_
    exact huses (source :: before) source' after (congrArg (source :: ·) heq)

end Runs

/-- **Integers stay words.** Let programs be read from texts and run in a scope, one after the other,
where every integer in the store at first is a word, also those written in the bodies of functions.
As long as the values that are used are no longer than the largest word, all integers are words: at
every moment of every run, in the store and in the value of each evaluation, be it an operand, an
argument, a key or a result; and in what each run leaves and gives as its result. -/
theorem integers_stay_words (cfg : Config) (hn : cfg.natives = standard ∨ cfg.natives.Confined)
    (limit scope : Nat) (s : Store) (hs : s.Words) (sources : List String)
    (hshort : ∀ before source after, sources = before ++ source :: after →
      (sourceTask cfg limit scope (storeAfter cfg limit scope s before) source).Uses cfg Value.Short) :
    ∀ before source after, sources = before ++ source :: after →
      let s₁ := storeAfter cfg limit scope s before
      (∀ t, (sourceTask cfg limit scope s₁ source).Reaches cfg t →
        t.store.Words ∧ (t.result cfg).2.Words ∧ ∀ v, carried? (t.result cfg).1 = some v → v.Words) ∧
      (runSource cfg limit scope s₁ source).2.Words ∧
      ∀ v, carried? (runSource cfg limit scope s₁ source).1 = some v → v.Words := by
  rintro before source after rfl s₁
  have hs₁ : s₁.Words := by
    refine hs.storeAfter hn ?_
    rintro before' source' after' rfl
    refine hshort before' source' (after' ++ source :: after) ?_
    rw [List.append_assoc, List.cons_append]
  have huses := hshort before source after rfl
  exact ⟨fun t ht => (hs₁.sourceTask source).words hn huses ht, hs₁.runSource hn huses⟩

/-- The nodes are evaluated one after the other, and the values that are used on their way are short. -/
def UsesShort (cfg : Config) (depth i : Nat) : List (Node Unit) → Store → Prop
  | [], _ => True
  | n :: ns, s => Task.Uses cfg Value.Short ⟨depth, n, i, s⟩ ∧
      UsesShort cfg depth i ns (eval cfg depth n i s).2

theorem Passes.usesShort {cfg : Config} {depth i : Nat} {before after : List (Node Unit)} {m : Node Unit}
    {s s' : Store} (hpass : Passes (eval cfg depth) i before s s')
    (h : UsesShort cfg depth i (before ++ m :: after) s) :
    Task.Uses cfg Value.Short ⟨depth, m, i, s'⟩ := by
  induction hpass with
  | nil => exact h.1
  | cons hn _ _ ih =>
    refine ih ?_
    have hrest := h.2
    rwa [hn] at hrest

/-- What is used on the way of a node that neither branches nor calls is used by its parts. -/
theorem Task.Uses.of_parts {cfg : Config} {depth i : Nat} {n : Node Unit} {s : Store}
    (hbranch : ∀ c t e, n ≠ .conditional () c t e) (hcall : ∀ f args, n ≠ .call () f args)
    (hused : (Task.used? cfg ⟨depth + 1, n, i, s⟩).bind Value.size? = none)
    (hparts : UsesShort cfg depth i n.parts s) : Task.Uses cfg Value.Short ⟨depth + 1, n, i, s⟩ := by
  intro t' h
  cases h with
  | refl =>
    intro v hv k hk
    rw [hv, Option.bind_some, hk] at hused
    cases hused
  | step hstarts ht' =>
    cases hstarts with
    | part hn hpass =>
      rw [hn] at hparts
      exact hpass.usesShort hparts t' ht'
    | branch => exact absurd rfl (hbranch _ _ _)
    | body => exact absurd rfl (hcall _ _)

theorem readSource_quiet (source : String) (s : Store) :
    readSource {} source s = (.ok (parseSource source), s) := by
  have hlines (lines : List TraceLine) :
      (lines.forM fun line => note {} 4 (.traced line) : Run Unit) s = (.ok (), s) := by
    induction lines with
    | nil => rfl
    | cons line lines ih => exact ih
  unfold readSource
  rw [Computation.bind_of_ok (hlines _)]
  rfl

theorem readSource_of_quiet (source : String) (s : Store) : (readSource {} source s).2 = s :=
  congrArg Prod.snd (readSource_quiet source s)

/-- The largest word plus one is the smallest word, and that minus one is the largest word again, in a
program that is run after the other one. -/
theorem integers_stay_words_overflow :
    let first := "value x = 9223372036854775807 + 1;"
    let second := "x - 1;"
    let s := Store.start false
    let s₁ := storeAfter {} 4 0 s [first]
    s.Words ∧ (sourceTask {} 4 0 s first).Uses {} Value.Short ∧
      (sourceTask {} 4 0 s₁ second).Uses {} Value.Short ∧
      s₁.scopes.get? 0 "x" = some (.integer Word64.least) ∧ s₁.Words ∧
      carried? (runSource {} 4 0 s₁ second).1 = some (.integer Word64.greatest) ∧
      (runSource {} 4 0 s₁ second).2.Words := by
  have hfirst : (parseSource "value x = 9223372036854775807 + 1;").program.strip =
      .program [.valueStmt () ⟨"x", ()⟩ (.binary () "+" (.integer () Word64.greatest) (.integer () 1))] := by
    with_unfolding_all rfl
  have hsecond : (parseSource "x - 1;").program.strip =
      .program [.expressionStmt () (.binary () "-" (.identifier () "x") (.integer () 1))] := by
    with_unfolding_all rfl
  intro first second s s₁
  have hs : s.Words := fun v hv => absurd hv (holds_start false v)
  have hs₁ : s₁ = { s with scopes := #[{ bindings := [("x", .integer Word64.least)] }] } := by
    change (runSource {} 4 0 s first).2 = _
    rw [runSource, hfirst, readSource_of_quiet]
    with_unfolding_all rfl
  have huses₁ : (sourceTask {} 4 0 s first).Uses {} Value.Short := by
    rw [sourceTask, hfirst, readSource_of_quiet]
    refine .of_parts nofun nofun ?_ ⟨.of_parts nofun nofun ?_ ⟨.of_parts nofun nofun ?_
      ⟨.of_parts nofun nofun ?_ trivial, .of_parts nofun nofun ?_ trivial, trivial⟩, trivial⟩, trivial⟩
    all_goals with_unfolding_all rfl
  have huses₂ : (sourceTask {} 4 0 s₁ second).Uses {} Value.Short := by
    rw [sourceTask, hsecond, readSource_of_quiet, hs₁]
    refine .of_parts nofun nofun ?_ ⟨.of_parts nofun nofun ?_ ⟨.of_parts nofun nofun ?_
      ⟨.of_parts nofun nofun ?_ trivial, .of_parts nofun nofun ?_ trivial, trivial⟩, trivial⟩, trivial⟩
    all_goals with_unfolding_all rfl
  have hmain := integers_stay_words {} (Or.inl rfl) 4 0 s hs [first, second] (by
    intro before source after h
    match before, h with
    | [], h => cases h; exact huses₁
    | [_], h => cases h; exact huses₂
    | _ :: _ :: before, h => cases before <;> cases h)
  have hrun : runSource {} 4 0 s₁ second = (.ok (.integer Word64.greatest), s₁) := by
    rw [runSource, hsecond, readSource_of_quiet, hs₁]
    with_unfolding_all rfl
  refine ⟨hs, huses₁, huses₂, ?_, (hmain [] first [second] rfl).2.1, ?_, (hmain [first] second [] rfl).2.1⟩
  · rw [hs₁]
    with_unfolding_all rfl
  · rw [hrun]
    rfl

end SepiaLang
