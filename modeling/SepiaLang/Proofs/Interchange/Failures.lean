import SepiaLang.Proofs.Dump

/-!
# What decoding fails with

The command takes care of three classes of failures while it loads a tree. Whatever is wrong with a JSON
value, the decoder fails with one of them, but for a number that is asked to be an integer and is infinite.

* `Failure`, `DecodeError.failure`: the classes of failures.
* `Json.Holds`: there is such a value somewhere inside.
* `Json.InfiniteLiteral`: an integer literal whose number is infinite.
* `Decode.settles_node`: what comes of decoding a value.
* **`decoding_reported`**: a value without such a literal stands for a tree, or the command reports why not.
-/

namespace SepiaLang

/-! ## Classes of failures -/

/-- The classes of failures that the decoder has: something is of another sort than is needed, or of
the right sort but cannot be taken, a field is missing, or a number is too large to be turned into
another one. -/
inductive Failure where
  | type
  | value
  | key
  | overflow
  deriving DecidableEq, Repr

/-- The command takes care of failures of this class while it loads a tree. -/
def Failure.handled : Failure → Bool
  | type | value | key => true
  | overflow => false

/-- The class of a failure. -/
def DecodeError.failure : DecodeError → Failure
  | notObject | notList _ | notPair _ | notNumber _ => .type
  | missing _ => .key
  | unknownForm _ | tooFew _ | tooMany | badNumeral _ | longInteger _ | nanInteger => .value
  | infiniteInteger => .overflow

theorem Command.isReported_eq (e : DecodeError) : isReported e = e.failure.handled := by cases e <;> rfl

/-! ## Values inside values -/

namespace Json

/-- The value or one inside it, at any depth, has the property. -/
inductive Holds (P : Json → Prop) : Json → Prop
  | here {j : Json} (h : P j) : Holds P j
  | item {j : Json} {items : List Json} (hmem : j ∈ items) (h : Holds P j) : Holds P (.array items)
  | field {name : String} {j : Json} {fields : List (String × Json)} (hmem : (name, j) ∈ fields)
      (h : Holds P j) : Holds P (.object fields)

/-- A node that is an integer literal with an infinity for its value. -/
def InfiniteLiteral (j : Json) : Prop :=
  ∃ fields negative, j = .object fields ∧ Decode.formOf fields = .string "IntegerLiteral" ∧
    (Decode.field? "value" fields).map (·.val) = some (.float (.infinite negative))

end Json

namespace Decode

open Json

variable {α β : Type} {P Q : Prop} {V : α → Prop} {W : β → Prop}

/-! ## Results -/

/-- What comes of decoding: something with the property `V`, a failure that the command takes care of, or
another one, of which `P` is the reason. -/
def Fate (P : Prop) (V : α → Prop) : Result α → Prop
  | .ok a => V a
  | .error e => e.failure.handled = true ∨ P

namespace Fate

variable {r : Result α}

theorem mono (h : Fate P V r) (hP : P → Q) : Fate Q (fun _ => True) r := by
  cases r with
  | ok a => trivial
  | error e => exact Or.imp_right hP h

theorem bind {f : α → Result β} (h : Fate P V r) (hf : ∀ a, r = .ok a → V a → Fate P W (f a)) :
    Fate P W (r >>= f) := by
  cases r with
  | ok a => exact hf a rfl h
  | error e => exact h

theorem of_ok {a : α} (h : V a) : Fate P V (.ok a) := h

theorem of_error {e : DecodeError} (h : e.failure.handled = true) : Fate P V (.error e) := .inl h

end Fate

theorem mem_of_field? {name : String} : ∀ {fields : List (String × Json)} {f : Field fields},
    field? name fields = some f → (name, f.val) ∈ fields
  | (key, value) :: rest, f, h => by
    rw [field?] at h
    split at h
    next hkey =>
      cases h
      rw [hkey]
      exact List.mem_cons_self
    next =>
      obtain ⟨g, hg, rfl⟩ := Option.map_eq_some_iff.1 h
      exact List.mem_cons_of_mem _ (mem_of_field? hg)

/-- A field that is there is one of the fields, and one that is not there is a failure. -/
theorem fate_field (name : String) (fields : List (String × Json)) :
    Fate P (fun f => field? name fields = some f) (field name fields) := by
  rw [field]
  cases hf : field? name fields with
  | some f => exact rfl
  | none => exact .of_error rfl

theorem fate_text (name : String) (fields : List (String × Json)) :
    Fate P (fun _ => True) (text name fields) := by
  have h := fate_field (P := P) name fields
  rw [text]
  cases hf : field name fields with
  | ok f => trivial
  | error e => rw [hf] at h; exact h

theorem fate_parameters (j : Json) : Fate P (fun _ => True) (parameters j) := by
  cases j <;> first | trivial | exact .of_error rfl

/-- Only an infinity makes the reading of an integer fail in a way that the command does not take care of. -/
theorem fate_integer (j : Json) :
    Fate (∃ negative, j = .float (.infinite negative)) (fun _ => True) (integer j) := by
  cases j with
  | null => exact .of_error rfl
  | bool b => trivial
  | int n => trivial
  | float x =>
    cases x with
    | finite => trivial
    | infinite negative => exact .inr ⟨negative, rfl⟩
    | nan => exact .of_error rfl
  | string s =>
    rw [integer]
    split
    · trivial
    · exact .of_error rfl
    · exact .of_error rfl
  | array items => exact .of_error rfl
  | object fields => exact .of_error rfl

theorem handled_textPair (parts : Nat) : (textPair parts).failure.handled = true := by
  rw [textPair]
  split
  · rfl
  · split <;> rfl

/-! ## Nodes -/

/-- A part that is found in a field of an object. -/
theorem Fate.inside {r : Result α} {fields : List (String × Json)} {name : String} {f : Field fields}
    (h : Fate (f.val.Holds InfiniteLiteral) V r) (hf : field? name fields = some f) :
    Fate ((Json.object fields).Holds InfiniteLiteral) (fun _ => True) r :=
  h.mono (.field (mem_of_field? hf))

/-- Only `null` is no node. -/
def IsNodeOf (j : Json) (n : Node Unit Json) : Prop := n = .absent ↔ j = .null

/-- What comes of decoding a value as a whole: an integer literal with an infinity inside is the reason for
all failures that the command does not take care of. -/
abbrev Settles (j : Json) (r : Result (Node Unit Json)) : Prop := Fate (j.Holds InfiniteLiteral) (IsNodeOf j) r

mutual

/-- **What comes of decoding a value**: a tree, or a failure of a class that the command takes care of, or
there is an integer literal with an infinity in the value. -/
theorem settles_node : ∀ j : Json, Settles j (node j)
  | .null => by
    rw [node]
    exact iff_of_true rfl rfl
  | .object fields => by
    -- the fields that the sorts of nodes are made of, each with what is made of it
    have hnode (name : String) {k : Node Unit Json → Result (Node Unit Json)}
        (hk : ∀ n, Settles (.object fields) (k n)) :
        Settles (.object fields) (do let f ← field name fields; let n ← node f.1; k n) :=
      (fate_field name fields).bind fun f _ hf => ((settles_node f.1).inside hf).bind fun n _ _ => hk n
    have hnodes (name : String) {k : List (Node Unit Json) → Result (Node Unit Json)}
        (hk : ∀ ns, Settles (.object fields) (k ns)) :
        Settles (.object fields) (do let f ← field name fields; let ns ← nodes f.1; k ns) :=
      (fate_field name fields).bind fun f _ hf => ((fate_nodes f.1).inside hf).bind fun ns _ _ => hk ns
    have htext (name : String) {k : Json → Result (Node Unit Json)}
        (hk : ∀ s, Settles (.object fields) (k s)) :
        Settles (.object fields) (do let s ← text name fields; k s) :=
      (fate_text name fields).bind fun s _ _ => hk s
    have hdone {n : Node Unit Json} (h : n ≠ .absent) : Settles (.object fields) (pure n) :=
      .of_ok (iff_of_false h nofun)
    rw [node]
    split
    case h_1 | h_6 | h_16 => exact hnodes _ fun _ => hdone nofun
    case h_2 | h_5 => exact hnode _ fun _ => hdone nofun
    case h_3 | h_4 | h_11 => exact htext _ fun _ => hnode _ fun _ => hdone nofun
    case h_7 hform =>
      refine (fate_field _ fields).bind fun f _ hf => ?_
      refine ((fate_integer f.1).mono fun ⟨negative, hf'⟩ => .here ?_).bind fun _ _ _ => hdone nofun
      exact ⟨fields, negative, rfl, hform, by rw [hf, ← hf']; rfl⟩
    case h_8 => exact (fate_field _ fields).bind fun _ _ _ => hdone nofun
    case h_9 | h_10 => exact htext _ fun _ => hdone nofun
    case h_12 => exact htext _ fun _ => hnode _ fun _ => hnode _ fun _ => hdone nofun
    case h_13 =>
      refine hnode _ fun _ => hnode _ fun _ => ?_
      split
      next j h hf => exact ((settles_node j).inside (f := ⟨j, h⟩) hf).bind fun _ _ _ => hdone nofun
      next => exact hdone nofun
    case h_14 =>
      refine (fate_field _ fields).bind fun f _ _ => (fate_parameters f.1).bind fun _ _ _ => ?_
      exact hnode _ fun _ => hdone nofun
    case h_15 => exact hnode _ fun _ => hnodes _ fun _ => hdone nofun
    case h_17 => exact hnode _ fun _ => hnode _ fun _ => hdone nofun
    case h_18 =>
      exact (fate_field _ fields).bind fun f _ hf => ((fate_pairs f.1).inside hf).bind fun _ _ _ => hdone nofun
    case h_19 => exact .of_error rfl
  | .bool _ | .int _ | .float _ | .string _ | .array _ => by
    simp only [node]
    exact .of_error rfl

theorem fate_nodes : ∀ j : Json, Fate (j.Holds InfiniteLiteral) (fun _ => True) (nodes j)
  | .array items => by
    rw [nodes]
    exact (fate_nodesOf items).mono fun ⟨_, hmem, h⟩ => .item hmem h
  | .string s => by
    rw [nodes]
    split
    · trivial
    · exact .of_error rfl
  | .object fields => by
    rw [nodes]
    split
    · trivial
    · exact .of_error rfl
  | .null | .bool _ | .int _ | .float _ => by
    simp only [nodes]
    exact .of_error rfl

theorem fate_nodesOf : ∀ items : List Json,
    Fate (∃ j ∈ items, j.Holds InfiniteLiteral) (fun _ => True) (nodesOf items)
  | [] => by
    rw [nodesOf]
    trivial
  | j :: rest => by
    rw [nodesOf]
    refine ((settles_node j).mono fun h => ⟨j, List.mem_cons_self, h⟩).bind fun _ _ _ => ?_
    refine ((fate_nodesOf rest).mono fun ⟨j', hmem, h⟩ => ⟨j', .tail _ hmem, h⟩).bind fun _ _ _ => ?_
    trivial

theorem fate_pairs : ∀ j : Json, Fate (j.Holds InfiniteLiteral) (fun _ => True) (pairs j)
  | .array items => by
    rw [pairs]
    exact (fate_pairsOf items).mono fun ⟨_, hmem, h⟩ => .item hmem h
  | .string s => by
    rw [pairs]
    split
    · trivial
    · exact .of_error (handled_textPair _)
  | .object [] => by
    rw [pairs]
    trivial
  | .object (_ :: _) => by
    rw [pairs]
    exact .of_error (handled_textPair _)
  | .null | .bool _ | .int _ | .float _ => by
    simp only [pairs]
    exact .of_error rfl

theorem fate_pairsOf : ∀ items : List Json,
    Fate (∃ j ∈ items, j.Holds InfiniteLiteral) (fun _ => True) (pairsOf items)
  | [] => by
    rw [pairsOf]
    trivial
  | j :: rest => by
    rw [pairsOf]
    refine ((fate_pair j).mono fun h => ⟨j, List.mem_cons_self, h⟩).bind fun _ _ _ => ?_
    refine ((fate_pairsOf rest).mono fun ⟨j', hmem, h⟩ => ⟨j', .tail _ hmem, h⟩).bind fun _ _ _ => ?_
    trivial

theorem fate_pair : ∀ j : Json, Fate (j.Holds InfiniteLiteral) (fun _ => True) (pair j)
  | .array [k, v] => by
    rw [pair]
    refine ((settles_node k).mono (.item List.mem_cons_self)).bind fun _ _ _ => ?_
    refine ((settles_node v).mono (.item (List.mem_cons_of_mem _ List.mem_cons_self))).bind fun _ _ _ => ?_
    trivial
  | .array [] | .array [_] => by
    simp only [pair]
    exact .of_error rfl
  | .array (k :: v :: j :: items) => by
    simp only [pair]
    rw [if_neg (by simp)]
    exact .of_error rfl
  | .string s => by
    rw [pair]
    exact .of_error (handled_textPair _)
  | .object fields => by
    rw [pair]
    exact .of_error (handled_textPair _)
  | .null | .bool _ | .int _ | .float _ => by
    simp only [pair]
    exact .of_error rfl

end

/-- The same for trees with texts: no tree goes missing on the way. -/
theorem fate_ofJson (j : Json) :
    Fate (j.Holds InfiniteLiteral) (fun n => n = .absent ↔ j = .null) (Node.ofJson j) := by
  have hfate := settles_node j
  rw [Node.ofJson, Json.decode]
  cases hj : node j with
  | ok n =>
    rw [hj] at hfate
    have habsent : n.mapTexts Json.describe = .absent ↔ n = .absent := by cases n <;> simp [Node.mapTexts]
    exact habsent.trans hfate
  | error e =>
    rw [hj] at hfate
    exact hfate

end Decode

/-- **What is wrong with a tree is reported.** A JSON value in which no integer literal has an infinity for
its value stands for a tree, which is missing for `null` only, or decoding it fails in one of the ways that
the command takes care of. A file with such a value gives that tree, or the command ends with an error
message and the exit status 1. -/
theorem decoding_reported {j : Json} (hfinite : ¬ j.Holds Json.InfiniteLiteral) :
    ((∃ n, Node.ofJson j = .ok n ∧ (n = .absent ↔ j = .null)) ∨
      ∃ e, Node.ofJson j = .error e ∧ e.failure.handled = true) ∧
    ∀ (d : Directory) (file text : String), d.read file = .ok text → Json.read text.toList = .ok j →
      Command.loadTree d file = (Node.ofJson j).mapError fun e =>
        { status := .ok 1, stderr := "Error: invalid AST file " ++ file ++ ": " ++ e.message ++ "\n" } := by
  have hfate := Decode.fate_ofJson j
  cases hj : Node.ofJson j with
  | ok n =>
    rw [hj] at hfate
    refine ⟨.inl ⟨n, rfl, hfate⟩, fun d file text hread hjson => ?_⟩
    simp only [Command.loadTree, hread, hjson, hj]
    rfl
  | error e =>
    rw [hj] at hfate
    have hhandled : e.failure.handled = true := hfate.resolve_right hfinite
    refine ⟨.inr ⟨e, rfl, hhandled⟩, fun d file text hread hjson => ?_⟩
    simp only [Command.loadTree, hread, hjson, hj, Command.isReported_eq, hhandled, if_true, Except.mapError,
      Command.badTree, Command.exitWith, unlines]
    simp

/-- A return statement without a value. -/
theorem decoding_reported_missing :
    let text := "\x7b\"type\": \"ReturnStatement\"\x7d"
    let j := Json.object [("type", .string "ReturnStatement")]
    let d : Directory := [("a.json", Text.bytes text)]
    ¬ j.Holds Json.InfiniteLiteral ∧ Node.ofJson j = .error (.missing "value") ∧
      Command.loadTree d "a.json" =
        .error { status := .ok 1, stderr := "Error: invalid AST file a.json: 'value'\n" } := by
  intro text j d
  have hfinite : ¬ (Json.object [("type", .string "ReturnStatement")]).Holds Json.InfiniteLiteral := by
    intro h
    cases h with
    | here h =>
      obtain ⟨fields, _, hfields, hform, -⟩ := h
      cases hfields
      simp [Decode.formOf, Decode.field?] at hform
    | field hmem h =>
      obtain ⟨-, rfl⟩ := Prod.mk.inj (List.mem_singleton.1 hmem)
      cases h with
      | here h =>
        obtain ⟨_, _, hstring, -⟩ := h
        cases hstring
  have hread : d.read "a.json" = .ok text := by
    have hname : normalPath "a.json" = "a.json" := by decide +kernel
    have hwritten : Directory.read (Directory.write [] (normalPath "a.json") (Text.bytes text)) "a.json" =
        .ok text := Directory.read_write [] (by decide)
    rwa [hname] at hwritten
  have hjson : Json.read text.toList = .ok j := by
    change Json.read "\x7b\"type\": \"ReturnStatement\"\x7d".toList =
      .ok (.object [("type", .string "ReturnStatement")])
    rfl
  have hnode : Node.ofJson j = .error (.missing "value") := by with_unfolding_all rfl
  have hmessage : "Error: invalid AST file " ++ "a.json" ++ ": " ++ (DecodeError.missing "value").message ++ "\n" =
      "Error: invalid AST file a.json: 'value'\n" := by decide +kernel
  refine ⟨hfinite, hnode, ?_⟩
  rw [(decoding_reported hfinite).2 d "a.json" text hread hjson, hnode, Except.mapError, hmessage]

/-- An integer literal whose number is too large for a floating-point number. The command does not take care
of the failure and ends without a report. -/
theorem infinite_literal_unreported :
    let text := "\x7b\"type\":\"IntegerLiteral\",\"value\":1e999\x7d"
    let j := Json.object [("type", .string "IntegerLiteral"), ("value", .float (.infinite false))]
    let d : Directory := [("bad.json", Text.bytes text)]
    Json.read text.toList = .ok j ∧ Node.ofJson j = .error .infiniteInteger ∧
      DecodeError.infiniteInteger.failure.handled = false ∧
      Command.loadTree d "bad.json" = .error { status := .error (.decode .infiniteInteger) } := by
  intro text j d
  have hread : d.read "bad.json" = .ok text := by
    have hname : normalPath "bad.json" = "bad.json" := by decide +kernel
    have hwritten : Directory.read (Directory.write [] (normalPath "bad.json") (Text.bytes text)) "bad.json" =
        .ok text := Directory.read_write [] (by decide)
    rwa [hname] at hwritten
  have hjson : Json.read text.toList = .ok j := by
    change Json.read "\x7b\"type\":\"IntegerLiteral\",\"value\":1e999\x7d".toList =
      .ok (.object [("type", .string "IntegerLiteral"), ("value", .float (.infinite false))])
    rfl
  have hnode : Node.ofJson j = .error .infiniteInteger := by with_unfolding_all rfl
  refine ⟨hjson, hnode, rfl, ?_⟩
  simp only [Command.loadTree, hread, hjson, hnode]
  rfl

end SepiaLang
