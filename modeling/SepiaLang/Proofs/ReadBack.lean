import SepiaLang.Proofs.Arithmetic
import SepiaLang.Proofs.MapLiteral
import SepiaLang.Proofs.Parse.Canonical
import SepiaLang.Proofs.Parse.Refuse
import SepiaLang.Proofs.Pieces
import SepiaLang.Proofs.RunResult
import SepiaLang.Value.Same

/-!
# Data that is read back

The text of a value that is made of integers, booleans, arrays and maps is a program, a literal, and running
it gives the value back, apart from identities. There is one exception. A negative number is written as a
sign and a number, and without the sign the smallest word is too large to be read.

* `Value.Data`: the values in question.
* `Value.written`: the lexemes of the text of such a value, and the literal that they are read as.
  `Value.Data.chunk`, `Value.Data.accepts`, `Value.Data.refuses`: so they are.
* `Value.Twin`: values that differ only in identities. `Value.Data.remadeBy`: the literal makes a twin.
* `runText`: reads a text and runs it.
* **`data_read_back`**: the text of data is run.
-/

namespace SepiaLang

open Parse SepiaLang.Computation

namespace Value

/-! ## Data -/

/-- The value is made of words, booleans, arrays and maps. The keys of the maps are words and booleans, since
arrays and maps cannot be keys. -/
inductive Data : Value → Prop
  | integer {n : Int} (h : Word64.InRange n) : Data (.integer n)
  | boolean (b : Bool) : Data (.boolean b)
  | array (id : Nat) {elements : List Value} (h : ∀ v ∈ elements, Data v) : Data (.array id elements)
  | map (id : Nat) {entries : List (Entry Value)} (hkeyed : Keyed entries)
      (hkeys : ∀ e ∈ entries, Data e.key) (hvalues : ∀ e ∈ entries, Data e.value) : Data (.map id entries)

mutual

/-- The lexemes of the text of data, and the literal that they are read as. A negative number is a sign and
a number. -/
def written : Value → List Lexeme × Node Unit
  | integer n =>
    if 0 ≤ n then ([(.int, toString n)], .integer () n)
    else ([(.minus, "-"), (.int, toString (-n))], .unary () "-" (.integer () (-n)))
  | boolean b => ([if b then (.trueWord, "true") else (.falseWord, "false")], .boolean () b)
  | array _ elements =>
    let parts := writtenAll elements
    ((.lbracket, "[") :: (joined (parts.map Prod.fst) ++ [(.rbracket, "]")]),
      .array () (parts.map Prod.snd))
  | map _ entries =>
    let parts := writtenEntries entries
    ((.lbrace, "\x7b") :: (joined (parts.map entry) ++ [(.rbrace, "\x7d")]),
      .map () (parts.map fun p => (p.1.2, p.2.2)))
  | _ => ([], .absent)

/-- The same for several values. -/
def writtenAll : List Value → List (List Lexeme × Node Unit)
  | [] => []
  | v :: rest => v.written :: writtenAll rest

/-- The same for the entries of a map. -/
def writtenEntries : List (Entry Value) → List EntryLexemes
  | [] => []
  | ⟨_, k, v⟩ :: rest => (k.written, v.written) :: writtenEntries rest

end

/-- The literal that the text of data is read as. -/
def literal (v : Value) : Node Unit := v.written.2

/-- The same for the two parts of an entry. -/
def writtenEntry (e : Entry Value) : EntryLexemes := (e.key.written, e.value.written)

theorem writtenAll_eq_map (vs : List Value) : writtenAll vs = vs.map written := by
  induction vs with
  | nil => rfl
  | cons v vs ih => rw [writtenAll, ih, List.map_cons]

theorem writtenEntries_eq_map (es : List (Entry Value)) : writtenEntries es = es.map writtenEntry := by
  induction es with
  | nil => rfl
  | cons e es ih =>
    rw [writtenEntries, ih, List.map_cons]
    rfl

theorem inspectAll_eq_map (vs : List Value) : inspectAll vs = vs.map inspect := by
  induction vs with
  | nil => rfl
  | cons v vs ih => rw [inspectAll, ih, List.map_cons]

theorem inspectEntries_eq_map (es : List (Entry Value)) :
    inspectEntries es = es.map fun e => e.key.inspect ++ ": " ++ e.value.inspect := by
  induction es with
  | nil => rfl
  | cons e es ih => rw [inspectEntries, ih, List.map_cons]

section Written

variable {n : Int} {id depth : Nat} {vs : List Value} {es : List (Entry Value)}

theorem written_of_nonneg (h : 0 ≤ n) : (integer n).written = ([(.int, toString n)], .integer () n) := by
  rw [written, if_pos h]

theorem written_of_neg (h : n < 0) : (integer n).written =
    ([(.minus, "-"), (.int, toString (-n))], .unary () "-" (.integer () (-n))) := by
  rw [written, if_neg (Int.not_le.2 h)]

theorem written_array : (array id vs).written =
    ((.lbracket, "[") :: (joined ((vs.map written).map Prod.fst) ++ [(.rbracket, "]")]),
      .array () ((vs.map written).map Prod.snd)) := by
  rw [written, writtenAll_eq_map]

theorem written_map : (map id es).written =
    ((.lbrace, "\x7b") :: (joined ((es.map writtenEntry).map entry) ++ [(.rbrace, "\x7d")]),
      .map () ((es.map writtenEntry).map fun p => (p.1.2, p.2.2))) := by
  rw [written, writtenEntries_eq_map]

theorem literal_array : (array id vs).literal = .array () (vs.map literal) := by
  rw [literal, written_array]
  exact congrArg (Node.array ()) List.map_map

theorem literal_map : (map id es).literal = .map () (es.map fun e => (e.key.literal, e.value.literal)) := by
  rw [literal, written_map]
  exact congrArg (Node.map ()) List.map_map

theorem exists_depth {e : Node Unit} (h : e.fits depth = true) : ∃ d, depth = d + 1 :=
  Nat.exists_eq_succ_of_ne_zero (by rintro rfl; cases h)

/-- The elements of an array are nested one less. -/
theorem fits_of_array (h : (array id vs).literal.fits depth = true) :
    ∃ d, depth = d + 1 ∧ ∀ v ∈ vs, v.literal.fits d = true := by
  obtain ⟨d, rfl⟩ := exists_depth h
  rw [literal_array, Node.fits, Node.children, List.all_map, List.all_eq_true] at h
  exact ⟨d, rfl, h⟩

/-- So are the keys and values of a map. -/
theorem fits_of_map (h : (map id es).literal.fits depth = true) :
    ∃ d, depth = d + 1 ∧ ∀ e ∈ es, e.key.literal.fits d = true ∧ e.value.literal.fits d = true := by
  obtain ⟨d, rfl⟩ := exists_depth h
  rw [literal_map, Node.fits, Node.children, List.flatMap_map, List.all_flatMap, List.all_eq_true] at h
  exact ⟨d, rfl, fun e he => by simpa using h e he⟩

theorem partOf_integer {m : Int} : (integer n).PartOf (integer m) ↔ n = m := by
  constructor
  · rintro ⟨⟩
    rfl
  · rintro rfl
    exact .self _

theorem not_partOf_boolean {b : Bool} : ¬(integer n).PartOf (boolean b) := nofun

theorem partOf_array : (integer n).PartOf (array id vs) ↔ ∃ v ∈ vs, (integer n).PartOf v := by
  constructor
  · rintro (_ | ⟨hv, h⟩)
    exact ⟨_, hv, h⟩
  · rintro ⟨v, hv, h⟩
    exact .element hv h

theorem partOf_map : (integer n).PartOf (map id es) ↔
    ∃ e ∈ es, (integer n).PartOf e.key ∨ (integer n).PartOf e.value := by
  constructor
  · intro h
    cases h with
    | key he h => exact ⟨_, he, .inl h⟩
    | value he h => exact ⟨_, he, .inr h⟩
  · rintro ⟨e, he, h | h⟩
    · exact .key he h
    · exact .value he h

end Written

/-! ## The text -/

theorem chunk_integer (n : Int) : Chunk (integer n).inspect (integer n).written.1 := by
  intro after more hafter h
  cases n with
  | ofNat m => exact lexes_number m hafter h
  | negSucc m =>
    have hnumber := lexes_number (m + 1) hafter h
    have hall := lexes_symbol (show isSymbol "-" .minus = true by decide) (halts_number (m + 1) after) hnumber
    have htext : toString (Int.negSucc m) = "-" ++ toString ((m + 1 : Nat) : Int) := rfl
    rw [written_of_neg (Int.negSucc_lt_zero m), inspect, htext]
    simpa using hall

/-- **The text of data is cut into its lexemes.** -/
theorem Data.chunk {v : Value} (h : v.Data) : Chunk v.inspect v.written.1 := by
  induction h with
  | integer => exact chunk_integer _
  | boolean b => exact (Node.shows_boolean b).chunk
  | @array id vs _ ih =>
    have hparts : ∀ p ∈ vs.map fun v => (v.inspect, v.written.1), Chunk p.1 p.2 := by
      simpa using ih
    have hlist := chunk_intercalate hparts
    rw [List.map_map, List.map_map] at hlist
    rw [inspect, inspectAll_eq_map, written_array, List.map_map]
    exact hlist.between (show single? '[' = some .lbracket from rfl)
      (show single? ']' = some .rbracket from rfl)
  | @map id es _ _ _ ihk ihv =>
    have hparts : ∀ p ∈ es.map fun e => (e.key.inspect ++ ": " ++ e.value.inspect, entry (writtenEntry e)),
        Chunk p.1 p.2 := by
      intro p hp
      obtain ⟨e, he, rfl⟩ := List.mem_map.1 hp
      exact (ihk e he).entry (ihv e he)
    have hlist := chunk_intercalate hparts
    rw [List.map_map, List.map_map] at hlist
    rw [inspect, inspectEntries_eq_map, written_map, List.map_map]
    exact hlist.between (show single? '\x7b' = some .lbrace from rfl)
      (show single? '\x7d' = some .rbrace from rfl)

/-! ## Reading -/

/-- The smallest word. -/
abbrev least : Value := .integer Word64.least

/-- The digits of the smallest word. -/
def leastDigits : String := "9223372036854775808"

theorem fits_of_neg {n : Int} (hn : n < 0) {depth : Nat} (h : (integer n).literal.fits depth = true) :
    ∃ d, depth = d + 2 := by
  rw [literal, written_of_neg hn] at h
  match depth, h with
  | d + 2, _ => exact ⟨d, rfl⟩

theorem accepts_literal_integer {n : Int} (hn : Word64.InRange n) (hleast : n ≠ Word64.least) {depth : Nat}
    (hfits : (integer n).literal.fits depth = true) :
    (expression depth).Accepts lowest (integer n).written.1 (integer n).literal := by
  rw [literal]
  rcases lt_or_ge n 0 with hneg | h₀
  · obtain ⟨d, rfl⟩ := fits_of_neg hneg hfits
    have hgreatest : -n ≤ Word64.greatest := by
      unfold Word64.InRange Word64.least at *
      unfold Word64.greatest
      omega
    have hread := Node.readInt_literal (show 0 ≤ -n by omega) hgreatest
    have hnumber : (expression (d + 1)).Accepts tight [(.int, toString (-n))] (.integer () (-n)) :=
      accepts_of_primary (accepts_integer hread hgreatest) (Nat.le_refl tight)
    rw [written_of_neg hneg]
    exact accepts_of_primary (accepts_unary (by decide) "-" hnumber) (by decide)
  · obtain ⟨d, rfl⟩ := exists_depth hfits
    rw [written_of_nonneg h₀]
    exact accepts_of_primary (accepts_integer (Node.readInt_literal h₀ hn.2) hn.2) (Nat.le_refl lowest)

/-- **The lexemes of data without the smallest word are read as the literal.** -/
theorem Data.accepts {v : Value} (h : v.Data) : ∀ {depth : Nat}, v.literal.fits depth = true →
    ¬least.PartOf v → (expression depth).Accepts lowest v.written.1 v.literal := by
  induction h with
  | integer h =>
    intro depth hfits hleast
    exact accepts_literal_integer h (fun hn => hleast (partOf_integer.2 hn.symm)) hfits
  | boolean b =>
    intro depth hfits _
    obtain ⟨d, rfl⟩ := exists_depth hfits
    exact accepts_of_primary (accepts_boolean b) (Nat.le_refl lowest)
  | @array id vs _ ih =>
    intro depth hfits hleast
    obtain ⟨d, rfl, hparts⟩ := fits_of_array hfits
    rw [partOf_array, not_exists] at hleast
    rw [literal, written_array]
    refine accepts_of_primary (accepts_array fun p hp => ?_) (Nat.le_refl lowest)
    obtain ⟨v, hv, rfl⟩ := List.mem_map.1 hp
    exact ih v hv (hparts v hv) fun h => hleast v ⟨hv, h⟩
  | @map id es _ _ _ ihk ihv =>
    intro depth hfits hleast
    obtain ⟨d, rfl, hparts⟩ := fits_of_map hfits
    rw [partOf_map, not_exists] at hleast
    rw [literal, written_map]
    refine accepts_of_primary (accepts_map fun p hp => ?_) (Nat.le_refl lowest)
    obtain ⟨e, he, rfl⟩ := List.mem_map.1 hp
    exact ⟨ihk e he (hparts e he).1 fun h => hleast e ⟨he, .inl h⟩,
      ihv e he (hparts e he).2 fun h => hleast e ⟨he, .inr h⟩⟩

/-- The first of several things with a property. -/
theorem exists_first {α : Type} {P : α → Prop} {xs : List α} (h : ∃ x ∈ xs, P x) :
    ∃ front x back, xs = front ++ x :: back ∧ P x ∧ ∀ y ∈ front, ¬P y := by
  classical
  obtain ⟨x, hx, hP⟩ := h
  have hsome : (xs.find? fun y => decide (P y)).isSome = true :=
    List.find?_isSome.2 ⟨x, hx, by simpa using hP⟩
  obtain ⟨y, hfind⟩ := Option.isSome_iff_exists.1 hsome
  obtain ⟨hy, front, back, rfl, hfront⟩ := List.find?_eq_some_iff_append.1 hfind
  exact ⟨front, y, back, rfl, by simpa using hy, by simpa using hfront⟩

theorem refuses_literal_least {depth : Nat} (hfits : least.literal.fits depth = true) :
    Refuses (expression depth lowest) least.written.1 (.badInteger leastDigits) := by
  obtain ⟨d, rfl⟩ := fits_of_neg (show Word64.least < 0 by decide) hfits
  have hread : Text.readInt leastDigits = .ok 9223372036854775808 := by
    have hlength : 9223372036854775808 < 10 ^ 19 := by decide
    exact Text.readInt_toString (Nat.lt_of_lt_of_le hlength (Nat.pow_le_pow_right (by decide) (by decide)))
  have hnumber : Refuses (primary (expression d)) [(.int, leastDigits)] (.badInteger leastDigits) := by
    refine refuses_integer fun n hn => ?_
    rw [hread] at hn
    cases hn
    decide
  exact refuses_of_primary (refuses_unary (by decide) "-" (refuses_of_primary hnumber tight)) lowest

/-- **The lexemes of data with the smallest word are given up at its digits.** -/
theorem Data.refuses {v : Value} (h : v.Data) : ∀ {depth : Nat}, v.literal.fits depth = true →
    least.PartOf v → Refuses (expression depth lowest) v.written.1 (.badInteger leastDigits) := by
  induction h with
  | integer h =>
    intro depth hfits hleast
    cases partOf_integer.1 hleast
    exact refuses_literal_least hfits
  | boolean b =>
    intro depth _ hleast
    exact absurd hleast not_partOf_boolean
  | @array id vs hdata ih =>
    intro depth hfits hleast
    obtain ⟨d, rfl, hparts⟩ := fits_of_array hfits
    obtain ⟨front, v, back, rfl, hv, hfront⟩ := exists_first (partOf_array.1 hleast)
    have hmem : v ∈ front ++ v :: back := List.mem_append_right _ List.mem_cons_self
    rw [written_array, List.map_append, List.map_append, List.map_cons, List.map_cons]
    refine refuses_of_primary (refuses_array (fun p hp => ?_) (ih v hmem (hparts v hmem) hv) _) lowest
    obtain ⟨u, hu, rfl⟩ := List.mem_map.1 hp
    have hu' := List.mem_append_left (v :: back) hu
    exact (hdata u hu').accepts (hparts u hu') (hfront u hu)
  | @map id es _ hkeys hvalues ihk ihv =>
    intro depth hfits hleast
    obtain ⟨d, rfl, hparts⟩ := fits_of_map hfits
    obtain ⟨front, e, back, rfl, he, hfront⟩ := exists_first (partOf_map.1 hleast)
    have hmem : e ∈ front ++ e :: back := List.mem_append_right _ List.mem_cons_self
    have hentry : (expression d).RefusesEntry (.badInteger leastDigits) (entry (writtenEntry e)) := by
      by_cases hkey : least.PartOf e.key
      · exact .key (ihk e hmem (hparts e hmem).1 hkey)
      · exact .value ((hkeys e hmem).accepts (hparts e hmem).1 hkey)
          (ihv e hmem (hparts e hmem).2 (he.resolve_left hkey))
    rw [written_map, List.map_append, List.map_append, List.map_cons, List.map_cons]
    refine refuses_of_primary (refuses_map (fun p hp => ?_) hentry _) lowest
    obtain ⟨u, hu, rfl⟩ := List.mem_map.1 hp
    have hu' := List.mem_append_left (e :: back) hu
    have hgood := not_or.1 (hfront u hu)
    exact ⟨(hkeys u hu').accepts (hparts u hu').1 hgood.1, (hvalues u hu').accepts (hparts u hu').2 hgood.2⟩

/-! ## Evaluating -/

/-- The two values are of one type and have the same key, content and text: they differ only in
identities. -/
structure Twin (w v : Value) : Prop where
  type : w.type = v.type
  key : w.key? = v.key?
  same : w.same v = true
  text : w.inspect = v.inspect

/-- Data is not on its way out. -/
theorem Twin.ne_returned {w v : Value} (h : w.Twin v) (hv : v.Data) : ∀ u, w ≠ .returned u := by
  rintro u rfl
  have htype := h.type
  cases hv <;> cases htype

theorem twin_integer (n : Int) : (integer n).Twin (integer n) :=
  ⟨rfl, rfl, by rw [same, beq_self_eq_true], rfl⟩

theorem twin_boolean (b : Bool) : (boolean b).Twin (boolean b) :=
  ⟨rfl, rfl, by rw [same, identical, beq_self_eq_true]; all_goals exact nofun, rfl⟩

theorem sameAll_of_twins {ws vs : List Value} (h : List.Forall₂ Twin ws vs) : sameAll ws vs = true := by
  induction h with
  | nil => rfl
  | cons h _ ih => rw [sameAll, h.same, ih, Bool.and_self]

theorem inspectAll_of_twins {ws vs : List Value} (h : List.Forall₂ Twin ws vs) :
    inspectAll ws = inspectAll vs := by
  induction h with
  | nil => rfl
  | cons h _ ih => rw [inspectAll, inspectAll, h.text, ih]

theorem twin_array (i j : Nat) {ws vs : List Value} (h : List.Forall₂ Twin ws vs) :
    (array i ws).Twin (array j vs) :=
  ⟨rfl, rfl, by rw [same, sameAll_of_twins h], by rw [inspect, inspect, inspectAll_of_twins h]⟩

/-- Two entries under the same key, whose parts differ only in identities. -/
structure TwinEntry (d e : Entry Value) : Prop where
  under : d.under = e.under
  key : d.key.Twin e.key
  value : d.value.Twin e.value

section TwinEntries

variable {ds es : List (Entry Value)}

theorem inspectEntries_of_twins (h : List.Forall₂ TwinEntry ds es) :
    inspectEntries ds = inspectEntries es := by
  induction h with
  | nil => rfl
  | cons h _ ih => rw [inspectEntries, inspectEntries, h.key.text, h.value.text, ih]

theorem unders_of_twins (h : List.Forall₂ TwinEntry ds es) : ds.map (·.under) = es.map (·.under) := by
  induction h with
  | nil => rfl
  | cons h _ ih => exact congrArg₂ List.cons h.under ih

theorem keyed_of_twins (h : List.Forall₂ TwinEntry ds es) (hes : Keyed es) : Keyed ds where
  nodup := unders_of_twins h ▸ hes.nodup
  under := by
    have hunder := hes.under
    clear hes
    induction h with
    | nil => nofun
    | cons h _ ih =>
      rw [List.forall_mem_cons] at hunder ⊢
      exact ⟨by rw [h.key.key, hunder.1, h.under], ih hunder.2⟩

/-- Twins of entries are found under their keys. -/
theorem within_of_twins (hes : Keyed es) {ds' : List (Entry Value)} (h : List.Forall₂ TwinEntry ds ds')
    (hds' : ∀ e ∈ ds', e ∈ es) : within ds es = true := by
  induction h with
  | nil => rfl
  | cons h _ ih =>
    rw [List.forall_mem_cons] at hds'
    rw [within, h.under, hes.find?_eq_some hds'.1, ih hds'.2]
    simp only [h.key.same, h.value.same, Bool.and_self]

theorem twin_map (i j : Nat) (h : List.Forall₂ TwinEntry ds es) (hes : Keyed es) :
    (map i ds).Twin (map j es) where
  type := rfl
  key := rfl
  same := by
    rw [same, h.length_eq, beq_self_eq_true, within_of_twins hes h fun e he => he]
    rfl
  text := by rw [inspect, inspect, inspectEntries_of_twins h]

end TwinEntries

/-- The literal of the value is evaluated to a twin of it. Nothing else happens, but that identities are
given out. -/
def RemadeBy (v : Value) (ev : Evaluator) : Prop :=
  ∀ (i : Nat) (s : Store), ∃ w k, ev v.literal i s = (.ok w, { s with nextId := k }) ∧ w.Twin v

section Remade

variable {ev : Evaluator}

theorem RemadeBy.operand {v : Value} (h : v.RemadeBy ev) (hv : v.Data) (i : Nat) (s : Store) :
    ∃ w k, operand ev v.literal i s = (.ok w, { s with nextId := k }) ∧ w.Twin v := by
  obtain ⟨w, k, hw, htwin⟩ := h i s
  exact ⟨w, k, operand_of_ok hw (htwin.ne_returned hv), htwin⟩

theorem operands_of_remade : ∀ {vs : List Value}, (∀ v ∈ vs, v.Data ∧ v.RemadeBy ev) →
    ∀ (i : Nat) (s : Store), ∃ ws k,
      operands ev i (vs.map literal) s = (.ok ws, { s with nextId := k }) ∧ List.Forall₂ Twin ws vs
  | [], _, _, s => ⟨[], s.nextId, rfl, .nil⟩
  | v :: vs, h, i, s => by
    rw [List.forall_mem_cons] at h
    obtain ⟨w, k, hw, htwin⟩ := h.1.2.operand h.1.1 i s
    obtain ⟨ws, k', hws, htwins⟩ := operands_of_remade h.2 i { s with nextId := k }
    exact ⟨w :: ws, k', operands_cons_ok.2 ⟨w, ws, _, rfl, hw, hws⟩, .cons htwin htwins⟩

theorem gathers_of_remade : ∀ {es : List (Entry Value)}, (∀ e ∈ es, e.key.hashable = true) →
    (∀ e ∈ es, e.key.Data ∧ e.key.RemadeBy ev) → (∀ e ∈ es, e.value.Data ∧ e.value.RemadeBy ev) →
    ∀ (i : Nat) (s : Store), ∃ (ds : List (Entry Value)) (k : Nat),
      Gathers ev i (es.map fun e => (e.key.literal, e.value.literal)) s (ds.map Entry.pair)
        (.ok (), { s with nextId := k }) ∧
      List.Forall₂ TwinEntry ds es
  | [], _, _, _, _, s => ⟨[], s.nextId, .done s, .nil⟩
  | e :: es, hhash, hkeys, hvalues, i, s => by
    rw [List.forall_mem_cons] at hhash hkeys hvalues
    obtain ⟨key, k₁, hkey, hkey'⟩ := hkeys.1.2.operand hkeys.1.1 i s
    obtain ⟨value, k₂, hvalue, hvalue'⟩ := hvalues.1.2.operand hvalues.1.1 i { s with nextId := k₁ }
    obtain ⟨ds, k₃, hds, htwins⟩ := gathers_of_remade hhash.2 hkeys.2 hvalues.2 i { s with nextId := k₂ }
    have hhash' : key.hashable = true := by
      rw [hashable, hkey'.key]
      exact hhash.1
    exact ⟨⟨e.under, key, value⟩ :: ds, k₃, .pair hkey hhash' hvalue hds, .cons ⟨rfl, hkey', hvalue'⟩ htwins⟩

end Remade

theorem remadeBy_integer (cfg : Config) {n : Int} (hn : Word64.InRange n) {depth : Nat}
    (hfits : (integer n).literal.fits depth = true) : (integer n).RemadeBy (eval cfg depth) := by
  intro i s
  refine ⟨integer n, s.nextId, ?_, twin_integer n⟩
  rw [literal]
  rcases lt_or_ge n 0 with hneg | h₀
  · obtain ⟨d, rfl⟩ := fits_of_neg hneg hfits
    have hnumber : eval cfg (d + 1) (.integer () (-n)) i s = (.ok (.integer (-n)), s) := rfl
    rw [written_of_neg hneg, eval_unary_integer hnumber]
    change (Except.ok (integer (Word64.wrap (- -n))), s) = _
    rw [Int.neg_neg, Word64.wrap_eq_self hn]
  · obtain ⟨d, rfl⟩ := exists_depth hfits
    rw [written_of_nonneg h₀]
    rfl

/-- **The literal of data makes a twin of it.** -/
theorem Data.remadeBy (cfg : Config) {v : Value} (h : v.Data) :
    ∀ {depth : Nat}, v.literal.fits depth = true → v.RemadeBy (eval cfg depth) := by
  induction h with
  | integer h => exact remadeBy_integer cfg h
  | boolean b =>
    intro depth hfits i s
    obtain ⟨d, rfl⟩ := exists_depth hfits
    exact ⟨.boolean b, s.nextId, rfl, twin_boolean b⟩
  | @array id vs hdata ih =>
    intro depth hfits i s
    obtain ⟨d, rfl, hparts⟩ := fits_of_array hfits
    obtain ⟨ws, k, hws, htwins⟩ := operands_of_remade (fun v hv => ⟨hdata v hv, ih v hv (hparts v hv)⟩) i s
    refine ⟨.array k ws, k + 1, ?_, twin_array k id htwins⟩
    rw [literal_array]
    exact bind_of_ok hws newArray
  | @map id es hkeyed hkeys hvalues ihk ihv =>
    intro depth hfits i s
    obtain ⟨d, rfl, hparts⟩ := fits_of_map hfits
    obtain ⟨ds, k, hds, htwins⟩ := gathers_of_remade (fun e => hkeyed.hashable)
      (fun e he => ⟨hkeys e he, ihk e he (hparts e he).1⟩)
      (fun e he => ⟨hvalues e he, ihv e he (hparts e he).2⟩) i s
    obtain ⟨entries, hentries, hlast⟩ := eval_map_of_gathers hds
    -- the keys are all different, so that no entry replaces another one
    rw [hlast.eq_of_keyed (keyed_of_twins htwins hkeyed)] at hentries
    refine ⟨.map k ds, k + 1, ?_, twin_map k id htwins hkeyed⟩
    rw [literal_map]
    exact hentries

/-- The text of data whose literal is not nested too deeply can be made. -/
theorem Data.fits {v : Value} (h : v.Data) :
    ∀ {depth : Nat}, v.literal.fits depth = true → v.fits depth = true := by
  induction h with
  | integer | boolean =>
    intro depth hfits
    obtain ⟨d, rfl⟩ := exists_depth hfits
    rfl
  | array id _ ih =>
    intro depth hfits
    obtain ⟨d, rfl, hparts⟩ := fits_of_array hfits
    rw [Value.fits, List.all_eq_true]
    exact fun v hv => ih v hv (hparts v hv)
  | map id _ _ _ ihk ihv =>
    intro depth hfits
    obtain ⟨d, rfl, hparts⟩ := fits_of_map hfits
    rw [Value.fits, List.all_eq_true]
    exact fun e he => Bool.and_eq_true_iff.2 ⟨ihk e he (hparts e he).1, ihv e he (hparts e he).2⟩

end Value

/-! ## Running the text -/

/-- Reads a text and runs its program, or tells the problems. -/
def runText (cfg : Config) (source : String) (scope : Nat) : Run (Except (List Problem) Value) := do
  match (← readSource cfg source).tree? with
  | .error problems => return .error problems
  | .ok tree => return .ok (← run cfg tree scope)

section RunText

variable {source : String} {scope : Nat} {s s' : Store}

theorem runText_of_problems (h : (parseSource source).problems ≠ []) :
    runText {} source scope s = (.ok (.error (parseSource source).problems), s) := by
  have htree : (parseSource source).tree? = .error (parseSource source).problems :=
    if_neg (by simpa using h)
  rw [runText, bind_of_ok (readSource_quiet source s), htree]
  rfl

theorem runText_of_eval {tree : Node Unit} {w : Value} (h : (parseSource source).problems = [])
    (htree : (parseSource source).program.strip = tree)
    (heval : eval {} depthLimit tree scope s = (.ok w, s')) :
    runText {} source scope s = (.ok (.ok w), s') := by
  have htree' : (parseSource source).tree? = .ok tree := by
    rw [Parsed.tree?, h, htree]
    rfl
  have hrun : run {} tree scope s = (.ok w, s') := by
    rw [run, runWithin_apply]
    exact bind_of_ok (catchError_of_ok heval) _
  rw [runText, bind_of_ok (readSource_quiet source s), htree']
  exact bind_of_ok hrun _

end RunText

section Data

variable {v : Value} (hv : v.Data) (hfits : v.literal.fits nestingLimit = true)
include hv

theorem lexes_inspect : Lexes v.inspect.toList v.written.1 := by
  have hchunk := hv.chunk [] [] nofun (.nil .nil)
  rwa [List.append_nil, List.append_nil] at hchunk

/-- A literal is evaluated as a program. -/
theorem eval_program_literal {depth : Nat} (hfits : v.literal.fits depth = true) (cfg : Config) (i : Nat)
    (s : Store) : ∃ w k, eval cfg (depth + 2) (.program [.expressionStmt () v.literal]) i s =
      (.ok w, { s with nextId := k }) ∧ w.Twin v := by
  obtain ⟨w, k, hw, htwin⟩ := hv.remadeBy cfg hfits i s
  have hstatement : eval cfg (depth + 1) (.expressionStmt () v.literal) i s =
      (.ok w, { s with nextId := k }) := hw
  refine ⟨w, k, ?_, htwin⟩
  change SepiaLang.programBody (eval cfg (depth + 1)) i .null [_] s = _
  rw [programBody_cons hstatement (htwin.ne_returned hv)]
  rfl

include hfits

theorem parseSource_inspect (hleast : ¬Value.least.PartOf v) :
    (parseSource v.inspect).problems = [] ∧
      (parseSource v.inspect).program.strip = .program [.expressionStmt () v.literal] := by
  have hbody : (expression nestingLimit).AcceptsBody [(v.written.1, .expressionStmt () v.literal)] :=
    ⟨accepts_lastExpression (hv.accepts hfits hleast), trivial⟩
  refine program_of_acceptsBody hbody ?_
  rw [upToEnd_scan (lexes_inspect hv), List.flatMap_cons, List.flatMap_nil, List.append_nil]

theorem problems_inspect (hleast : Value.least.PartOf v) :
    (parseSource v.inspect).problems.head? = some (.badInteger Value.leastDigits) := by
  have htokens : (upToEnd (scan v.inspect)).map Token.bare = v.written.1 ++ [] := by
    rw [upToEnd_scan (lexes_inspect hv), List.append_nil]
  exact program_of_refuses (hv.refuses hfits hleast) htokens

end Data

/-- **Displayed data can be read back, with one exception.** Let a value be made of words, booleans, arrays
and maps with integers and booleans for keys, such that its literal is not nested more deeply than the reader
allows. Its text can be made. Reading and running the text gives a value with the same content and the same
text if and only if the smallest word does not occur in the value. If it occurs, the program is refused, and
the first problem is that the digits of the smallest word cannot be read as an integer. -/
theorem data_read_back {v : Value} (hv : v.Data) (hfits : v.literal.fits nestingLimit = true) (scope : Nat)
    (s : Store) :
    let result := (runText {} v.inspect scope s).1
    v.shown? = some v.inspect ∧
    ((∃ w, result = .ok (.ok w) ∧ w.same v = true ∧ w.inspect = v.inspect) ↔
      ¬(Value.integer Word64.least).PartOf v) ∧
    ((Value.integer Word64.least).PartOf v → ∃ problems, result = .ok (.error problems) ∧
      problems.head? = some (.badInteger "9223372036854775808")) := by
  intro result
  have hrefused (hleast : Value.least.PartOf v) : ∃ problems, result = .ok (.error problems) ∧
      problems.head? = some (.badInteger Value.leastDigits) := by
    have hhead := problems_inspect hv hfits hleast
    refine ⟨_, congrArg Prod.fst (runText_of_problems fun hnil => ?_), hhead⟩
    rw [hnil] at hhead
    cases hhead
  refine ⟨if_pos (hv.fits (Node.fits_of_le (by decide) hfits)), ⟨?_, fun hleast => ?_⟩, hrefused⟩
  · rintro ⟨w, hw, -⟩ hleast
    obtain ⟨problems, hproblems, -⟩ := hrefused hleast
    rw [hproblems] at hw
    cases hw
  · obtain ⟨hproblems, hprogram⟩ := parseSource_inspect hv hfits hleast
    have hdeeper : v.literal.fits (depthLimit - 2) = true := Node.fits_of_le (by decide) hfits
    obtain ⟨w, k, heval, htwin⟩ := eval_program_literal hv hdeeper {} scope s
    exact ⟨w, congrArg Prod.fst (runText_of_eval hproblems hprogram heval), htwin.same, htwin.text⟩

/-- The texts `[-5, {-1: true, false: []}]` and `[1, -9223372036854775808]`. -/
theorem data_read_back_examples :
    let v : Value := .array 0 [.integer (-5),
      .map 1 [⟨.integer (-1), .integer (-1), .boolean true⟩, ⟨.boolean false, .boolean false, .array 2 []⟩]]
    let u : Value := .array 0 [.integer 1, .integer Word64.least]
    let run (source : String) := (runText {} source globalScope ({} : Config).start).1
    v.Data ∧ v.literal.fits nestingLimit = true ∧ v.inspect = "[-5, \x7b-1: true, false: []\x7d]" ∧
      (∃ w, run v.inspect = .ok (.ok w) ∧ w.same v = true ∧ w.inspect = v.inspect) ∧
    u.Data ∧ u.literal.fits nestingLimit = true ∧ u.inspect = "[1, -9223372036854775808]" ∧
      ∃ problems, run u.inspect = .ok (.error problems) ∧
        problems.head? = some (.badInteger "9223372036854775808") := by
  intro v u run
  have hv : v.Data := by
    refine .array 0 (List.forall_mem_cons.2 ⟨.integer (by decide), List.forall_mem_singleton.2 ?_⟩)
    refine .map 1 ⟨by decide, by decide⟩ ?_ ?_
    · exact List.forall_mem_cons.2 ⟨.integer (by decide), List.forall_mem_singleton.2 (.boolean false)⟩
    · exact List.forall_mem_cons.2 ⟨.boolean true, List.forall_mem_singleton.2 (.array 2 nofun)⟩
  have hu : u.Data := by
    refine .array 0 (List.forall_mem_cons.2 ⟨.integer (by decide), List.forall_mem_singleton.2 ?_⟩)
    exact .integer (by decide)
  have hfits : v.literal.fits nestingLimit = true := by decide +kernel
  have hfits' : u.literal.fits nestingLimit = true := by decide +kernel
  refine ⟨hv, hfits, by decide +kernel, ?_, hu, hfits', by decide +kernel, ?_⟩
  · refine (data_read_back hv hfits globalScope _).2.1.2 ?_
    simp [v, Value.partOf_array, Value.partOf_map, Value.partOf_integer, Value.not_partOf_boolean,
      Word64.least]
  · exact (data_read_back hu hfits' globalScope _).2.2 (.element (by simp) (.self _))

end SepiaLang
