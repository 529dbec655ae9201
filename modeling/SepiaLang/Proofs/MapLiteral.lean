import SepiaLang.Proofs.Guarded
import SepiaLang.Proofs.Identity.Equality

/-!
# Map literals

A map literal has its keys and values evaluated from left to right, up to the first that stops. If none
stops, the map has one entry for each key, where it first occurs, with the last key and value that were
given for it. All maps that are ever at hand have come about in this way, so that each of their entries
stands under the key that its first value has.

* `Gathers`: the pairs of values that a literal comes to, and where it stops.
* `mapEntries_of_gathers`, `eval_map_of_gathers`: the literal that gathers pairs.
* `keyedGuard`, `Moment.keyed`: the maps at hand have keys that are all different.
* **`map_literals`**: the value of a literal, and the maps at every moment.
-/

namespace SepiaLang

open SepiaLang.Computation

/-! ## Gathering pairs -/

/-- The keys and values of a literal are evaluated from a store, each key before its value, and give these
pairs. All have been evaluated in the end, or one has stopped the evaluation, or a key cannot be one. -/
inductive Gathers (ev : Evaluator) (i : Nat) :
    List (Node Unit × Node Unit) → Store → List (Value × Value) → Except Stop Unit × Store → Prop
  | done (s : Store) : Gathers ev i [] s [] (.ok (), s)
  | pair {k v : Node Unit} {ps : List (Node Unit × Node Unit)} {s s₁ s₂ : Store} {key value : Value}
      {pairs : List (Value × Value)} {o : Except Stop Unit × Store}
      (hk : operand ev k i s = (.ok key, s₁)) (hkey : key.hashable = true)
      (hv : operand ev v i s₁ = (.ok value, s₂)) (h : Gathers ev i ps s₂ pairs o) :
      Gathers ev i ((k, v) :: ps) s ((key, value) :: pairs) o
  | keyStops {k v : Node Unit} {ps : List (Node Unit × Node Unit)} {s s₁ : Store} {stop : Stop}
      (hk : operand ev k i s = (.error stop, s₁)) : Gathers ev i ((k, v) :: ps) s [] (.error stop, s₁)
  | unusable {k v : Node Unit} {ps : List (Node Unit × Node Unit)} {s s₁ : Store} {key : Value}
      (hk : operand ev k i s = (.ok key, s₁)) (hkey : key.hashable = false) :
      Gathers ev i ((k, v) :: ps) s [] (.error (.failed (.unusableKey key.type)), s₁)
  | valueStops {k v : Node Unit} {ps : List (Node Unit × Node Unit)} {s s₁ s₂ : Store} {key : Value}
      {stop : Stop} (hk : operand ev k i s = (.ok key, s₁)) (hkey : key.hashable = true)
      (hv : operand ev v i s₁ = (.error stop, s₂)) : Gathers ev i ((k, v) :: ps) s [] (.error stop, s₂)

section Gathers

variable {cfg : Config} {ev : Evaluator} {i : Nat} {k v : Node Unit} {ps : List (Node Unit × Node Unit)}
  {s s₁ s₂ : Store} {key value : Value} {entries : List (Entry Value)}
  {pairs : List (Value × Value)}
  {o : Except Stop Unit × Store}

variable (ev i) in
/-- Every literal gathers some pairs, up to some end. -/
theorem exists_gathers : ∀ (ps : List (Node Unit × Node Unit)) (s : Store), ∃ pairs o, Gathers ev i ps s pairs o
  | [], s => ⟨[], _, .done s⟩
  | (k, v) :: ps, s => by
    rcases hk : operand ev k i s with ⟨stop | key, s₁⟩
    · exact ⟨[], _, .keyStops hk⟩
    cases hkey : key.hashable with
    | false => exact ⟨[], _, .unusable hk hkey⟩
    | true =>
      rcases hv : operand ev v i s₁ with ⟨stop | value, s₂⟩
      · exact ⟨[], _, .valueStops hk hkey hv⟩
      · obtain ⟨pairs, o, h⟩ := exists_gathers ps s₂
        exact ⟨(key, value) :: pairs, o, .pair hk hkey hv h⟩

/-- What comes of an entry once its key is known. -/
theorem mapEntries_of_key (hk : operand ev k i s = (.ok key, s₁)) (hkey : key.hashable = true) :
    mapEntries ev i entries ((k, v) :: ps) s = (do
      let value ← operand ev v i
      mapEntries ev i (putEntry (← keyOf key) key value entries) ps) s₁ := by
  rw [mapEntries, bind_of_ok hk]
  simp only [hkey, Bool.not_true, Bool.false_eq_true, if_false]

/-- A pair is put among the entries before. -/
theorem mapEntries_of_pair (hk : operand ev k i s = (.ok key, s₁)) (hv : operand ev v i s₁ = (.ok value, s₂))
    {c : Key} (hc : key.key? = some c) :
    mapEntries ev i entries ((k, v) :: ps) s = mapEntries ev i (putEntry c key value entries) ps s₂ := by
  have hkeyOf : keyOf key s₂ = (.ok c, s₂) := by
    rw [keyOf, hc]
    rfl
  rw [mapEntries_of_key hk (Option.isSome_iff_exists.2 ⟨c, hc⟩), bind_of_ok hv, bind_of_ok hkeyOf]

/-- **The entries that a literal comes to**, or where it stops. -/
theorem mapEntries_of_gathers (h : Gathers ev i ps s pairs o) :
    ∀ {before : List (Value × Value)} {entries : List (Entry Value)}, LastWins before entries →
      (∀ stop s₁, o = (.error stop, s₁) → mapEntries ev i entries ps s = (.error stop, s₁)) ∧
      ∀ s₁, o = (.ok (), s₁) →
        ∃ entries', mapEntries ev i entries ps s = (.ok entries', s₁) ∧
          LastWins (before ++ pairs) entries' := by
  induction h with
  | done s =>
    intro before entries h
    refine ⟨nofun, fun s₁ ho => ?_⟩
    cases ho
    exact ⟨entries, rfl, (List.append_nil before).symm ▸ h⟩
  | @pair k v ps s s₁ s₂ key value pairs o hk hkey hv _ ih =>
    intro before entries h
    obtain ⟨c, hc⟩ := Option.isSome_iff_exists.1 hkey
    have hput := ih (h.putEntry hc value)
    rw [List.append_assoc] at hput
    rw [mapEntries_of_pair hk hv hc]
    exact hput
  | keyStops hk =>
    intro before entries _
    refine ⟨fun stop s₁ ho => ?_, nofun⟩
    cases ho
    exact bind_of_error hk _
  | unusable hk hkey =>
    intro before entries _
    refine ⟨fun stop s₁ ho => ?_, nofun⟩
    cases ho
    rw [mapEntries, bind_of_ok hk]
    simp only [hkey]
    rfl
  | valueStops hk hkey hv =>
    intro before entries _
    refine ⟨fun stop s₁ ho => ?_, nofun⟩
    cases ho
    rw [mapEntries_of_key hk hkey, bind_of_error hv]

/-- **A literal that gathers pairs is a new map**, in which the last pair under a key wins. -/
theorem eval_map_of_gathers {depth : Nat} (h : Gathers (eval cfg depth) i ps s pairs (.ok (), s₁)) :
    ∃ entries, eval cfg (depth + 1) (.map () ps) i s =
      (.ok (.map s₁.nextId entries), { s₁ with nextId := s₁.nextId + 1 }) ∧ LastWins pairs entries := by
  obtain ⟨entries, hentries, hlast⟩ := (mapEntries_of_gathers h .nil).2 s₁ rfl
  exact ⟨entries, bind_of_ok hentries _, hlast⟩

end Gathers

/-! ## Maps at hand -/

theorem Value.not_map_partOf_of_atomic {v : Value} (h : v.atomic = true) (id : Nat)
    (entries : List (Entry Value)) : ¬(Value.map id entries).PartOf v := by
  intro hmap
  cases hmap <;> cases h

/-- The entries of all maps have keys, all different. -/
def keyedGuard : Guard where
  Ok s := ∀ id entries, s.Holds (.map id entries) → Keyed entries
  Has v := ∀ id entries, (Value.map id entries).PartOf v → Keyed entries
  Tree _ := True
  Lax := True
  of_scopes hs h id entries hmap := hs id entries ((Store.holds_congr h _).1 hmap)
  get? hs h id entries hmap := hs id entries (Store.holds_of_get? h hmap)
  set hs hv _ _ id entries hmap := (Store.holds_set hmap).elim (hv id entries) (hs id entries)
  addScope hs _ id entries hmap := hs id entries (Store.holds_addScope hmap)
  atom h _ id entries hmap := absurd hmap (Value.not_map_partOf_of_atomic h id entries)
  function := ⟨fun _ => trivial, fun _ id entries hmap =>
    absurd hmap (Value.not_map_partOf_of_atomic rfl id entries)⟩
  array := by
    refine ⟨fun h v hv id entries hmap => h id entries (.element hv hmap), fun h id entries hmap => ?_⟩
    cases hmap with
    | element hv hmap => exact h _ hv id entries hmap
  map hkeyed h id entries hmap := by
    cases hmap with
    | self => exact hkeyed
    | key he hmap => exact (h _ he).1 id entries hmap
    | value he hmap => exact (h _ he).2 id entries hmap
  entry h _ he := ⟨fun id entries hmap => h id entries (.key he hmap),
    fun id entries hmap => h id entries (.value he hmap)⟩
  returned h id entries hmap := h id entries (.returned hmap)
  error _ := trivial
  part _ _ := trivial
  alternative _ _ := trivial
  absent _ := trivial

/-- The maps in bindings and in the values at hand have keys that are all different. -/
def Store.Keyed (s : Store) (vs : List Value) : Prop := keyedGuard.Ok s ∧ ∀ v ∈ vs, keyedGuard.Has v

section Keyed

variable {cfg : Config} {s s' : Store} {vs held : List Value}

theorem Store.Keyed.live (h : s.Keyed vs) {id : Nat} {entries : List (Entry Value)}
    (hmap : s.Live vs (.map id entries)) : SepiaLang.Keyed entries := by
  rcases hmap with hmap | ⟨v, hv, hmap⟩
  · exact h.1 id entries hmap
  · exact h.2 v hv id entries hmap

theorem has_of_settle {v : Value} (h : keyedGuard.Has (settle v)) : keyedGuard.Has v := by
  cases v with
  | returned w =>
    intro id entries hmap
    cases hmap with
    | returned hmap => exact h id entries hmap
  | _ => exact h

/-- A safe computation leaves maps as they should be, in the store and in what it comes to. -/
theorem keyed_of_safe {α : Type} {V : α → Prop} {m : Run α} {given : α → List Value}
    (hm : keyedGuard.Safe V m) (hgiven : ∀ a, V a → ∀ v ∈ given a, keyedGuard.Has v) (hs : s.Keyed vs) :
    (m s).2.Keyed (atHand given (m s).1 ++ vs) := by
  obtain ⟨hok, hresult⟩ := hm s hs.1
  refine ⟨hok, fun v hv => (List.mem_append.1 hv).elim (fun hv => ?_) (hs.2 v)⟩
  cases hx : (m s).1 with
  | ok a =>
    rw [hx] at hv hresult
    exact hgiven a hresult v hv
  | error stop =>
    rw [hx] at hv hresult
    cases stop with
    | returning w =>
      rw [List.mem_singleton.1 hv]
      exact hresult
    | failed | tooDeep | fault => cases hv

theorem safe_enterCall (f : Value) (params : List String) (outer : Nat) {args : List Value}
    (h : ∀ v ∈ args, keyedGuard.Has v) :
    keyedGuard.Safe (fun _ => True) (enterCall cfg f params outer args) := by
  refine Keeps.bind (safe_newScope _) fun inner _ => Keeps.bind (safe_bindParams inner params args h) ?_
  exact fun _ _ => Keeps.bind (safe_note cfg 3 _) fun _ _ => Keeps.pure trivial

/-- The maps are as they should be in the evaluations that one starts. -/
theorem Holding.keyed {ev : Evaluator} (hev : ev.Safe keyedGuard) {n m : Node Unit} {scope scope' : Nat}
    (h : Holding cfg ev n scope s held m scope' s') (hs : s.Keyed vs) : s'.Keyed (held ++ vs) := by
  have append {s' : Store} {held : List Value} (hok : keyedGuard.Ok s')
      (hheld : ∀ v ∈ held, keyedGuard.Has v) : s'.Keyed (held ++ vs) :=
    ⟨hok, fun v hv => (List.mem_append.1 hv).elim (hheld v) (hs.2 v)⟩
  cases h with
  | part _ h =>
    obtain ⟨hok, hheld⟩ := (safe_operands hev scope fun _ _ => trivial).of_ok hs.1 h
    exact append hok hheld
  | branch hc hnote =>
    obtain ⟨hok, hv⟩ := (safe_operand hev scope trivial).of_ok hs.1 hc
    exact append ((safe_note cfg 3 _).of_ok hok hnote).1 (List.forall_mem_singleton.2 hv)
  | body hf hargs henter =>
    obtain ⟨hok, hfunction⟩ := (safe_operand hev scope trivial).of_ok hs.1 hf
    obtain ⟨hok', hvalues⟩ := (safe_operands hev scope fun _ _ => trivial).of_ok hok hargs
    refine append ((safe_enterCall _ _ _ hvalues).of_ok hok' henter).1 ?_
    exact List.forall_mem_append.2 ⟨hvalues, List.forall_mem_singleton.2 hfunction⟩

/-- So they are in all evaluations on the way. -/
theorem Task.Visits.keyed (hn : cfg.natives.Safe keyedGuard) {t t' : Task} (h : t.Visits cfg held t')
    (hs : t.store.Keyed vs) : t'.store.Keyed (held ++ vs) := by
  induction h generalizing vs with
  | refl => exact hs
  | step hholding _ ih =>
    rw [List.append_assoc]
    exact ih (hholding.keyed (eval_safe hn _) hs)

theorem safe_runWithin (hn : cfg.natives.Safe keyedGuard) (limit : Nat) (program : Node Unit) (scope : Nat) :
    keyedGuard.Safe keyedGuard.Has (runWithin cfg limit program scope) := by
  have herror (message : String) : keyedGuard.Safe keyedGuard.Has (newError message) :=
    Keeps.bind safe_freshId fun _ _ => Keeps.pure nofun
  have heval : keyedGuard.Safe keyedGuard.Has (eval cfg limit program scope) :=
    Keeps.mono (eval_safe hn limit program scope trivial) fun _ => has_of_settle
  refine Keeps.bind (safe_note cfg 1 _) fun _ _ => ?_
  refine Keeps.bind (Keeps.tryCatch heval fun stop hstop => ?_) fun v hv =>
    Keeps.bind (safe_note cfg 1 _) fun _ _ => Keeps.pure hv
  split
  · exact herror _
  · exact herror _
  · exact Keeps.throw hstop

theorem safe_readSource (source : String) : keyedGuard.Safe (fun _ => True) (readSource cfg source) := by
  refine Keeps.bind (Keeps.forM (fun line => safe_note cfg 4 _) _) fun _ _ => ?_
  exact Keeps.bind (safe_note cfg 1 _) fun _ _ => Keeps.pure trivial

/-- A step keeps the maps of a session as they should be. -/
theorem Session.after_keyed (hn : cfg.natives.Safe keyedGuard) {session : Session}
    (h : session.store.Keyed session.results) (step : Step) :
    (session.after cfg step).store.Keyed (session.after cfg step).results := by
  cases step with
  | run limit body scope =>
    exact keyed_of_safe (safe_runWithin hn limit (.program body) scope)
      (fun v hv => List.forall_mem_singleton.2 hv) h
  | newRoot => exact ⟨keyedGuard.addScope h.1 none, h.2⟩
  | read source => exact ⟨(safe_readSource source _ h.1).1, h.2⟩
  | takeOutput | closeLog => exact ⟨keyedGuard.of_scopes h.1 rfl, h.2⟩

theorem Config.reached_keyed (hn : cfg.natives.Safe keyedGuard) (steps : List Step) :
    (cfg.reached steps).store.Keyed (cfg.reached steps).results := by
  have hfold : ∀ (steps : List Step) {session : Session}, session.store.Keyed session.results →
      (steps.foldl (Session.after cfg) session).store.Keyed
        (steps.foldl (Session.after cfg) session).results := by
    intro steps
    induction steps with
    | nil => exact fun h => h
    | cons step steps ih => exact fun h => ih (Session.after_keyed hn h step)
  exact hfold steps ⟨fun _ _ hmap => absurd hmap (holds_start _ _), nofun⟩

/-- **At every moment the maps at hand have keys that are all different.** -/
theorem Moment.keyed (hn : cfg.natives.Safe keyedGuard) (h : Moment cfg s vs) : s.Keyed vs := by
  have hrunning (steps : List Step) (limit : Nat) (body : List (Node Unit)) (scope : Nat) :
      (cfg.running steps limit body scope).store.Keyed (cfg.reached steps).results :=
    have hreached := cfg.reached_keyed hn steps
    ⟨(safe_note cfg 1 .running _ hreached.1).1, hreached.2⟩
  cases h with
  | between steps => exact cfg.reached_keyed hn steps
  | before h => exact h.keyed hn (hrunning _ _ _ _)
  | after h =>
    refine keyed_of_safe (eval_safe hn _ _ _ trivial) (fun v hv => ?_) (h.keyed hn (hrunning _ _ _ _))
    exact List.forall_mem_singleton.2 hv

end Keyed

/-! ## Length and subscripts -/

/-- The native function `len` counts the entries of a map. -/
theorem applyFunction_len {cfg : Config} (hn : cfg.natives = standard) (ev : Evaluator) (id : Nat)
    (entries : List (Entry Value)) (s : Store) :
    (applyFunction cfg ev (.native "len") [.map id entries] s).1 = .ok (.integer entries.length) := by
  obtain ⟨s', hs'⟩ : ∃ s', note cfg 3 (.calledNative (.native "len")) s = (.ok (), s') := by
    unfold note
    split
    · exact ⟨_, rfl⟩
    · exact ⟨_, rfl⟩
  have happly : applyFunction cfg ev (.native "len") [.map id entries] s =
      callNative cfg (.native "len") ⟨some 1, Native.len⟩ [.map id entries] s := by
    rw [applyFunction, hn]
    rfl
  rw [happly, callNative, bind_of_ok hs']
  rfl

/-- The value in a map under a key. -/
theorem subscript_map {k : Value} {c : Key} (hc : k.key? = some c) (id : Nat)
    (entries : List (Entry Value)) (s : Store) :
    subscript (.map id entries) k s = (.ok ((valueAt? c entries).getD .null), s) := by
  have hhash : k.hashable = true := Option.isSome_iff_exists.2 ⟨c, hc⟩
  have hkeyOf : keyOf k s = (.ok c, s) := by
    rw [keyOf, hc]
    rfl
  rw [subscript]
  simp only [hhash, Bool.not_true, Bool.false_eq_true, if_false]
  rw [bind_of_ok hkeyOf]
  rfl

/-- A key occurs among pairs if one of them has it. -/
theorem mem_keysOf_iff {k : Value} {c : Key} (hc : k.key? = some c) {pairs : List (Value × Value)} :
    c ∈ keysOf pairs ↔ ∃ p ∈ pairs, p.1.SameKey k := by
  simp only [mem_keysOf, Value.sameKey_iff, hc, Option.some.injEq, exists_eq_right']

/-- A subscript finds the value of the last pair with the same key, and `null` if there is none. -/
theorem subscript_of_lastWins {pairs : List (Value × Value)} {entries : List (Entry Value)}
    (h : LastWins pairs entries) {k : Value} (hk : k.hashable = true) (id : Nat) (s : Store) :
    (∀ before p after, pairs = before ++ p :: after → p.1.SameKey k → (∀ q ∈ after, ¬q.1.SameKey k) →
      subscript (.map id entries) k s = (.ok p.2, s)) ∧
    ((∀ p ∈ pairs, ¬p.1.SameKey k) → subscript (.map id entries) k s = (.ok .null, s)) := by
  obtain ⟨c, hc⟩ := Option.isSome_iff_exists.1 hk
  have hnot {qs : List (Value × Value)} (hqs : ∀ q ∈ qs, ¬q.1.SameKey k) : c ∉ keysOf qs := by
    rw [mem_keysOf_iff hc]
    rintro ⟨q, hq, hqk⟩
    exact hqs q hq hqk
  rw [subscript_map hc]
  refine ⟨fun before p after hp hkey hafter => ?_, fun hnone => ?_⟩
  · obtain ⟨c', hp', hk'⟩ := Value.sameKey_iff.1 hkey
    rw [h.valueAt?_eq_some hp (hp'.trans (hk'.symm.trans hc)) (hnot hafter)]
    rfl
  · rw [h.valueAt?_eq_none (hnot hnone)]
    rfl

/-- **Map literals are maps in which the last pair wins.** Let a map literal be evaluated.

* Its keys and values are evaluated from left to right. If one of them stops the evaluation, or a key cannot
  be one, the literal stops there, for that reason and with the store of that moment.
* Otherwise it is a new map with one entry for each key, in the order in which keys first occur, with the
  last key and value that were given. Its length is the number of different keys. A subscript with an
  integer, a boolean or a string finds the value of the last pair whose key has the same type and content,
  and `null` if there is none.

At every moment in the life of an interpreter the entries of all maps at hand stand under different keys,
each under the key of the value that was given as its key. -/
theorem map_literals (level : Nat) :
    let cfg : Config := { logLevel := level }
    (∀ (depth i : Nat) (ps : List (Node Unit × Node Unit)) (s : Store),
      let result := eval cfg (depth + 1) (.map () ps) i s
      (∃ pairs o, Gathers (eval cfg depth) i ps s pairs o) ∧
      (∀ pairs stop s₁, Gathers (eval cfg depth) i ps s pairs (.error stop, s₁) →
        result = (.error stop, s₁)) ∧
      ∀ pairs s₁, Gathers (eval cfg depth) i ps s pairs (.ok (), s₁) →
        ∃ entries, result = (.ok (.map s₁.nextId entries), { s₁ with nextId := s₁.nextId + 1 }) ∧
          LastWins pairs entries ∧
          ∀ s₂ : Store,
            (applyFunction cfg (eval cfg depth) (.native "len") [.map s₁.nextId entries] s₂).1 =
              .ok (.integer (keysOf pairs).toFinset.card) ∧
            ∀ k : Value, k.hashable = true →
              (∀ before p after, pairs = before ++ p :: after → p.1.SameKey k →
                (∀ q ∈ after, ¬q.1.SameKey k) →
                subscript (.map s₁.nextId entries) k s₂ = (.ok p.2, s₂)) ∧
              ((∀ p ∈ pairs, ¬p.1.SameKey k) →
                subscript (.map s₁.nextId entries) k s₂ = (.ok .null, s₂))) ∧
    ∀ s vs, Moment cfg s vs → ∀ id entries, s.Live vs (.map id entries) →
      (entries.map (·.under)).Nodup ∧ ∀ e ∈ entries, e.key.key? = some e.under := by
  intro cfg
  refine ⟨fun depth i ps s => ⟨exists_gathers _ i ps s, fun pairs stop s₁ h => ?_, fun pairs s₁ h => ?_⟩,
    fun s vs h id entries hlive => ?_⟩
  · exact bind_of_error ((mapEntries_of_gathers h .nil).1 stop s₁ rfl) _
  · obtain ⟨entries, hentries, hlast⟩ := eval_map_of_gathers h
    refine ⟨entries, hentries, hlast, fun s₂ => ⟨?_, fun k hk => subscript_of_lastWins hlast hk _ s₂⟩⟩
    rw [applyFunction_len rfl, hlast.length_eq]
  · have hkeyed := (h.keyed standard_safe).live hlive
    exact ⟨hkeyed.nodup, hkeyed.under⟩

/-- The keys `1` and `true` are two keys, of which the first one is given twice, and `"1"` is a third one that is
not given. The map is the result of a run afterwards. -/
theorem map_literals_mixed_keys :
    let ps : List (Node Unit × Node Unit) := [(.integer () 1, .integer () 10),
      (.boolean () true, .integer () 20), (.integer () 1, .integer () 30)]
    let s := Store.start false
    let entries : List (Entry Value) :=
      [⟨.integer 1, .integer 1, .integer 30⟩, ⟨.boolean true, .boolean true, .integer 20⟩]
    let session := ({} : Config).reached [.run 3 [.map () ps] 0]
    (∃ entries, eval {} 2 (.map () ps) 0 s = (.ok (.map 0 entries), { s with nextId := 1 }) ∧
      entries.map (·.under) = [.integer 1, .boolean true] ∧
      (applyFunction {} (eval {} 1) (.native "len") [.map 0 entries] s).1 = .ok (.integer 2) ∧
      subscript (.map 0 entries) (.integer 1) s = (.ok (.integer 30), s) ∧
      subscript (.map 0 entries) (.string 5 "1") s = (.ok .null, s)) ∧
    session.results = [.map 0 entries] ∧
    (entries.map (·.under)).Nodup ∧ ∀ e ∈ entries, e.key.key? = some e.under := by
  intro ps s entries session
  obtain ⟨hliteral, hmoment⟩ := map_literals 0
  have hgathers : Gathers (eval {} 1) 0 ps s [(.integer 1, .integer 10), (.boolean true, .integer 20),
      (.integer 1, .integer 30)] (.ok (), s) :=
    .pair rfl rfl rfl (.pair rfl rfl rfl (.pair rfl rfl rfl (.done s)))
  obtain ⟨entries', hresult, hlast, hmap⟩ := (hliteral 1 0 ps s).2.2 _ s hgathers
  have hsession : session.results = [.map 0 entries] := by with_unfolding_all rfl
  refine ⟨⟨entries', hresult, hlast.keys, (hmap s).1, ?_, ?_⟩, hsession, ?_⟩
  · exact ((hmap s).2 (.integer 1) rfl).1 [(.integer 1, .integer 10), (.boolean true, .integer 20)]
      (.integer 1, .integer 30) [] rfl (.integer 1) nofun
  · exact ((hmap s).2 (.string 5 "1") rfl).2 (by simp [Value.sameKey_iff, Value.key?])
  · exact hmoment _ _ (.between [.run 3 [.map () ps] 0]) 0 entries
      (.of_mem (hsession ▸ List.mem_singleton_self _) (.self _))

end SepiaLang
