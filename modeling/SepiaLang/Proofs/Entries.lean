import SepiaLang.Value.Key
import Mathlib.Data.Finset.Card

/-!
# Entries of maps

A map is made of pairs of values that are put one after the other, each under the key that its first value
is. A pair under a key that was there takes the place of the older one, so that the map has one entry for each
key, where the key first occurs, and it is the last pair under that key.

* `Keyed`: the entries stand under the keys that they have, all different. `Keyed.putEntry`: so it stays.
* `LastWins`: the entries that pairs come to. `LastWins.putEntry`: one more pair.
* `LastWins.valueAt?_eq_some`, `LastWins.valueAt?_eq_none`: what is found under a key.
* `LastWins.eq_of_keyed`: pairs that are given under different keys are the entries.
-/

namespace SepiaLang

/-- The two values are the same key: integers, booleans or strings with the same content. -/
inductive Value.SameKey : Value → Value → Prop
  | integer (n : Int) : SameKey (.integer n) (.integer n)
  | boolean (b : Bool) : SameKey (.boolean b) (.boolean b)
  | string (i j : Nat) (text : String) : SameKey (.string i text) (.string j text)

theorem Value.sameKey_iff {v w : Value} : v.SameKey w ↔ ∃ k, v.key? = some k ∧ w.key? = some k := by
  constructor
  · rintro (_ | _ | _) <;> exact ⟨_, rfl, rfl⟩
  · rintro ⟨k, hv, hw⟩
    cases v <;> cases hv <;> cases w <;> cases hw <;> constructor

theorem hasKey_iff {k : Key} {e : Entry Value} : hasKey k e = true ↔ e.under = k := beq_iff_eq

/-- Every entry stands under the key that it has, and no two under the same. -/
structure Keyed (entries : List (Entry Value)) : Prop where
  under : ∀ e ∈ entries, e.key.key? = some e.under
  nodup : (entries.map (·.under)).Nodup

theorem Keyed.nil : Keyed [] := ⟨nofun, List.nodup_nil⟩

theorem Keyed.hashable {entries : List (Entry Value)} (h : Keyed entries) {e : Entry Value} (he : e ∈ entries) :
    e.key.hashable = true := Option.isSome_iff_exists.2 ⟨_, h.under e he⟩

section PutEntry

variable {k : Key} {key value : Value} {entries : List (Entry Value)}

/-- A key that is there stays in its place, and another one is added at the end. -/
theorem unders_putEntry (k : Key) (key value : Value) (entries : List (Entry Value)) :
    (putEntry k key value entries).map (·.under) =
      if k ∈ entries.map (·.under) then entries.map (·.under) else entries.map (·.under) ++ [k] := by
  induction entries with
  | nil => rfl
  | cons e rest ih =>
    change List.map _ (if hasKey k e then ⟨k, key, value⟩ :: rest else e :: putEntry k key value rest) = _
    by_cases he : e.under = k
    · have hmem : k ∈ (e :: rest).map (·.under) := he ▸ List.mem_cons_self
      rw [if_pos (hasKey_iff.2 he), if_pos hmem]
      exact congrArg (· :: rest.map (·.under)) he.symm
    · have hmem : k ∈ (e :: rest).map (·.under) ↔ k ∈ rest.map (·.under) :=
        List.mem_cons.trans (or_iff_right (Ne.symm he))
      rw [if_neg (he ∘ hasKey_iff.1)]
      change e.under :: (putEntry k key value rest).map (·.under) = _
      rw [ih]
      simp only [hmem]
      split <;> rfl

/-- What is in the map afterwards is the new entry or an older one under another key. -/
theorem mem_putEntry (h : (entries.map (·.under)).Nodup) {e : Entry Value}
    (he : e ∈ putEntry k key value entries) : e = ⟨k, key, value⟩ ∨ e ∈ entries ∧ e.under ≠ k := by
  induction entries with
  | nil => exact .inl (List.mem_singleton.1 he)
  | cons c rest ih =>
    obtain ⟨hnew, hrest⟩ := List.nodup_cons.1 h
    change e ∈ (if hasKey k c then ⟨k, key, value⟩ :: rest else c :: putEntry k key value rest) at he
    split at he
    · next hc =>
      rcases List.mem_cons.1 he with he | he
      · exact .inl he
      · refine .inr ⟨List.mem_cons_of_mem _ he, fun hk => hnew ?_⟩
        exact List.mem_map.2 ⟨e, he, hk.trans (hasKey_iff.1 hc).symm⟩
    · next hc =>
      rcases List.mem_cons.1 he with rfl | he
      · exact .inr ⟨List.mem_cons_self, fun hk => hc (hasKey_iff.2 hk)⟩
      · exact (ih hrest he).imp_right fun h => ⟨List.mem_cons_of_mem _ h.1, h.2⟩

/-- **A pair put under the key that it has.** -/
theorem Keyed.putEntry (h : Keyed entries) (hkey : key.key? = some k) (value : Value) :
    Keyed (putEntry k key value entries) where
  under e he := by
    rcases mem_putEntry h.nodup he with rfl | ⟨he, -⟩
    · exact hkey
    · exact h.under e he
  nodup := by
    rw [unders_putEntry]
    split
    · exact h.nodup
    · next hk => exact List.nodup_append.2 ⟨h.nodup, List.nodup_singleton _, by grind⟩

end PutEntry

/-- An entry is the one that is found under its key. -/
theorem Keyed.find?_eq_some {entries : List (Entry Value)} (h : Keyed entries) {e : Entry Value}
    (he : e ∈ entries) : entries.find? (fun c => c.under == e.under) = some e := by
  cases hfind : entries.find? fun c => c.under == e.under with
  | none => exact absurd (beq_self_eq_true _) (List.find?_eq_none.1 hfind e he)
  | some c =>
    have hkey := List.find?_some hfind
    rw [List.inj_on_of_nodup_map h.nodup (List.mem_of_find?_eq_some hfind) he (eq_of_beq hkey)]

/-! ## Pairs one after the other -/

/-- The keys of pairs of values, in their order. -/
def keysOf (pairs : List (Value × Value)) : List Key := pairs.filterMap (·.1.key?)

theorem mem_keysOf {k : Key} {pairs : List (Value × Value)} :
    k ∈ keysOf pairs ↔ ∃ p ∈ pairs, p.1.key? = some k := List.mem_filterMap

theorem keysOf_append (pairs pairs' : List (Value × Value)) :
    keysOf (pairs ++ pairs') = keysOf pairs ++ keysOf pairs' :=
  List.filterMap_append

theorem keysOf_singleton {k : Key} {key value : Value} (hkey : key.key? = some k) :
    keysOf [(key, value)] = [k] :=
  List.filterMap_cons_some hkey

/-- The keys of entries are those that they stand under. -/
theorem keysOf_pairs {entries : List (Entry Value)} (h : Keyed entries) :
    keysOf (entries.map Entry.pair) = entries.map (·.under) := by
  rw [keysOf, List.filterMap_map]
  exact List.filterMap_eq_map_iff_forall_eq_some.2 h.under

/-- Where nothing occurs twice, there is nothing to erase. -/
theorem eraseDups_of_nodup {α : Type} [BEq α] [LawfulBEq α] : ∀ {l : List α}, l.Nodup → l.eraseDups = l
  | [], _ => rfl
  | a :: l, h => by
    obtain ⟨ha, hl⟩ := List.nodup_cons.1 h
    have hfilter : l.filter (fun b => !b == a) = l := List.filter_eq_self.2 (by grind)
    rw [List.eraseDups_cons, hfilter, eraseDups_of_nodup hl]

/-- What pairs come to: an entry for each key, where it first occurs, which is the last pair under that
key. -/
structure LastWins (pairs : List (Value × Value)) (entries : List (Entry Value)) : Prop
    extends Keyed entries where
  keys : entries.map (·.under) = (keysOf pairs).eraseDups
  last : ∀ e ∈ entries, ∃ before after, pairs = before ++ e.pair :: after ∧ e.under ∉ keysOf after

namespace LastWins

variable {pairs : List (Value × Value)} {entries : List (Entry Value)} {k : Key} {key value : Value}

theorem nil : LastWins [] [] := ⟨.nil, rfl, nofun⟩

/-- There is an entry under each key that was given, and under no other. -/
theorem mem_unders (h : LastWins pairs entries) : k ∈ entries.map (·.under) ↔ k ∈ keysOf pairs := by
  rw [h.keys, List.mem_eraseDups]

/-- **One more pair.** -/
theorem putEntry (h : LastWins pairs entries) (hkey : key.key? = some k) (value : Value) :
    LastWins (pairs ++ [(key, value)]) (putEntry k key value entries) where
  toKeyed := h.toKeyed.putEntry hkey value
  keys := by
    rw [unders_putEntry, keysOf_append, keysOf_singleton hkey, List.eraseDups_append, ← h.keys]
    by_cases hk : k ∈ keysOf pairs
    · rw [if_pos (h.mem_unders.2 hk)]
      simp [List.removeAll, hk]
    · rw [if_neg (hk ∘ h.mem_unders.1)]
      simp [List.removeAll, hk, List.eraseDups_cons]
  last e he := by
    rcases mem_putEntry h.nodup he with rfl | ⟨he, hne⟩
    · exact ⟨pairs, [], rfl, List.not_mem_nil⟩
    · obtain ⟨before, after, rfl, hlast⟩ := h.last e he
      refine ⟨before, after ++ [(key, value)], by simp, ?_⟩
      rw [keysOf_append, keysOf_singleton hkey, List.mem_append]
      rintro (hmem | hmem)
      · exact hlast hmem
      · exact hne (List.mem_singleton.1 hmem)

/-- The last pair under a key is the only one that no other follows. -/
theorem eq_of_last {before after before' after' : List (Value × Value)} {p q : Value × Value}
    (h : before ++ p :: after = before' ++ q :: after') (hpk : p.1.key? = some k) (hqk : q.1.key? = some k)
    (hp : k ∉ keysOf after) (hq : k ∉ keysOf after') : p = q := by
  have hfind (before after : List (Value × Value)) {p : Value × Value} (hpk : p.1.key? = some k)
      (hp : k ∉ keysOf after) :
      (before ++ p :: after).reverse.find? (fun e => e.1.key? == some k) = some p := by
    rw [List.find?_eq_some_iff_append]
    refine ⟨beq_iff_eq.2 hpk, after.reverse, before.reverse, by simp, fun e he => ?_⟩
    simpa using fun hk => hp (mem_keysOf.2 ⟨e, List.mem_reverse.1 he, hk⟩)
  have hp := hfind before after hpk hp
  rw [h, hfind before' after' hqk hq] at hp
  exact (Option.some.inj hp).symm

/-- **Under a key there is the value of the last pair.** -/
theorem valueAt?_eq_some (h : LastWins pairs entries) {before after : List (Value × Value)}
    {p : Value × Value} (hp : pairs = before ++ p :: after) (hkey : p.1.key? = some k)
    (hlast : k ∉ keysOf after) : valueAt? k entries = some p.2 := by
  have hmem : k ∈ entries.map (·.under) := by
    rw [h.mem_unders, hp, mem_keysOf]
    exact ⟨p, List.mem_append_right _ List.mem_cons_self, hkey⟩
  obtain ⟨c, hc, hck⟩ := List.mem_map.1 hmem
  cases hfind : entries.find? (hasKey k) with
  | none => exact absurd (hasKey_iff.2 hck) (List.find?_eq_none.1 hfind c hc)
  | some e =>
    obtain rfl : e.under = k := hasKey_iff.1 (List.find?_some hfind)
    have hmem := List.mem_of_find?_eq_some hfind
    obtain ⟨before', after', hpairs, he⟩ := h.last e hmem
    rw [valueAt?, hfind, eq_of_last (hp.symm.trans hpairs) hkey (h.under e hmem) hlast he]
    rfl

/-- **Under a key without a pair there is nothing.** -/
theorem valueAt?_eq_none (h : LastWins pairs entries) (hk : k ∉ keysOf pairs) : valueAt? k entries = none := by
  have hnone : entries.find? (hasKey k) = none := by
    rw [List.find?_eq_none]
    intro e he hek
    exact hk (h.mem_unders.1 (List.mem_map.2 ⟨e, he, hasKey_iff.1 hek⟩))
  rw [valueAt?, hnone]
  rfl

/-- There are as many entries as different keys. -/
theorem length_eq (h : LastWins pairs entries) : entries.length = (keysOf pairs).toFinset.card := by
  have hfinset : (entries.map (·.under)).toFinset = (keysOf pairs).toFinset := by
    ext k
    rw [List.mem_toFinset, List.mem_toFinset, h.mem_unders]
  rw [← hfinset, List.toFinset_card_of_nodup h.nodup, List.length_map]

/-- **Pairs that are given under different keys are the entries.** -/
theorem eq_of_keyed {es : List (Entry Value)} (h : LastWins (es.map Entry.pair) entries) (hes : Keyed es) :
    entries = es := by
  have hunders : entries.map (·.under) = es.map (·.under) := by
    rw [h.keys, keysOf_pairs hes, eraseDups_of_nodup hes.nodup]
  have hlength : entries.length = es.length := by simpa using congrArg List.length hunders
  refine List.ext_getElem hlength fun i hi hi' => ?_
  have hunder : entries[i].under = es[i].under := by
    have hunder : (entries.map (·.under))[i]? = (es.map (·.under))[i]? := by rw [hunders]
    simpa [hi, hi'] using hunder
  obtain ⟨before, after, hsplit, -⟩ := h.last _ (List.getElem_mem hi)
  have hpair : entries[i].pair ∈ es.map Entry.pair := by
    rw [hsplit]
    exact List.mem_append_right _ List.mem_cons_self
  obtain ⟨e, he, hpair⟩ := List.mem_map.1 hpair
  obtain ⟨hkey, hvalue⟩ := Prod.mk.inj hpair
  -- the keys that the two stand under are those of one and the same value
  have hsame : e.under = entries[i].under := by
    rw [← Option.some_inj, ← hes.under e he, hkey, h.under _ (List.getElem_mem hi)]
  have hentry : entries[i] = e := by
    cases hx : entries[i]
    cases e
    simp_all
  rw [hentry]
  exact List.inj_on_of_nodup_map hes.nodup he (List.getElem_mem hi') (hsame.trans hunder)

end LastWins

end SepiaLang
