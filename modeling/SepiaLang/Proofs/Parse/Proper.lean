import SepiaLang.Proofs.Parse.Built
import SepiaLang.Proofs.Parse.NestingLimit
import SepiaLang.Proofs.Parse.Spelling

/-!
# What is read is in order

Whatever a text looks like, the program that is read from it makes sense: a node has all the parts that
it needs, names are names, operators are operators, and numbers are words. Where a statement was given
up there is a problem that tells of it.

* `Node.Occurs`, `Node.Complete`: the nodes of a tree, and that none of them lacks a part.
* `Node.Proper`: what a node is written with makes sense.
* `mem_operators_of_writes`: how operators are written.
* **`Built.proper`**, **`Built.complete`**: trees that are built from the tokens of a text.
* `Reports`: what the reader gives up it reports. **`reports_statement`**: so do statements.
-/

namespace SepiaLang

namespace Node

variable {α β : Type}

/-- The first tree occurs in the second one. -/
inductive Occurs : Node α → Node α → Prop
  | self (n : Node α) : Occurs n n
  | inside {k n m : Node α} (hm : m ∈ n.children) (h : Occurs k m) : Occurs k n

/-- No node of the tree lacks a part that it needs. -/
def Complete (n : Node α) : Prop := ∀ m : Node α, m.Occurs n → m ≠ absent → ∀ c ∈ m.needed, c ≠ absent

theorem Complete.child {n m : Node α} (h : n.Complete) (hm : m ∈ n.children) : m.Complete :=
  fun k hk => h k (.inside hm hk)

theorem Occurs.of_strip {n : Node α} {m : Node Unit} (h : m.Occurs n.strip) :
    ∃ k : Node α, k.Occurs n ∧ m = k.strip := by
  generalize hn : n.strip = n' at h
  induction h generalizing n with
  | self => exact ⟨n, .self n, hn.symm⟩
  | inside hm _ ih =>
    rw [← hn, strip, children_mapNotes] at hm
    obtain ⟨c, hc, rfl⟩ := List.mem_map.1 hm
    obtain ⟨k, hk, rfl⟩ := ih rfl
    exact ⟨k, .inside hc hk, rfl⟩

theorem strip_eq_absent {n : Node α} : n.strip = absent ↔ n = absent := by
  constructor
  · intro h
    cases n with
    | absent => rfl
    | _ => cases h
  · rintro rfl
    rfl

/-- Notes are no parts of a tree. -/
theorem Complete.strip {n : Node α} (h : n.Complete) : n.strip.Complete := by
  intro m hm hne c hc
  obtain ⟨k, hk, rfl⟩ := hm.of_strip
  rw [Node.strip, needed_mapNotes] at hc
  obtain ⟨c, hneeded, rfl⟩ := List.mem_map.1 hc
  have hpresent := h k hk (fun hk' => hne (strip_eq_absent.2 hk')) c hneeded
  exact fun h' => hpresent (strip_eq_absent.1 h')

end Node

/-- The text is a word that is no keyword. -/
structure IsName (x : String) : Prop where
  ne_empty : x ≠ ""
  letters : ∀ c ∈ x.toList, isLetter c = true
  no_keyword : x ∉ Kind.keywords.map (·.1)

/-- What the node itself is written with makes sense: its name, its operator, its literal. -/
def Node.Proper {α : Type} : Node α → Prop
  | integer _ n => 0 ≤ n ∧ n ≤ Word64.greatest
  | string _ text => '"' ∉ text.toList
  | identifier _ x => IsName x
  | valueStmt _ x _ | updateStmt _ x _ => IsName x.text
  | function _ params _ => ∀ x ∈ params, IsName x.text
  | unary _ op _ => op ∈ prefixOperators.map (·.1)
  | binary _ op _ _ => op ∈ infixOperators.map (·.1)
  | _ => True

namespace Parse

/-! ## Lexemes -/

/-- All operators, and the kinds of their tokens. -/
def operators : List (String × Kind) := prefixOperators ++ infixOperators

theorem single?_not_operator {c : Char} {kind : Kind} (h : single? c = some kind) :
    kind ∉ prefixKinds ++ infixKinds := by
  unfold single? at h
  split at h <;> cases h <;> decide

theorem compound?_operators {c : Char} {longer : List (Char × Kind)} {alone : Kind}
    (h : compound? c = some (longer, alone)) :
    (alone ∈ prefixKinds ++ infixKinds → (String.ofList [c], alone) ∈ operators) ∧
      ∀ p ∈ longer, p.2 ∈ prefixKinds ++ infixKinds → (String.ofList [c, p.1], p.2) ∈ operators := by
  unfold compound? at h
  split at h <;> cases h <;> decide

/-- **How operators are written.** -/
theorem mem_operators_of_writes {kind : Kind} {literal : String} {written after : List Char}
    (h : Writes kind literal written after) (hk : kind ∈ prefixKinds ++ infixKinds) :
    (literal, kind) ∈ operators := by
  cases h with
  | single hc => exact absurd hk (single?_not_operator hc)
  | pair hc hd => exact (compound?_operators hc).2 _ (Assoc.mem_of_lookup hd) hk
  | alone hc => exact (compound?_operators hc).1 hk
  | word =>
    have hwords : ∀ p ∈ Kind.keywords, p.2 ∈ prefixKinds ++ infixKinds → p ∈ operators := by decide
    unfold Kind.ofWord at hk ⊢
    cases hword : Kind.keywords.lookup (String.ofList written) with
    | none =>
      rw [hword] at hk
      exact absurd hk (by decide)
    | some kind =>
      rw [hword] at hk
      exact hwords _ (Assoc.mem_of_lookup hword) hk
  | number | string | openString | illegal => exact absurd hk (by decide)

namespace Lexed

variable {t : Token} (ht : Lexed t)
include ht

theorem isName (hk : t.kind = .ident) : IsName t.literal := by
  obtain ⟨written, after, hwrites⟩ := ht (by rw [hk]; decide)
  rw [hk] at hwrites
  rcases hwrites.kind_cases (by decide) with ⟨-, hne, hletters, hliteral, hword⟩ | ⟨h, -⟩ | ⟨h, -⟩
  · rw [hliteral] at hword ⊢
    refine ⟨fun h => hne ?_, by rwa [String.toList_ofList], fun hkey => ?_⟩
    · rw [← String.toList_ofList (l := written), h]
      rfl
    · -- a keyword has a kind of its own
      have hkeywords : ∀ x ∈ Kind.keywords.map (·.1), Kind.ofWord x ≠ .ident := by decide
      exact hkeywords _ hkey hword.symm
  · cases h
  · cases h

theorem unquoted (hk : t.kind = .string) : '"' ∉ t.literal.toList := by
  obtain ⟨written, after, hwrites⟩ := ht (by rw [hk]; decide)
  rw [hk] at hwrites
  rcases hwrites.kind_cases (by decide) with ⟨h, -⟩ | ⟨h, -⟩ | ⟨-, hquote⟩
  · cases h
  · cases h
  · exact hquote

theorem mem_operators (hk : t.kind ∈ prefixKinds ++ infixKinds) : (t.literal, t.kind) ∈ operators := by
  obtain ⟨written, after, hwrites⟩ := ht (kind_ne_of_mem hk (by decide))
  exact mem_operators_of_writes hwrites hk

theorem prefixOperator (hk : t.kind ∈ prefixKinds) : t.literal ∈ prefixOperators.map (·.1) := by
  have htable : ∀ p ∈ operators, p.2 ∈ prefixKinds → p.1 ∈ prefixOperators.map (·.1) := by decide
  exact htable _ (ht.mem_operators (List.mem_append_left _ hk)) hk

theorem infixOperator (hk : t.kind ∈ infixKinds) : t.literal ∈ infixOperators.map (·.1) := by
  have htable : ∀ p ∈ operators, p.2 ∈ infixKinds → p.1 ∈ infixOperators.map (·.1) := by decide
  exact htable _ (ht.mem_operators (List.mem_append_right _ hk)) hk

end Lexed

/-! ## Trees -/

theorem Named.isName {x : Ident Token} (h : Named Lexed x) : IsName x.text := by
  obtain ⟨t, ht, hk, rfl⟩ := h
  exact ht.isName hk

/-- **What is built from lexemes makes sense.** -/
theorem Built.proper {n : Node Token} (h : Built Lexed n) : n.Proper := by
  cases h with
  | integer ht hk hn hle => exact ⟨ht.nonneg hk hn, hle⟩
  | string ht hk => exact ht.unquoted hk
  | identifier ht hk => exact ht.isName hk
  | valueStmt hx | updateStmt hx => exact hx.isName
  | function hxs => exact fun x hx => (hxs x hx).isName
  | unary ht hk => exact ht.prefixOperator hk
  | binary ht hk => exact ht.infixOperator hk
  | _ => trivial

theorem Built.occurs {P : Token → Prop} {n m : Node Token} (h : Built P n) (hm : m.Occurs n)
    (hne : m ≠ .absent) : Built P m := by
  induction hm with
  | self => exact h
  | inside hm hk ih =>
    refine ih (h.child hm ?_)
    rintro rfl
    -- nothing occurs in a missing node but itself
    cases hk with
    | self => exact hne rfl
    | inside hm _ => cases hm

/-- **What is built lacks no part.** -/
theorem Built.complete {P : Token → Prop} {n : Node Token} (h : Built P n) : n.Complete :=
  fun _ hm hne _ hc => ((h.occurs hm hne).part hc).ne_absent

/-! ## Problems -/

open SepiaLang.Computation

variable {α β : Type}

/-- The second state has the problems of the first one and more. -/
def State.Reported (s s' : State) : Prop :=
  ∃ p more, s'.problems.toList = s.problems.toList ++ p :: more

namespace State

variable {s s₁ s' : State}

theorem reported_report (s : State) (p : Problem) : s.Reported (s.report p) :=
  ⟨p, [], by rw [problems_report, Array.toList_push]⟩

theorem Reported.keptBy (h : s.Reported s₁) (h' : s₁.KeptBy s') : s.Reported s' := by
  obtain ⟨p, more, hp⟩ := h
  obtain ⟨later, hlater⟩ := h'
  exact ⟨p, more ++ later, by rw [← hlater, hp, List.append_assoc, List.cons_append]⟩

theorem KeptBy.reported (h : s.KeptBy s₁) (h' : s₁.Reported s') : s.Reported s' := by
  obtain ⟨earlier, hearlier⟩ := h
  obtain ⟨p, more, hp⟩ := h'
  cases earlier with
  | nil => exact ⟨p, more, by rw [hp, ← hearlier, List.append_nil]⟩
  | cons q earlier => exact ⟨q, earlier ++ p :: more, by rw [hp, ← hearlier, List.append_assoc]; rfl⟩

end State

/-- The reader never forgets a problem, and where it gives up it has reported one. -/
structure Reports (r : Reader α) : Prop where
  kept : ∀ s : State, s.KeptBy (r s).2
  rejected : ∀ s s' : State, r s = (.error .rejected, s') → s.Reported s'

namespace Reports

theorem of_ok {r : Reader α} (h : ∀ s : State, s.KeptBy (r s).2)
    (hok : ∀ s : State, (r s).1 ≠ .error .rejected) : Reports r :=
  ⟨h, fun s _ hs => absurd (congrArg Prod.fst hs) (hok s)⟩

theorem pure (a : α) : Reports (Pure.pure a : Reader α) := .of_ok .refl fun _ => nofun

theorem tooDeep : Reports (throw .tooDeep : Reader α) := .of_ok .refl fun _ => nofun

/-- **One reader after the other.** -/
theorem bind {r : Reader α} {f : α → Reader β} (hr : Reports r) (hf : ∀ a, Reports (f a)) :
    Reports (r >>= f) where
  kept := kept_bind hr.kept fun a => (hf a).kept
  rejected s s' hs := by
    have h := hr.kept s
    rw [bind_apply] at hs
    rcases hx : r s with ⟨e | a, s₁⟩ <;> rw [hx] at h hs
    · cases hs
      exact hr.rejected s s' hx
    · exact h.reported ((hf a).rejected s₁ s' hs)

theorem traced (phrase : Phrase) {r : Reader α} (h : Reports r) : Reports (Parse.traced phrase r) where
  kept s := h.kept (s.enter phrase)
  rejected s s' hs := by
    obtain ⟨hresult, rfl⟩ := Prod.mk.inj hs
    exact h.rejected (s.enter phrase) (r (s.enter phrase)).2 (Prod.ext hresult rfl)

theorem attempt {r : Reader α} (h : Reports r) : Reports (Parse.attempt r) := by
  refine .of_ok (fun s => ?_) fun s => ?_
  · rw [Echo.attempt_apply]
    exact h.kept s
  · unfold Parse.attempt
    rcases r s with ⟨(_ | _) | a, s'⟩ <;> exact nofun

/-- A phrase that was given up is reported, whatever is passed over after it. -/
theorem regardless {r : Reader α} {after : Reader Unit} (make : α → β) (hr : Reports r)
    (hafter : Reports after) : Reports (Parse.regardless r after make) where
  kept := by
    refine kept_bind hr.attempt.kept fun found => kept_bind hafter.kept fun _ s => ?_
    cases found with
    | some a => exact .refl s
    | none => exact .refl s
  rejected s s' hs := by
    have hkept := hr.kept s
    rw [Parse.regardless, bind_apply, Parse.attempt] at hs
    rcases hx : r s with ⟨(_ | _) | a, s₁⟩ <;> rw [hx] at hs hkept
    · have hlater := hafter.kept s₁
      have hs : (after >>= fun _ => (throw .rejected : Reader β)) s₁ = (.error .rejected, s') := hs
      have hend : (after s₁).2 = s' := by
        rw [bind_apply] at hs
        rcases hy : after s₁ with ⟨e | u, s₂⟩ <;> rw [hy] at hs <;> cases hs <;> rfl
      rw [hend] at hlater
      exact (hr.rejected s s₁ hx).keptBy hlater
    · cases hs
    · have hafter' : Reports (after >>= fun _ => (Pure.pure (make a) : Reader β)) :=
        hafter.bind fun _ => .pure _
      exact hkept.reported (hafter'.rejected s₁ s' hs)

end Reports

theorem compatible_reports : Compatible fun _ r _ => Reports r where
  pure := .pure
  bind := .bind
  current := .of_ok .refl fun _ => nofun
  ahead := .of_ok .refl fun _ => nofun
  consume := .of_ok (fun s => (State.KeptBy.refl s).consume) fun _ => nofun
  report p := .of_ok (fun s => (State.KeptBy.refl s).report p) fun _ => nofun
  reject p := ⟨fun s => (State.KeptBy.refl s).report p, fun s s' hs => by cases hs; exact s.reported_report p⟩
  budget _ _ h := ⟨fun s => (h s.budget).kept s, fun s => (h s.budget).rejected s⟩
  traced phrase _ _ h := h.traced phrase
  attempt h := h.attempt
  regardless make hr ha := hr.regardless make ha

/-- **A statement that is given up is reported**, at the top and in blocks. -/
theorem reports_statement (depth : Nat) : Reports (statement (expression depth)) :=
  related_statement compatible_reports (related_itself compatible_reports .tooDeep depth)

end Parse

end SepiaLang
