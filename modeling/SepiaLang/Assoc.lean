/-!
# Association lists in order of insertion

* `put`: a new entry in the place of the old one, or at the end.
* `eq_or_mem_of_mem_put`: nothing else comes in.
* `find?_put_self`, `find?_put_of_disjoint`: what a look-up sees afterwards.
* `mem_of_lookup`: what a look-up finds is in the list.
-/

namespace SepiaLang.Assoc

variable {α : Type}

/-- Replaces the first element that satisfies `p` by `a`, or adds `a` at the end if there is none.
-/
def put (p : α → Bool) (a : α) : List α → List α
  | [] => [a]
  | b :: rest => if p b then a :: rest else b :: put p a rest

/-- What is in the list afterwards was put or was there before. -/
theorem eq_or_mem_of_mem_put {p : α → Bool} {a b : α} {l : List α} (h : b ∈ put p a l) :
    b = a ∨ b ∈ l := by
  induction l with
  | nil => exact Or.inl (List.mem_singleton.1 h)
  | cons c rest ih =>
    rw [put] at h
    split at h
    · rcases List.mem_cons.1 h with rfl | h
      · exact Or.inl rfl
      · exact Or.inr (List.mem_cons_of_mem _ h)
    · rcases List.mem_cons.1 h with rfl | h
      · exact Or.inr List.mem_cons_self
      · exact (ih h).imp_right (List.mem_cons_of_mem _)

/-- A look-up for what was put finds it. -/
theorem find?_put_self (p : α → Bool) (a : α) (h : p a = true) (l : List α) :
    (put p a l).find? p = some a := by
  induction l with
  | nil => simp [put, h]
  | cons b rest ih => by_cases hb : p b <;> simp [put, hb, h, ih]

/-- A look-up for something else sees no change. -/
theorem find?_put_of_disjoint (p q : α → Bool) (a : α) (ha : q a = false)
    (hpq : ∀ b, p b = true → q b = false) (l : List α) : (put p a l).find? q = l.find? q := by
  induction l with
  | nil => simp [put, ha]
  | cons b rest ih =>
    by_cases hb : p b
    · simp [put, hb, ha, hpq b hb]
    · cases hq : q b <;> simp [put, hb, hq, ih]

/-- What a look-up finds is in the list. -/
theorem mem_of_lookup {α β : Type} [BEq α] [LawfulBEq α] {a : α} {b : β} {l : List (α × β)}
    (h : l.lookup a = some b) : (a, b) ∈ l := by
  obtain ⟨l₁, l₂, rfl, -⟩ := List.lookup_eq_some_iff.1 h
  exact List.mem_append_right _ List.mem_cons_self

end SepiaLang.Assoc
