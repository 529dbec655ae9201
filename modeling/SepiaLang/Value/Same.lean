import SepiaLang.Value.Key

/-!
# Equality of content

* `Value.same`: the two values have the same content. Identities of strings, arrays, maps and errors
  do not matter, nor does the order of the entries of maps; functions are the same only if they are
  identical.
-/

namespace SepiaLang.Value

mutual

/-- The two values have the same content. -/
def same : Value → Value → Bool
  | integer a, integer b => a == b
  | string _ a, string _ b => a == b
  | array _ as, array _ bs => sameAll as bs
  | map _ as, map _ bs => as.length == bs.length && within as bs
  | returned a, returned b => a.same b
  | error _ a, error _ b => a == b
  | a, b => a.identical b

/-- The values have the same content one by one. -/
def sameAll : List Value → List Value → Bool
  | [], [] => true
  | a :: as, b :: bs => a.same b && sameAll as bs
  | _, _ => false

/-- Every entry of the first list is in the second one, under its key. -/
def within : List (Entry Value) → List (Entry Value) → Bool
  | [], _ => true
  | ⟨under, k, v⟩ :: rest, entries =>
    (match entries.find? fun entry => entry.under == under with
      | some ⟨_, k', v'⟩ => k.same k' && v.same v'
      | none => false) && within rest entries

end

end SepiaLang.Value
