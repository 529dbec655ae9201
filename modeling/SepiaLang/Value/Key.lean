import SepiaLang.Assoc
import SepiaLang.Value.Basic

/-!
# Keys of maps

Integers, booleans and strings can be keys. Two keys are the same if they agree in type and content,
so that `1`, `true` and `"1"` are three keys.

* `Value.key?`: the key that a value is.
* `putEntry`, `valueAt?`: the entries of a map.
-/

namespace SepiaLang

/-- The key that a value is. Other values cannot be keys. -/
def Value.key? : Value → Option Key
  | integer n => some (.integer n)
  | boolean b => some (.boolean b)
  | string _ text => some (.string text)
  | _ => none

/-- The value can be a key. -/
def Value.hashable (v : Value) : Bool := v.key?.isSome

/-- The entry stands under the given key. -/
def hasKey (k : Key) (entry : Entry Value) : Bool := entry.under == k

/-- Puts an entry under the key `k`. An older entry under it is replaced in its place, the value it
has for key included. -/
def putEntry (k : Key) (key value : Value) (entries : List (Entry Value)) : List (Entry Value) :=
  Assoc.put (hasKey k) { under := k, key, value } entries

/-- The value under a key. -/
def valueAt? (k : Key) (entries : List (Entry Value)) : Option Value :=
  (entries.find? (hasKey k)).map (·.value)

end SepiaLang
