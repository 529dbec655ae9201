/-!
# Signed words of 64 bits

The integers of the language are the signed words of 64 bits, kept as unbounded integers and brought
back into range by every operation.

* `Word64.wrap`: the word that an integer is congruent to.
* `Word64.divide?`: division toward zero, where there is a divisor.
-/

namespace SepiaLang.Word64

/-- The largest word. -/
def greatest : Int := 0x7fffffffffffffff

/-- The smallest word. -/
def least : Int := -0x8000000000000000

/-- The integer is a word. -/
def InRange (n : Int) : Prop := least ≤ n ∧ n ≤ greatest

instance (n : Int) : Decidable (InRange n) := inferInstanceAs (Decidable (_ ∧ _))

/-- The word that `n` is congruent to modulo `2 ^ 64`. -/
def wrap (n : Int) : Int := n.bmod 0x10000000000000000

/-- Division toward zero, brought into range: the quotient of the smallest word by minus one is not
a word. There is no quotient by zero. -/
def divide? (a b : Int) : Option Int := if b = 0 then none else some (wrap (a.tdiv b))

/-- Every result of `wrap` is a word. -/
theorem inRange_wrap (n : Int) : InRange (wrap n) := by
  have h₁ := @Int.le_bmod n 0x10000000000000000 (by decide)
  have h₂ := @Int.bmod_lt n 0x10000000000000000 (by decide)
  unfold InRange wrap least greatest
  omega

/-- A word stays as it is. -/
theorem wrap_eq_self {n : Int} (h : InRange n) : wrap n = n := by
  unfold InRange least greatest at h
  unfold wrap
  rw [Int.bmod_eq_of_le] <;> omega

end SepiaLang.Word64
