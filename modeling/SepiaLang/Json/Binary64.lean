/-!
# Binary floating point

The numbers of a JSON text that are written with a point or an exponent are read as floating-point
numbers of 64 bits: the nearest one with 53 significant bits, and of two nearest ones the even one.

* `Binary64`: a number, kept exactly.
* `Binary64.ofDecimal`: the number nearest to a decimal.
* `Binary64.truncate`: the integer part.
-/

namespace SepiaLang

/-- A floating-point number: `mantissa * 2 ^ exponent` with a sign, an infinity, or no number. Every
number is read into one form only: the mantissa has 53 bits, or fewer with the smallest exponent,
and zero has the exponent zero. -/
inductive Binary64 where
  | finite (negative : Bool) (mantissa : Nat) (exponent : Int)
  | infinite (negative : Bool)
  | nan
  deriving DecidableEq, Repr

namespace Binary64

/-- The natural number nearest to a quotient, and of two the even one. -/
def roundQuotient (num den : Nat) : Nat :=
  let q := num / den
  let twice := 2 * (num % den)
  if twice < den then q
  else if den < twice then q + 1
  else if q % 2 = 0 then q else q + 1

/-- The quotient of `num` and `den * base ^ exponent` as two natural numbers. -/
def scaled (base num den : Nat) (exponent : Int) : Nat × Nat :=
  if exponent < 0 then (num * base.pow exponent.natAbs, den)
  else (num, den * base.pow exponent.natAbs)

/-- The exponent of the last bit that a number near the quotient of `num` and `den` has: 53 bits are
kept, down to the smallest exponent there is. -/
def lastBit (num den : Nat) : Int :=
  let guess : Int := (Nat.log2 num : Int) - (Nat.log2 den : Int) - 52
  let (n, d) := scaled 2 num den guess
  let exact := if n < d * 0x10000000000000 then guess - 1 else guess
  max exact (-1074)

/-- The number `mantissa * 2 ^ exponent` for a mantissa of at most 53 bits or `2 ^ 53`, in its one
form. Beyond the largest exponent there is an infinity. -/
def normal (negative : Bool) (mantissa : Nat) (exponent : Int) : Binary64 :=
  if mantissa = 0 then finite negative 0 0
  else
    let (m, e) := if mantissa = 0x20000000000000 then (0x10000000000000, exponent + 1)
      else (mantissa, exponent)
    if e > 971 then infinite negative else finite negative m e

/-- The number nearest to the quotient of two natural numbers, the second one not zero. -/
def ofQuotient (negative : Bool) (num den : Nat) : Binary64 :=
  if num = 0 then finite negative 0 0
  else
    let exponent := lastBit num den
    let (n, d) := scaled 2 num den exponent
    normal negative (roundQuotient n d) exponent

/-- The number nearest to `digits * 10 ^ exponent`. Exponents far outside the range are settled at
once. -/
def ofDecimal (negative : Bool) (digits : Nat) (exponent : Int) : Binary64 :=
  let size : Int := (Nat.toDigits 10 digits).length + exponent
  if digits = 0 ∨ size < -400 then finite negative 0 0
  else if size > 400 then infinite negative
  else if exponent < 0 then ofQuotient negative digits (Nat.pow 10 exponent.natAbs)
  else ofQuotient negative (digits * Nat.pow 10 exponent.natAbs) 1

/-- The number is zero. -/
def isZero : Binary64 → Bool
  | finite _ mantissa _ => mantissa == 0
  | _ => false

/-- Puts a sign in front. -/
def withSign (negative : Bool) (n : Nat) : Int := if negative then -(n : Int) else n

/-- The integer part of `mantissa * 2 ^ exponent`. -/
def truncate (negative : Bool) (mantissa : Nat) (exponent : Int) : Int :=
  if exponent < 0 then withSign negative (mantissa / Nat.pow 2 exponent.natAbs)
  else withSign negative (mantissa * Nat.pow 2 exponent.natAbs)

end Binary64

end SepiaLang
