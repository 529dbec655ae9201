import SepiaLang.Json.Binary64

/-!
# Shortest decimals

A floating-point number is written with the fewest digits that read back to it, and of those with
the digits nearest to it. Numbers of up to sixteen digits before the point, and of up to three zeros
after it, are written out, all others with an exponent of at least two digits.

* `Decimal`: digits and an exponent.
* `shortest?`: the shortest decimal of a number.
* **`toBinary64_of_shortest?`**: it reads back to that number.
* `Decimal.text`, `Binary64.render`: how decimals and numbers are written.
-/

namespace SepiaLang

/-- The decimal `digits * 10 ^ exponent`. -/
structure Decimal where
  digits : Nat
  exponent : Int
  deriving DecidableEq, Repr

/-- The number that a decimal reads back to. -/
def Decimal.toBinary64 (negative : Bool) (d : Decimal) : Binary64 :=
  Binary64.ofDecimal negative d.digits d.exponent

/-! ## Which digits -/

/-- How many decimal digits a natural number has. -/
def digitCount (n : Nat) : Nat := (Nat.toDigits 10 n).length

/-- The least `k` for which the quotient of `num` and `den`, which is not zero, is below `10 ^ k`.
-/
def magnitude (num den : Nat) : Int :=
  if den ≤ num then digitCount (num / den) else 1 - digitCount ((den - 1) / num)

/-- The two multiples of `10 ^ exponent` that a quotient lies between, the nearer one first, and of
two that are equally near the even one. -/
def neighbours (num den : Nat) (exponent : Int) : List Decimal :=
  let (n, d) := Binary64.scaled 10 num den exponent
  let near := Binary64.roundQuotient n d
  let far := if near = n / d then near + 1 else n / d
  [{ digits := near, exponent }, { digits := far, exponent }]

/-- The shortest decimal that reads back to `x`, which is near the quotient of `num` and `den`, the
nearest one if there are several. Seventeen digits are enough for every number. -/
def shortest? (negative : Bool) (x : Binary64) (num den : Nat) : Option Decimal :=
  (List.range 17).findSome? fun (n : Nat) =>
    (neighbours num den (magnitude num den - (n + 1))).find? (·.toBinary64 negative == x)

/-- **The shortest decimal reads back to the number.** -/
theorem toBinary64_of_shortest? {negative : Bool} {x : Binary64} {num den : Nat} {d : Decimal}
    (h : shortest? negative x num den = some d) : d.toBinary64 negative = x := by
  obtain ⟨n, _, hn⟩ := List.exists_of_findSome?_eq_some h
  have hd := List.find?_some hn
  exact eq_of_beq hd

/-- The shortest decimal of `mantissa * 2 ^ exponent`, which is not zero. If there were none of
seventeen digits, it would be the one that is exactly equal. -/
def decimalOf (negative : Bool) (mantissa : Nat) (exponent : Int) : Decimal :=
  let x := Binary64.finite negative mantissa exponent
  if exponent < 0 then
    (shortest? negative x mantissa (Nat.pow 2 exponent.natAbs)).getD
      { digits := mantissa * Nat.pow 5 exponent.natAbs, exponent }
  else
    (shortest? negative x (mantissa * Nat.pow 2 exponent.natAbs) 1).getD
      { digits := mantissa * Nat.pow 2 exponent.natAbs, exponent := 0 }

/-! ## How they are written -/

/-- Zeros, as many as an integer says. -/
def zeros (n : Int) : List Char := List.replicate n.toNat '0'

/-- An exponent with its sign and at least two digits. -/
def exponentText (e : Int) : List Char :=
  let digits := Nat.toDigits 10 e.natAbs
  (if e < 0 then '-' else '+') :: zeros (2 - digits.length) ++ digits

/-- Digits with a point after the first one, if there are more, and an exponent. -/
def scientificText (digits : List Char) (e : Int) : List Char :=
  let tail := if digits.length ≤ 1 then [] else '.' :: digits.tail
  digits.take 1 ++ tail ++ 'e' :: exponentText e

/-- Digits with a point after the first `point` of them, and zeros where there are none. -/
def positionalText (digits : List Char) (point : Int) : List Char :=
  if point ≤ 0 then '0' :: '.' :: zeros (-point) ++ digits
  else if digits.length ≤ point then digits ++ zeros (point - digits.length) ++ ['.', '0']
  else digits.take point.toNat ++ '.' :: digits.drop point.toNat

/-- How a decimal is written. Zeros at the end of its digits are left out. -/
def Decimal.text (d : Decimal) : String :=
  let all := Nat.toDigits 10 d.digits
  let digits := (all.reverse.dropWhile (· == '0')).reverse
  let point : Int := all.length + d.exponent
  String.ofList
    (if -4 < point ∧ point ≤ 16 then positionalText digits point
     else scientificText digits (point - 1))

/-- How a number is written. Zero keeps its sign. -/
def Binary64.render : Binary64 → String
  | nan => "nan"
  | infinite negative => if negative then "-inf" else "inf"
  | finite negative mantissa exponent =>
    let size := if mantissa = 0 then "0.0" else (decimalOf negative mantissa exponent).text
    if negative then "-" ++ size else size

end SepiaLang
