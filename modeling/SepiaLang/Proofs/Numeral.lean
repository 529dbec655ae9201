import Mathlib.Algebra.Group.Nat.Defs
import Mathlib.Data.List.Basic
import Mathlib.Data.List.TakeWhile
import SepiaLang.Text.Numeral

/-!
# Numerals that are read back

* `Text.readUnsigned_toDigits`, **`Text.readInt_toString`**: the decimal numeral of a natural number
  is read as the number, as long as it is not too long.
* `Text.readInt_nonneg`: without a minus sign no negative number is read.
-/

namespace SepiaLang.Text

theorem toNat_of_isDigit {c : Char} (h : c.isDigit = true) : 48 ≤ c.toNat ∧ c.toNat ≤ 57 := by
  simpa [Char.isDigit, Char.le_def, UInt32.le_iff_toNat_le] using h

/-- The digits of the first script have their usual values. -/
theorem digit?_of_isDigit {c : Char} (h : c.isDigit = true) : digit? c = some (c.toNat - 48) := by
  have hc := toNat_of_isDigit h
  have hfirst : (decide (48 ≤ c.toNat) && decide (c.toNat < 48 + 10)) = true := by
    rw [Bool.and_eq_true, decide_eq_true_eq, decide_eq_true_eq]
    omega
  obtain ⟨zs, hzeros⟩ : ∃ zs, zeros = 48 :: zs := ⟨_, rfl⟩
  rw [digit?, hzeros, List.find?_cons, hfirst]
  rfl

theorem isPadding_of_isDigit {c : Char} (h : c.isDigit = true) : isPadding c = false := by
  have hc := toNat_of_isDigit h
  have hblank : isBlank c = false := by
    simp only [isBlank, isSeparator, Bool.or_eq_false_iff, Bool.and_eq_false_iff, beq_eq_false_iff_ne,
      decide_eq_false_iff_not]
    omega
  rw [isPadding, hblank, Bool.false_and]

theorem isDigitOrMark_of_isDigit {c : Char} (h : c.isDigit = true) : isDigitOrMark c = true := by
  simp [isDigitOrMark, digit?_of_isDigit h]

/-- The value of digits is the usual one. -/
theorem ofDigits_filterMap {cs : List Char} (h : ∀ c ∈ cs, c.isDigit = true) :
    ofDigits (cs.filterMap digit?) = Nat.ofDigitChars 10 cs 0 := by
  have hmap : cs.filterMap digit? = cs.map fun c => c.toNat - 48 := by
    rw [← List.filterMap_eq_map]
    exact List.filterMap_congr fun c hc => digit?_of_isDigit (h c hc)
  rw [hmap, ofDigits, List.foldl_map]
  rfl

theorem readUnsigned_toDigits {n : Nat} (hn : n < 10 ^ maxDigits) :
    readUnsigned (Nat.toDigits 10 n) = .ok n := by
  have hdigits : ∀ c ∈ Nat.toDigits 10 n, c.isDigit = true := fun c hc =>
    Nat.isDigit_of_mem_toDigits (by decide) (by decide) hc
  have hrun : (Nat.toDigits 10 n).takeWhile isDigitOrMark = Nat.toDigits 10 n :=
    List.takeWhile_eq_self_iff.2 fun c hc => isDigitOrMark_of_isDigit (hdigits c hc)
  have hrest : (Nat.toDigits 10 n).dropWhile isDigitOrMark = [] :=
    List.dropWhile_eq_nil_iff.2 fun c hc => isDigitOrMark_of_isDigit (hdigits c hc)
  have hgroups : (Nat.toDigits 10 n).splitOnP (· == '_') = [Nat.toDigits 10 n] :=
    List.splitOnP_eq_singleton fun c hc => beq_false_of_ne fun h =>
      absurd (hdigits c hc) (by rw [h]; decide)
  have hlength : ((Nat.toDigits 10 n).filterMap digit?).length ≤ maxDigits :=
    (List.length_filterMap_le ..).trans ((Nat.length_toDigits_le_iff (by decide) (by decide)).2 hn)
  have hnil : (Nat.toDigits 10 n).isEmpty = false := by
    rw [List.isEmpty_eq_false_iff]
    exact Nat.toDigits_ne_nil
  unfold readUnsigned
  simp only [hrun, hrest, hgroups, List.any_cons, List.any_nil, hnil, Bool.or_false, Bool.false_eq_true,
    if_false, if_neg (Nat.not_lt.2 hlength), List.all_nil, if_true]
  rw [ofDigits_filterMap hdigits, Nat.ofDigitChars_ten_toDigits]

/-- **Numerals that are read back.** -/
theorem readInt_toString {n : Nat} (hn : n < 10 ^ maxDigits) :
    readInt (toString (n : Int)) = .ok (n : Int) := by
  have hlist : (toString (n : Int)).toList = Nat.toDigits 10 n := Nat.toList_repr
  have hdigits : ∀ c ∈ Nat.toDigits 10 n, c.isDigit = true := fun c hc =>
    Nat.isDigit_of_mem_toDigits (by decide) (by decide) hc
  have hread := readUnsigned_toDigits hn
  rw [readInt, hlist]
  cases hcs : Nat.toDigits 10 n with
  | nil => exact absurd hcs Nat.toDigits_ne_nil
  | cons c cs =>
    rw [hcs] at hdigits hread
    have hc := hdigits c (List.mem_cons_self ..)
    rw [List.dropWhile_cons_of_neg (by simp [isPadding_of_isDigit hc])]
    split
    next h => cases h; exact absurd hc (by decide)
    next h => cases h; exact absurd hc (by decide)
    next => rw [hread]; rfl

theorem readInt_nonneg {text : String} (h : '-' ∉ text.toList) {n : Int} (hn : readInt text = .ok n) :
    0 ≤ n := by
  have hunsigned {cs : List Char} (hcs : (readUnsigned cs).map (fun n => (n : Int)) = .ok n) : 0 ≤ n := by
    cases hread : readUnsigned cs with
    | error e =>
      rw [hread] at hcs
      cases hcs
    | ok m =>
      rw [hread] at hcs
      cases hcs
      exact Int.natCast_nonneg m
  unfold readInt at hn
  split at hn
  next hminus =>
    have hmem : '-' ∈ text.toList.dropWhile isPadding := by rw [hminus]; exact List.mem_cons_self
    exact absurd ((List.dropWhile_sublist _).mem hmem) h
  next => exact hunsigned hn
  next => exact hunsigned hn

end SepiaLang.Text
