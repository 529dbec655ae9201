import Mathlib.Algebra.Group.Int.Defs
import SepiaLang.Proofs.Identity.Equality

/-!
# Arithmetic on words

The operators on integers are those on signed words of 64 bits, as the machine has them: every operation
of the evaluator brings its result back into range by itself, and what comes out is as if the exact
result had been brought into range once, at the end.

* `Word64.wrap_eq_toInt`: bringing into range is going through the words.
* `Operands`, `eval_binary_integers`, `eval_unary_integer`: an operator applied to integers.
* `Steps`, `steps_integer`: `++` and `--`, which a name is bound anew by.
* `Formula`: sums, differences, products and negations of literals, with their exact value.
* `eval_formula`: the value of a formula.
* **`integer_arithmetic`**: all operators.
-/

namespace SepiaLang

open SepiaLang.Computation

/-! ## Words -/

namespace Word64

/-- The word that an integer is congruent to, as an integer. -/
theorem wrap_eq_toInt (n : Int) : wrap n = (Int64.ofInt n).toInt := Int64.toInt_ofInt.symm

/-- Integers come to the same if they have the same word. -/
theorem wrap_eq_wrap_iff {a b : Int} : wrap a = wrap b ↔ Int64.ofInt a = Int64.ofInt b := by
  rw [wrap_eq_toInt, wrap_eq_toInt, Int64.toInt_inj]

/-- Every integer in range is the value of a word. -/
theorem exists_toInt_eq {n : Int} (h : InRange n) : ∃ w : Int64, w.toInt = n :=
  ⟨.ofInt n, by rw [← wrap_eq_toInt, wrap_eq_self h]⟩

variable (w v : Int64)

theorem wrap_add_toInt : wrap (w.toInt + v.toInt) = (w + v).toInt := (Int64.toInt_add w v).symm

theorem wrap_sub_toInt : wrap (w.toInt - v.toInt) = (w - v).toInt := (Int64.toInt_sub w v).symm

theorem wrap_mul_toInt : wrap (w.toInt * v.toInt) = (w * v).toInt := (Int64.toInt_mul w v).symm

theorem wrap_neg_toInt : wrap (-w.toInt) = (-w).toInt := (Int64.toInt_neg w).symm

theorem wrap_tdiv_toInt : wrap (w.toInt.tdiv v.toInt) = (w / v).toInt := (Int64.toInt_div w v).symm

end Word64

open Word64

/-! ## Operators on integers -/

section Operators

variable {cfg : Config} {depth scope : Nat} {s s' : Store} {a b : Int}

/-- The operands have integers for their values, of which the right one is evaluated first. -/
def Operands (ev : Evaluator) (scope : Nat) (l r : Node Unit) (s : Store) (a b : Int) (s' : Store) : Prop :=
  ∃ s₁, ev r scope s = (.ok (.integer b), s₁) ∧ ev l scope s₁ = (.ok (.integer a), s')

theorem integer_ne_returned (n : Int) (v : Value) : Value.integer n ≠ .returned v := nofun

/-- An operator that does not assign does nothing but give its result. -/
theorem eval_binary_integers {l r : Node Unit} (h : Operands (eval cfg depth) scope l r s a b s')
    {text : String} (htext : ¬Assigns text) :
    eval cfg (depth + 1) (.binary () text l r) scope s = applyIntegers text a b s' := by
  obtain ⟨s₁, hr, hl⟩ := h
  change binary cfg (eval cfg depth) scope text l r s = _
  have hassigns : ¬((BinaryOp.ofText? text).map (·.assigns)).getD false = true := htext
  rw [binary, bind_of_ok (operand_of_ok hr (integer_ne_returned b)),
    bind_of_ok (operand_of_ok hl (integer_ne_returned a))]
  simp only [if_neg hassigns, bind_pure]
  rfl

theorem eval_unary_integer {e : Node Unit} (h : eval cfg depth e scope s = (.ok (.integer a), s'))
    (text : String) :
    eval cfg (depth + 1) (.unary () text e) scope s = applyUnary cfg scope text e (.integer a) s' :=
  bind_of_ok (operand_of_ok h (integer_ne_returned a)) _

theorem applyIntegers_div (h : b ≠ 0) (a : Int) (s : Store) :
    applyIntegers "/" a b s = (.ok (.integer (wrap (a.tdiv b))), s) := by
  have happly : Arith.div.apply a b = pure (wrap (a.tdiv b)) := by
    rw [Arith.apply, if_neg h, quotient, divide?, if_neg h]
  change (Arith.div.apply a b >>= fun n => pure (.integer n) : Run Value) s = _
  rw [happly]
  rfl

/-- The comparisons of integers in range are those of words. -/
theorem Comparison.holds_toInt (w v : Int64) :
    lt.holds w.toInt v.toInt = decide (w < v) ∧ gt.holds w.toInt v.toInt = decide (w > v) ∧
      le.holds w.toInt v.toInt = decide (w ≤ v) ∧ ge.holds w.toInt v.toInt = decide (w ≥ v) ∧
      eq.holds w.toInt v.toInt = (w == v) ∧ ne.holds w.toInt v.toInt = (w != v) := by
  have heq : (w.toInt == v.toInt) = (w == v) := by
    rw [Bool.eq_iff_iff, beq_iff_eq, beq_iff_eq, Int64.toInt_inj]
  refine ⟨?_, ?_, ?_, ?_, heq, congrArg not heq⟩
  · exact decide_eq_decide.2 Int64.lt_iff_toInt_lt.symm
  · exact decide_eq_decide.2 Int64.lt_iff_toInt_lt.symm
  · exact decide_eq_decide.2 Int64.le_iff_toInt_le.symm
  · exact decide_eq_decide.2 Int64.le_iff_toInt_le.symm

/-! ## Steps -/

/-- The step has the integer for its result. If the operand is a name, it is bound to the result from now
on, and otherwise the store stays as it was. -/
structure Steps (scope : Nat) (e : Node Unit) (s : Store) (n : Int) (o : Except Stop Value × Store) : Prop where
  result : o.1 = .ok (.integer n)
  named : ∀ x, e = .identifier () x → o.2.scopes.get? scope x = some (.integer n)
  other : (∀ x, e ≠ .identifier () x) → o.2 = s

/-- A name with a value is bound somewhere. -/
theorem Scopes.exists_update? {scopes : Scopes} {i : Nat} {x : String} {v : Value}
    (h : scopes.get? i x = some v) (w : Value) : ∃ scopes', scopes.update? i x w = some scopes' := by
  unfold get? at h
  cases hholder : scopes.holder? x i with
  | none => rw [hholder] at h; cases h
  | some j => exact ⟨scopes.set j x w, by rw [update?, hholder]; rfl⟩

/-- A name that is bound can be bound anew to a value that is not nested too deeply to be written down. -/
theorem assign_of_fits (cfg : Config) {i : Nat} {x : String} {v w : Value} {s : Store}
    (h : s.scopes.get? i x = some v) (hw : w.fits displayLimit = true) :
    ∃ s', assign cfg i x w s = (.ok (), s') := by
  obtain ⟨scopes, hscopes⟩ := Scopes.exists_update? h w
  have hfits : (LogEntry.updated x w).fits displayLimit = true := hw
  rw [assign_apply, hscopes]
  change ∃ s', note cfg 2 (.updated x w) { s with scopes } = (.ok (), s')
  unfold note
  rw [hfits]
  split <;> exact ⟨_, rfl⟩

/-- A name whose value is not a native function is bound to it. -/
theorem get?_of_lookUp {x : String} {v : Value} (h : lookUp cfg scope x s = (.ok v, s'))
    (hv : v ≠ .native x) : s' = s ∧ s.scopes.get? scope x = some v := by
  rw [lookUp_apply] at h
  cases hget : s.scopes.get? scope x with
  | some v =>
    rw [hget] at h
    cases h
    exact ⟨rfl, rfl⟩
  | none =>
    rw [hget] at h
    cases hnative : cfg.natives.lookup x <;> rw [hnative] at h <;> cases h
    exact absurd rfl hv

theorem get?_of_eval_identifier {x : String}
    (h : eval cfg depth (.identifier () x) scope s = (.ok (.integer a), s')) :
    s' = s ∧ s.scopes.get? scope x = some (.integer a) := by
  cases depth with
  | zero => cases h
  | succ depth => exact get?_of_lookUp (show lookUp cfg scope x s = _ from h) nofun

theorem steps_integer {e : Node Unit} (h : eval cfg depth e scope s = (.ok (.integer a), s'))
    {text : String} {amount : Int} (htext : UnaryOp.ofText? text = some (.step amount)) :
    Steps scope e s' (wrap (a + amount)) (eval cfg (depth + 1) (.unary () text e) scope s) := by
  rw [eval_unary_integer h]
  unfold applyUnary
  rw [htext]
  cases e with
  | identifier _ x =>
    obtain ⟨rfl, hget⟩ := get?_of_eval_identifier h
    obtain ⟨s₁, hassign⟩ := assign_of_fits cfg hget (w := .integer (wrap (a + amount))) rfl
    dsimp only
    rw [bind_of_ok hassign]
    refine ⟨rfl, fun y hy => ?_, fun hne => absurd rfl (hne x)⟩
    cases hy
    exact (assign_ok hassign).1
  | _ => exact ⟨rfl, nofun, fun _ => rfl⟩

end Operators

/-! ## Formulas -/

/-- The operations that a formula joins others with. -/
inductive Joint where
  | add
  | sub
  | mul

/-- How the operation is written. -/
def Joint.text : Joint → String
  | add => "+"
  | sub => "-"
  | mul => "*"

/-- The operation on integers without bounds. -/
def Joint.exact : Joint → Int → Int → Int
  | add, a, b => a + b
  | sub, a, b => a - b
  | mul, a, b => a * b

/-- Literals, with `+`, `-` and `*` between formulas and `-` before them. -/
inductive Formula where
  | literal (n : Int)
  | negate (f : Formula)
  | join (op : Joint) (l r : Formula)

namespace Formula

/-- The tree of a formula. -/
def tree : Formula → Node Unit
  | literal n => .integer () n
  | negate f => .unary () "-" f.tree
  | join op l r => .binary () op.text l.tree r.tree

/-- The value of a formula without bounds on the integers. -/
def exact : Formula → Int
  | literal n => n
  | negate f => -f.exact
  | join op l r => op.exact l.exact r.exact

/-- The value that a formula has. What is written stays as it is, and every operation gives a word. -/
def value : Formula → Int
  | literal n => n
  | f => wrap f.exact

/-- How many parts of a formula stand inside each other. -/
def height : Formula → Nat
  | literal _ => 1
  | negate f => f.height + 1
  | join _ l r => max l.height r.height + 1

theorem wrap_value (f : Formula) : wrap f.value = wrap f.exact := by
  cases f with
  | literal n => rfl
  | _ => exact wrap_eq_self (inRange_wrap _)

/-- Only a literal that stands alone may have a value out of range. -/
theorem value_eq_wrap {f : Formula} (h : ∀ n, f = .literal n → InRange n) : f.value = wrap f.exact := by
  cases f with
  | literal n => exact (wrap_eq_self (h n rfl)).symm
  | _ => rfl

end Formula

/-- The word of a result depends on the words of the operands only. -/
theorem Joint.wrap_exact_congr (op : Joint) {a a' b b' : Int} (ha : wrap a = wrap a') (hb : wrap b = wrap b') :
    wrap (op.exact a b) = wrap (op.exact a' b') := by
  rw [wrap_eq_wrap_iff] at ha hb ⊢
  cases op with
  | add => rw [Joint.exact, Joint.exact, Int64.ofInt_add, Int64.ofInt_add, ha, hb]
  | sub => rw [Joint.exact, Joint.exact, Int64.ofInt_sub, Int64.ofInt_sub, ha, hb]
  | mul => rw [Joint.exact, Joint.exact, Int64.ofInt_mul, Int64.ofInt_mul, ha, hb]

theorem Joint.applyIntegers_text (op : Joint) (a b : Int) (s : Store) :
    applyIntegers op.text a b s = (.ok (.integer (wrap (op.exact a b))), s) := by
  cases op <;> rfl

/-- **Bringing every result into range is the same as bringing the last one into range**, where evaluations
may be nested as deeply as the formula is. -/
theorem eval_formula (cfg : Config) (scope : Nat) (s : Store) : ∀ (f : Formula) {depth : Nat},
    f.height ≤ depth → eval cfg depth f.tree scope s = (.ok (.integer f.value), s)
  | .literal n, depth + 1, _ => rfl
  | .negate f, depth + 1, h => by
    have hf := eval_formula cfg scope s f (Nat.le_of_succ_le_succ h)
    have hvalue : f.negate.value = wrap (-f.value) := by
      change wrap (-f.exact) = wrap (-f.value)
      rw [wrap_eq_wrap_iff, Int64.ofInt_neg, Int64.ofInt_neg, wrap_eq_wrap_iff.1 f.wrap_value]
    rw [Formula.tree, eval_unary_integer hf, hvalue]
    rfl
  | .join op l r, depth + 1, h => by
    have hle : max l.height r.height ≤ depth := Nat.le_of_succ_le_succ h
    have hr := eval_formula cfg scope s r (Nat.max_le.1 hle).2
    have hl := eval_formula cfg scope s l (Nat.max_le.1 hle).1
    have htext : ¬Assigns op.text := by cases op <;> nofun
    rw [Formula.tree, eval_binary_integers ⟨s, hr, hl⟩ htext, op.applyIntegers_text,
      op.wrap_exact_congr l.wrap_value r.wrap_value]
    rfl

/-- Otherwise the evaluation is stopped. -/
theorem eval_formula_tooDeep (cfg : Config) (scope : Nat) (s : Store) : ∀ (f : Formula) {depth : Nat},
    depth < f.height → eval cfg depth f.tree scope s = (.error .tooDeep, s)
  | _, 0, _ => rfl
  | .literal _, _ + 1, h => absurd (Nat.lt_of_succ_lt_succ h) (Nat.not_lt_zero _)
  | .negate f, depth + 1, h => by
    have hf := eval_formula_tooDeep cfg scope s f (Nat.lt_of_succ_lt_succ h)
    exact bind_of_error (bind_of_error hf _) _
  | .join op l r, depth + 1, h => by
    have hlt : depth < max l.height r.height := Nat.lt_of_succ_lt_succ h
    change binary cfg (eval cfg depth) scope op.text l.tree r.tree s = _
    -- the right operand is evaluated first
    by_cases hr : depth < r.height
    · exact bind_of_error (bind_of_error (eval_formula_tooDeep cfg scope s r hr) _) _
    · have hl : depth < l.height := by omega
      have hright := eval_formula cfg scope s r (Nat.not_lt.1 hr)
      rw [binary, bind_of_ok (operand_of_ok hright (integer_ne_returned r.value))]
      exact bind_of_error (bind_of_error (eval_formula_tooDeep cfg scope s l hl) _) _

/-- **Integer arithmetic is arithmetic on signed words of 64 bits.** For integers in range:

* `+`, `-`, `*` and `/` have the sum, the difference, the product and the quotient of the words, where the
  quotient is cut off toward zero and brought into range; a division by zero fails;
* the comparisons are those of signed words;
* `-`, `++` and `--` have the negation of the word and its neighbours, which a name is bound to by the latter.

And however `+`, `-`, `*` and `-` are put together from literals, the value is the word of the exact value;
only a literal that stands alone must be in range for that. -/
theorem integer_arithmetic (cfg : Config) (depth scope : Nat) :
    (∀ (l r : Node Unit) (s s' : Store) (a b : Int), InRange a → InRange b →
      Operands (eval cfg depth) scope l r s a b s' →
      let w := Int64.ofInt a
      let v := Int64.ofInt b
      let value (text : String) := eval cfg (depth + 1) (.binary () text l r) scope s
      (value "+" = (.ok (.integer (w + v).toInt), s') ∧ value "-" = (.ok (.integer (w - v).toInt), s') ∧
        value "*" = (.ok (.integer (w * v).toInt), s')) ∧
      (b ≠ 0 → value "/" = (.ok (.integer (w / v).toInt), s') ∧ (w / v).toInt = wrap (a.tdiv b)) ∧
      (a = least → b = -1 → value "/" = (.ok (.integer least), s')) ∧
      (b = 0 → value "/" = (.error (.failed .divisionByZero), s')) ∧
      value "<" = (.ok (.boolean (w < v)), s') ∧ value ">" = (.ok (.boolean (w > v)), s') ∧
      value "<=" = (.ok (.boolean (w ≤ v)), s') ∧ value ">=" = (.ok (.boolean (w ≥ v)), s') ∧
      value "==" = (.ok (.boolean (w == v)), s') ∧ value "!=" = (.ok (.boolean (w != v)), s')) ∧
    (∀ (e : Node Unit) (s s' : Store) (a : Int), InRange a →
      eval cfg depth e scope s = (.ok (.integer a), s') →
      let w := Int64.ofInt a
      let value (text : String) := eval cfg (depth + 1) (.unary () text e) scope s
      value "-" = (.ok (.integer (-w).toInt), s') ∧ Steps scope e s' (w + 1).toInt (value "++") ∧
        Steps scope e s' (w - 1).toInt (value "--")) ∧
    ∀ (f : Formula) (s : Store),
      (f.height ≤ depth → (∀ n, f = .literal n → InRange n) →
        eval cfg depth f.tree scope s = (.ok (.integer (wrap f.exact)), s)) ∧
      (depth < f.height → eval cfg depth f.tree scope s = (.error .tooDeep, s)) := by
  refine ⟨fun l r s s' a b ha hb h => ?_, fun e s s' a ha h => ?_, fun f s => ⟨fun h hliteral => ?_,
    eval_formula_tooDeep cfg scope s f⟩⟩
  · obtain ⟨w, rfl⟩ := exists_toInt_eq ha
    obtain ⟨v, rfl⟩ := exists_toInt_eq hb
    simp only [Int64.ofInt_toInt]
    obtain ⟨hlt, hgt, hle, hge, heq, hne⟩ := Comparison.holds_toInt w v
    -- back from the words to what the evaluator computes with
    rw [← hlt, ← hgt, ← hle, ← hge, ← heq, ← hne, ← wrap_add_toInt, ← wrap_sub_toInt,
      ← wrap_mul_toInt, ← wrap_tdiv_toInt]
    have hvalue {text : String} (htext : ¬Assigns text) := eval_binary_integers h htext
    have hquotient (hne : v.toInt ≠ 0) := (@hvalue "/" nofun).trans (applyIntegers_div hne _ _)
    refine ⟨⟨hvalue nofun, hvalue nofun, hvalue nofun⟩, fun hne => ⟨hquotient hne, rfl⟩,
      fun hleast hone => ?_, fun hzero => ?_, hvalue nofun, hvalue nofun, hvalue nofun, hvalue nofun,
      hvalue nofun, hvalue nofun⟩
    · rw [hquotient (by rw [hone]; decide), hleast, hone]
      rfl
    · rw [@hvalue "/" nofun, hzero]
      rfl
  · obtain ⟨w, rfl⟩ := exists_toInt_eq ha
    have hone : (1 : Int64).toInt = 1 := rfl
    simp only [Int64.ofInt_toInt]
    rw [← wrap_neg_toInt, ← wrap_add_toInt, ← wrap_sub_toInt, hone]
    exact ⟨eval_unary_integer h "-", steps_integer h rfl, steps_integer h rfl⟩
  · rw [eval_formula cfg scope s f h, Formula.value_eq_wrap hliteral]

/-- The ends of the range, and twice the largest word plus one. -/
theorem integer_arithmetic_at_the_ends :
    let s := Store.start false
    let odd : Formula := .join .sub (.join .mul (.literal greatest) (.literal 2)) (.negate (.literal 1))
    eval {} 2 (.binary () "/" (.integer () least) (.integer () (-1))) 0 s = (.ok (.integer least), s) ∧
    eval {} 2 (.binary () "<" (.integer () least) (.integer () (-1))) 0 s = (.ok (.boolean true), s) ∧
    eval {} 2 (.unary () "-" (.integer () least)) 0 s = (.ok (.integer least), s) ∧
    Steps 0 (.integer () greatest) s least (eval {} 2 (.unary () "++" (.integer () greatest)) 0 s) ∧
    odd.exact = 2 ^ 64 - 1 ∧ eval {} 3 odd.tree 0 s = (.ok (.integer (-1)), s) ∧
    eval {} 2 odd.tree 0 s = (.error .tooDeep, s) := by
  intro s odd
  obtain ⟨hbinary, hunary, -⟩ := integer_arithmetic {} 1 0
  obtain ⟨-, -, hquotient, -, hless, -⟩ := hbinary (.integer () least) (.integer () (-1)) s s least (-1)
    (by decide) (by decide) ⟨s, rfl, rfl⟩
  obtain ⟨hnegate, -⟩ := hunary (.integer () least) s s least (by decide) rfl
  obtain ⟨-, hstep, -⟩ := hunary (.integer () greatest) s s greatest (by decide) rfl
  have hodd := ((integer_arithmetic {} 3 0).2.2 odd s).1 (by decide) nofun
  have hdeep := ((integer_arithmetic {} 2 0).2.2 odd s).2 (by decide)
  exact ⟨hquotient rfl rfl, hless, hnegate, hstep, rfl, hodd, hdeep⟩

end SepiaLang
