import Mathlib.Algebra.Order.Field.Rat
import Mathlib.Data.Int.GCD
import Mathlib.Tactic.FieldSimp
import Stoned.IntegerOperators
import Stoned.Powers

namespace stoned.rationals

open program program.signed integers

/-! The class Rational, as the prelude defines it (eval.c, prelude_rational),
on integers. Its integers are those of the evaluator: their operators compare
through doubles. -/

structure Rational where
  numerator : Int64
  denominator : Int64
  deriving DecidableEq

/-- What an operation comes to. -/
inductive Answer where
  | rational (q : Rational)
  | raised (class_name message : String)
  deriving DecidableEq

/-- The other operand. -/
inductive Operand where
  | rational (q : Rational)
  | integer (m : Int64)

def zero_division : Answer := .raised "ZeroDivisionError" "divided by 0"

/-- `while (b) { int64_t t = b; b = a % b; a = t; }` -/
def gcd_each (a b : Int64) : Option Int64 :=
  if _h : b = 0 then some a
  else match _hr : rem a b with
    | none => none
    | some r => gcd_each b r
  termination_by b.toInt.natAbs
  decreasing_by
    rw [toInt_of_rem _hr, Int.natAbs_tmod]
    exact Nat.mod_lt _ (Int.natAbs_pos.mpr (toInt_ne_zero _h))

/-- Integer#abs. -/
def integer_abs (n : Int64) : Option Int64 := if n < 0 then neg n else some n

/-- Integer#gcd. -/
def int_gcd (a b : Int64) : Option Int64 := do gcd_each (← integer_abs a) (← integer_abs b)

/-- Divides by the greatest common divisor. -/
def reduce (num den : Int64) : Option Answer := do
  let g ← int_gcd (← integer_abs num) den
  return .rational ⟨← quotient num g, ← quotient den g⟩

/-- Rational.new. -/
def new (num den : Int64) : Option Answer :=
  if den = 0 then some zero_division
  else if negative den then do reduce (← neg num) (← neg den)
  else reduce num den

section
variable (p : Rational)

/-- `+`. -/
def Rational.plus : Operand → Option Answer
  | .rational q => do
    new (← add (← mul p.numerator q.denominator) (← mul q.numerator p.denominator)) (← mul p.denominator q.denominator)
  | .integer m => do new (← add p.numerator (← mul m p.denominator)) p.denominator

/-- `-`. -/
def Rational.minus : Operand → Option Answer
  | .rational q => do
    new (← sub (← mul p.numerator q.denominator) (← mul q.numerator p.denominator)) (← mul p.denominator q.denominator)
  | .integer m => do new (← sub p.numerator (← mul m p.denominator)) p.denominator

/-- `*`. -/
def Rational.times : Operand → Option Answer
  | .rational q => do new (← mul p.numerator q.numerator) (← mul p.denominator q.denominator)
  | .integer m => do new (← mul p.numerator m) p.denominator

/-- `/`. -/
def Rational.divide : Operand → Option Answer
  | .rational q =>
    if q.numerator = 0 then some zero_division
    else do new (← mul p.numerator q.denominator) (← mul p.denominator q.numerator)
  | .integer m => if m = 0 then some zero_division else do new p.numerator (← mul p.denominator m)

/-- `base ** exp` of integers with an exponent that is not negative. -/
def integer_power (fpu : Fpu) (base exp : Int64) : Int64 := fpu.to_int (fpu.pow (.of_int base) (.of_int exp))

/-- `**` with an integer. -/
def Rational.power (fpu : Fpu) (exp : Int64) : Option Answer :=
  if (Double.of_int 0).at_most (.of_int exp) then new (integer_power fpu p.numerator exp) (integer_power fpu p.denominator exp)
  else do
    let exp ← neg exp
    new (integer_power fpu p.denominator exp) (integer_power fpu p.numerator exp)

/-- `<=>`. -/
def Rational.order : Operand → Option Int64
  | .rational q => do return integer_order (← mul p.numerator q.denominator) (← mul q.numerator p.denominator)
  | .integer m => do return integer_order p.numerator (← mul m p.denominator)

/-- `==`. -/
def Rational.equal : Operand → Bool
  | .rational q => p.numerator = q.numerator && p.denominator = q.denominator
  | .integer m => p.denominator = 1 && p.numerator = m

/-- `-@`. -/
def Rational.negate : Option Answer := do new (← neg p.numerator) p.denominator

/-- to_i. -/
def Rational.to_i : Option Int64 := quotient p.numerator p.denominator

/-- ceil, floor, truncate and round without digits. -/
def Rational.ceil : Option Int64 := (integer_divmod p.numerator p.denominator).bind fun
  | .pair q r => if (Double.of_int 0).less (.of_int r) then add q 1 else some q
  | _ => none

def Rational.floor : Option Int64 := quotient p.numerator p.denominator

def Rational.truncate : Option Int64 :=
  if negative p.numerator then do neg (← quotient (← neg p.numerator) p.denominator)
  else quotient p.numerator p.denominator

def Rational.round : Option Int64 := do
  quotient (← add (← mul p.numerator 2) p.denominator) (← mul p.denominator 2)

end

/-- The lowest terms of a fraction, with a positive denominator. -/
structure Rational.Normal (q : Rational) : Prop where
  positive : 0 < q.denominator.toInt
  coprime : Int.gcd q.numerator.toInt q.denominator.toInt = 1

/-- The fraction itself. -/
def Rational.value (q : Rational) : ℚ := (q.numerator.toInt : ℚ) / q.denominator.toInt

section gcd
variable {a b num den : Int64}

theorem gcd_each_ok (ha : 0 ≤ a.toInt) (hb : 0 ≤ b.toInt) :
    ∃ g, gcd_each a b = some g ∧ g.toInt = Int.gcd a.toInt b.toInt := by
  induction hsize : b.toInt.natAbs using Nat.strong_induction_on generalizing a b with
  | _ size ih =>
    unfold gcd_each
    by_cases hzero : b = 0
    · refine ⟨a, dif_pos hzero, ?_⟩
      rw [hzero, Int64.toInt_zero, Int.gcd_zero_right]
      omega
    · have hne := toInt_ne_zero hzero
      obtain ⟨r, hr, hri⟩ := exists_rem (a := a) hzero (by
        rintro ⟨-, rfl⟩
        exact absurd hb (by decide))
      have hmod : r.toInt = a.toInt % b.toInt := by rw [hri, Int.tmod_eq_emod_of_nonneg ha]
      have hpos := Int.emod_nonneg a.toInt hne
      have hlt := Int.emod_lt_of_pos a.toInt (show 0 < b.toInt by omega)
      obtain ⟨g, hg, hgi⟩ := ih r.toInt.natAbs (by omega) hb (by omega) rfl
      refine ⟨g, ?_, ?_⟩
      · rw [dif_neg hzero]
        split
        · rename_i hnone
          rw [hr] at hnone
          cases hnone
        · rename_i r' hr'
          rw [hr] at hr'
          cases hr'
          exact hg
      · rw [hgi, hmod, Int.gcd_comm, Int.gcd_emod, Int.gcd_comm]

theorem least_toInt {n : Int64} : n = Int64.minValue ↔ n.toInt = -2 ^ 63 := by
  rw [← Int64.toInt_inj]
  rfl

theorem exists_neg {n : Int64} (h : n ≠ Int64.minValue) : ∃ m, neg n = some m ∧ m.toInt = -n.toInt := by
  rw [ne_eq, least_toInt] at h
  have := toInt_bounds n
  exact exists_fit_eq ⟨by omega, by omega⟩

theorem ne_least_of_neg {n m : Int64} (h : neg n = some m) : n ≠ Int64.minValue := by
  rintro rfl
  cases h

theorem exists_abs {n : Int64} (h : n ≠ Int64.minValue) : ∃ m, integer_abs n = some m ∧ m.toInt = n.toInt.natAbs := by
  unfold integer_abs
  by_cases hneg : n < 0
  · obtain ⟨m, hm, hmi⟩ := exists_neg h
    rw [neg_iff_toInt] at hneg
    exact ⟨m, by rw [if_pos (neg_iff_toInt.mpr hneg), hm], by omega⟩
  · refine ⟨n, if_neg hneg, ?_⟩
    rw [neg_iff_toInt] at hneg
    omega

theorem ne_least_of_abs {n m : Int64} (h : integer_abs n = some m) : n ≠ Int64.minValue := by
  rintro rfl
  cases h

theorem integer_abs_nonneg {n : Int64} (h : 0 ≤ n.toInt) : integer_abs n = some n := by
  refine if_neg ?_
  rw [neg_iff_toInt]
  omega

theorem int_gcd_ok (ha : 0 ≤ a.toInt) (hb : 0 ≤ b.toInt) : ∃ g, int_gcd a b = some g ∧ g.toInt = Int.gcd a.toInt b.toInt := by
  obtain ⟨g, hg, hgi⟩ := gcd_each_ok ha hb
  refine ⟨g, ?_, hgi⟩
  exact Option.bind_eq_some_iff.mpr ⟨a, integer_abs_nonneg ha, Option.bind_eq_some_iff.mpr ⟨b, integer_abs_nonneg hb, hg⟩⟩

/-- A fraction with a positive denominator is reduced to its lowest terms. -/
theorem reduce_ok (hnum : num ≠ Int64.minValue) (hden : 0 < den.toInt) :
    ∃ q : Rational, reduce num den = some (.rational q) ∧ q.Normal ∧ q.value = (num.toInt : ℚ) / den.toInt ∧
      (Int.gcd num.toInt den.toInt = 1 → q = ⟨num, den⟩) := by
  obtain ⟨a, ha, hai⟩ := exists_abs hnum
  obtain ⟨g, hg, hgi⟩ := int_gcd_ok (a := a) (b := den) (by omega) hden.le
  have hsame : Int.gcd (num.toInt.natAbs : Int) den.toInt = Int.gcd num.toInt den.toInt := rfl
  rw [hai, hsame] at hgi
  have hgpos : 0 < Int.gcd num.toInt den.toInt := Int.gcd_pos_of_ne_zero_right _ hden.ne'
  have hgpos' : 0 < g.toInt := by omega
  obtain ⟨n, hn, hni⟩ := exists_quotient (a := num) hgpos'
  obtain ⟨d, hd, hdi⟩ := exists_quotient (a := den) hgpos'
  rw [hgi] at hni hdi
  have hnum' : (Int.gcd num.toInt den.toInt : Int) * n.toInt = num.toInt := by
    rw [hni]
    exact Int.mul_ediv_cancel' (Int.gcd_dvd_left ..)
  have hden' : (Int.gcd num.toInt den.toInt : Int) * d.toInt = den.toInt := by
    rw [hdi]
    exact Int.mul_ediv_cancel' (Int.gcd_dvd_right ..)
  refine ⟨⟨n, d⟩, ?_, ⟨?_, ?_⟩, ?_, ?_⟩
  · exact Option.bind_eq_some_iff.mpr ⟨a, ha, Option.bind_eq_some_iff.mpr ⟨g, hg,
      Option.bind_eq_some_iff.mpr ⟨n, hn, Option.bind_eq_some_iff.mpr ⟨d, hd, rfl⟩⟩⟩⟩
  · by_contra hnot
    have := Int.mul_nonpos_of_nonneg_of_nonpos (show (0 : Int) ≤ Int.gcd num.toInt den.toInt by omega) (show d.toInt ≤ 0 from Int.not_lt.mp hnot)
    omega
  · change Int.gcd n.toInt d.toInt = 1
    rw [hni, hdi]
    exact Int.gcd_ediv_gcd_ediv_gcd hgpos
  · have hg0 : ((Int.gcd num.toInt den.toInt : Int) : ℚ) ≠ 0 := by exact_mod_cast hgpos.ne'
    change (n.toInt : ℚ) / d.toInt = _
    rw [← mul_div_mul_left _ _ hg0, ← Int.cast_mul, ← Int.cast_mul, hnum', hden']
  · intro hone
    rw [hone, Nat.cast_one, Int.one_mul] at hnum' hden'
    rw [Int64.toInt_inj.mp hnum', Int64.toInt_inj.mp hden']

/-- What Rational.new makes of a fraction. -/
def Exact (answer : Option Answer) (x : ℚ) : Prop := ∃ q : Rational, answer = some (.rational q) ∧ q.Normal ∧ q.value = x

/-- Where a fraction is built, nothing was negated that cannot be. -/
theorem of_new {q : Rational} (h : new num den = some (.rational q)) :
    den ≠ 0 ∧ num ≠ Int64.minValue ∧ den ≠ Int64.minValue := by
  unfold new at h
  by_cases hzero : den = 0
  · rw [if_pos hzero] at h
    cases h
  refine ⟨hzero, ?_⟩
  rw [if_neg hzero] at h
  by_cases hneg : negative den = true
  · rw [if_pos hneg] at h
    obtain ⟨num', hnum, h⟩ := Option.bind_eq_some_iff.mp h
    obtain ⟨den', hden', -⟩ := Option.bind_eq_some_iff.mp h
    exact ⟨ne_least_of_neg hnum, ne_least_of_neg hden'⟩
  · rw [if_neg hneg] at h
    rw [negative_iff] at hneg
    obtain ⟨a, ha, -⟩ := Option.bind_eq_some_iff.mp h
    refine ⟨ne_least_of_abs ha, ?_⟩
    rw [ne_eq, least_toInt]
    omega

theorem exact_new (hden : den ≠ 0) (hnum : num ≠ Int64.minValue) (hden' : den ≠ Int64.minValue) :
    Exact (new num den) ((num.toInt : ℚ) / den.toInt) := by
  unfold new
  rw [if_neg hden]
  by_cases hneg : negative den = true
  · rw [if_pos hneg]
    rw [negative_iff] at hneg
    obtain ⟨num', hnum', hnumi⟩ := exists_neg hnum
    obtain ⟨den', hden', hdeni⟩ := exists_neg hden'
    have hleast : num' ≠ Int64.minValue := by
      rw [ne_eq, least_toInt]
      have := toInt_bounds num
      omega
    obtain ⟨q, hq, hnormal, hvalue, -⟩ := reduce_ok hleast (show 0 < den'.toInt by omega)
    refine ⟨q, ?_, hnormal, ?_⟩
    · exact Option.bind_eq_some_iff.mpr ⟨num', hnum', Option.bind_eq_some_iff.mpr ⟨den', hden', hq⟩⟩
    · rw [hvalue, hnumi, hdeni]
      push_cast
      exact neg_div_neg_eq _ _
  · rw [if_neg hneg]
    rw [negative_iff] at hneg
    have hpos : 0 < den.toInt := by
      have := toInt_ne_zero hden
      omega
    obtain ⟨q, hq, hnormal, hvalue, -⟩ := reduce_ok hnum hpos
    exact ⟨q, hq, hnormal, hvalue⟩

/-- The fraction is found exactly when nothing has to be negated that cannot be. -/
theorem exact_new_iff (hden : den ≠ 0) :
    Exact (new num den) ((num.toInt : ℚ) / den.toInt) ↔ num ≠ Int64.minValue ∧ den ≠ Int64.minValue := by
  constructor
  · rintro ⟨q, hq, -⟩
    exact (of_new hq).2
  · rintro ⟨hnum, hden'⟩
    exact exact_new hden hnum hden'

/-- Only the fraction itself is built. -/
theorem Exact.eq {x : ℚ} (h : Exact (new num den) x) : x = (num.toInt : ℚ) / den.toInt := by
  obtain ⟨q, hq, -, rfl⟩ := h
  obtain ⟨hden, hnum, hden'⟩ := of_new hq
  obtain ⟨q', hq', -, hvalue⟩ := exact_new hden hnum hden'
  rw [hq, Option.some_inj, Answer.rational.injEq] at hq'
  rw [hq', hvalue]

end gcd

end stoned.rationals
