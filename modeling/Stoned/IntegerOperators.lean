import Stoned.DoubleExact
import Stoned.IntegerDivision

namespace stoned

open program program.signed

/-! Operators of integers as the classes that are written in Ruby (eval.c and
eval_support.c) use them. Comparisons are those of doubles. -/

namespace Double

theorem less_iff_round (i j : Int64) : (of_int i).less (of_int j) = true ↔ round i.toInt < round j.toInt := by
  unfold less
  rw [of_int_nan, of_int_nan, of_int_value_eq, of_int_value_eq]
  simp only [Bool.not_false, Bool.true_and, decide_eq_true_iff]
  exact Int.mul_lt_mul_right (by positivity)

end Double

namespace integers

/-- `n < 0`, between doubles. -/
def negative (n : Int64) : Bool := (Double.of_int n).less (.of_int 0)

/-- `a / b`, where that is an integer. -/
def quotient (a b : Int64) : Option Int64 := (binop_divide a b).bind fun
  | .int q => some q
  | _ => none

/-- `<=>` of integers. -/
def integer_order (a b : Int64) : Int64 :=
  if (Double.of_int a).less (.of_int b) then -1 else if (Double.of_int b).less (.of_int a) then 1 else 0

/-- Comparing with 0 is exact. -/
theorem negative_iff {n : Int64} : negative n = true ↔ n.toInt < 0 := by
  rw [negative, Double.of_int_less_iff, neg_iff_toInt, and_iff_left_iff_imp]
  intro hneg hsame
  have hround := Double.round_of_same hsame
  have hmono := Double.round_mono (show n.toInt ≤ -1 by omega)
  rw [hround, Int64.toInt_zero] at hmono
  exact absurd hmono (by decide)

theorem positive_iff {n : Int64} : (Double.of_int 0).less (.of_int n) = true ↔ 0 < n.toInt := by
  rw [Double.of_int_less_iff, Int64.lt_iff_toInt_lt, Int64.toInt_zero, and_iff_left_iff_imp]
  intro hpos hsame
  have hround := Double.round_of_same hsame
  have hmono := Double.round_mono (show 1 ≤ n.toInt by omega)
  rw [← hround, Int64.toInt_zero] at hmono
  exact absurd hmono (by decide)

theorem exists_quotient {a b : Int64} (hb : 0 < b.toInt) : ∃ q, quotient a b = some q ∧ q.toInt = a.toInt / b.toInt := by
  obtain ⟨q, -, hq, -, -, hqi, -⟩ := exists_divmod (a := a) hb
  exact ⟨q, by rw [quotient, hq]; rfl, hqi⟩

theorem quotient_yields {a b : Int64} {i j : Int} (ha : a.toInt = i) (hb : b.toInt = j) (hpos : 0 < j) :
    Yields (quotient a b) (i / j) := by
  subst ha hb
  exact exists_quotient hpos

section order
variable {a b : Int64}

/-- Integers are ordered where they are one or become different doubles. -/
theorem integer_order_iff : integer_order a b = (if a.toInt < b.toInt then -1 else if b.toInt < a.toInt then 1 else 0) ↔
    a.toInt = b.toInt ∨ Double.round a.toInt ≠ Double.round b.toInt := by
  unfold integer_order
  simp only [Double.less_iff_round]
  rcases lt_trichotomy a.toInt b.toInt with hlt | heq | hgt
  · have hmono := Double.round_mono hlt.le
    rw [if_pos hlt]
    by_cases hround : Double.round a.toInt = Double.round b.toInt
    · rw [if_neg (by omega), if_neg (by omega)]
      exact iff_of_false (by decide) (by omega)
    · rw [if_pos (by omega)]
      exact iff_of_true rfl (.inr hround)
  · rw [heq, if_neg (lt_irrefl _), if_neg (lt_irrefl _), if_neg (lt_irrefl _), if_neg (lt_irrefl _)]
    exact iff_of_true rfl (.inl rfl)
  · have hmono := Double.round_mono hgt.le
    rw [if_neg (show ¬ a.toInt < b.toInt by omega), if_pos hgt]
    by_cases hround : Double.round a.toInt = Double.round b.toInt
    · rw [if_neg (by omega), if_neg (by omega)]
      exact iff_of_false (by decide) (by omega)
    · rw [if_neg (by omega), if_pos (by omega)]
      exact iff_of_true rfl (.inr hround)

end order

end integers

end stoned
