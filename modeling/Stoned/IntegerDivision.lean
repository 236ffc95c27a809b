import Stoned.IntegerOrder
import Stoned.Program.Signed
import Mathlib.Algebra.Order.Floor.Ring
import Mathlib.Data.Rat.Floor

namespace stoned

open program program.signed

/-! Division of integers on the machine: the operators (eval_dispatch.c,
eval_binop) and the methods (eval_dispatch_primitives.c, dispatch_integer). -/

/-- What an arithmetic built-in comes to, where the machine does not trap. -/
inductive Outcome where
  | int (n : Int64)
  | pair (quotient remainder : Int64)
  | raised (class_name message : String)
  /-- not one of the methods here -/
  | unknown
  deriving DecidableEq

def zero_division : Outcome := .raised "ZeroDivisionError" "divided by 0"

/-- `a / b`. -/
def binop_divide (a b : Int64) : Option Outcome := do
  if b = 0 then return zero_division
  let q ← div a b
  let r ← rem a b
  let q ← if r ≠ 0 ∧ r ^^^ b < 0 then sub q 1 else some q
  return .int q

/-- `a % b`. -/
def binop_modulo (a b : Int64) : Option Outcome := do
  if b = 0 then return zero_division
  let r ← rem a b
  let r ← if r ≠ 0 ∧ decide (r < 0) ≠ decide (b < 0) then add r b else some r
  return .int r

def integer_div (n b : Int64) : Option Outcome := do
  if b = 0 then return zero_division
  let q ← div n b
  let inexact ← if n ^^^ b < 0 then (mul q b).map fun product => decide (product ≠ n) else some false
  let q ← if inexact then sub q 1 else some q
  return .int q

def integer_modulo (n b : Int64) : Option Outcome := do
  if b = 0 then return zero_division
  let r ← rem n b
  let r ← if r ≠ 0 ∧ r ^^^ b < 0 then add r b else some r
  return .int r

def integer_remainder (n b : Int64) : Option Outcome := do
  if b = 0 then return zero_division
  return .int (← rem n b)

def integer_divmod (n b : Int64) : Option Outcome := do
  if b = 0 then return zero_division
  let q ← div n b
  let r ← rem n b
  if r ≠ 0 ∧ r ^^^ b < 0 then return .pair (← sub q 1) (← add r b) else return .pair q r

def integer_ceildiv (n b : Int64) : Option Outcome := do
  if b = 0 then return zero_division
  let q ← div n b
  let r ← rem n b
  let q ← if r ≠ 0 ∧ 0 < r ^^^ b then add q 1 else some q
  return .int q

section
variable (to_int : Value → Int64)

/-- The operand of a method that converts what is no integer. -/
def converted_operand (args : List Value) (method : Int64 → Option Outcome) : Option Outcome :=
  match args with
  | [] => some (.raised "ArgumentError" "wrong number of arguments")
  | .int b :: _ => method b
  | other :: _ => method (to_int other)

/-- The operand of a method that takes integers only. -/
def integer_operand (name : String) (args : List Value) (method : Int64 → Option Outcome) : Option Outcome :=
  match args with
  | .int b :: _ => method b
  | _ => some (.raised "TypeError" ("Integer#" ++ name ++ " requires an Integer"))

/-- The division methods of dispatch_integer. What is no integer is read as a
double and converted. -/
def integer_division (n : Int64) (name : String) (args : List Value) : Option Outcome :=
  match name with
  | "div" => converted_operand to_int args (integer_div n)
  | "modulo" | "%" | "mod" => converted_operand to_int args (integer_modulo n)
  | "remainder" => converted_operand to_int args (integer_remainder n)
  | "divmod" => integer_operand "divmod" args (integer_divmod n)
  | "ceildiv" => integer_operand "ceildiv" args (integer_ceildiv n)
  | _ => some .unknown

end

/-- The quotient and the remainder of C with a divisor other than 0. -/
structure Truncated (a b q r : Int64) : Prop where
  div : div a b = some q
  rem : rem a b = some r
  sum : a.toInt = q.toInt * b.toInt + r.toInt
  small : r.toInt.natAbs < b.toInt.natAbs
  sign : r ≠ 0 → (r < 0 ↔ a < 0)
  /-- the quotient can be multiplied back -/
  product : ∃ p, mul q b = some p ∧ p.toInt = a.toInt - r.toInt
  /-- a remainder other than 0 leaves room next to the quotient -/
  room : r ≠ 0 → -2 ^ 62 ≤ q.toInt ∧ q.toInt ≤ 2 ^ 62

theorem exists_truncated {a b : Int64} (hb : b ≠ 0) (h : ¬ (a = Int64.minValue ∧ b = -1)) :
    ∃ q r, Truncated a b q r := by
  obtain ⟨q, hq, hqi⟩ := exists_div hb h
  obtain ⟨r, hr, hri⟩ := exists_rem hb h
  have hb' := toInt_ne_zero hb
  have hsign : r ≠ 0 → (r < 0 ↔ a < 0) := by
    intro hne
    have hne' := toInt_ne_zero hne
    rw [neg_iff_toInt, neg_iff_toInt, hri]
    rcases lt_or_ge a.toInt 0 with hneg | hpos
    · have := Int.tmod_nonneg b.toInt (Int.neg_nonneg_of_nonpos hneg.le)
      rw [Int.neg_tmod] at this
      omega
    · have := Int.tmod_nonneg b.toInt hpos
      omega
  refine ⟨q, r, hq, hr, ?_, ?_, hsign, ?_, ?_⟩
  · rw [hqi, hri]
    exact (Int.tdiv_mul_add_tmod a.toInt b.toInt).symm
  · rw [hri, Int.natAbs_tmod]
    exact Nat.mod_lt _ (by omega)
  · have hle : r.toInt.natAbs ≤ a.toInt.natAbs := by
      rw [hri, Int.natAbs_tmod]
      exact Nat.mod_le _ _
    have ha := toInt_bounds a
    have hproduct : q.toInt * b.toInt = a.toInt - r.toInt := by
      rw [hqi, hri]
      exact Int.tdiv_mul_self a.toInt b.toInt
    have hrange : -2 ^ 63 ≤ a.toInt - r.toInt ∧ a.toInt - r.toInt < 2 ^ 63 := by
      by_cases hne : r = 0
      · rw [hne, Int64.toInt_zero]
        omega
      · have := hsign hne
        rw [neg_iff_toInt, neg_iff_toInt] at this
        omega
    obtain ⟨p, hp⟩ := exists_fit hrange.1 hrange.2
    exact ⟨p, mul_eq (hp.trans hproduct.symm), hp⟩
  · intro hne
    have hne' := toInt_ne_zero hne
    have htwo : 2 ≤ b.toInt.natAbs := by
      by_contra hnot
      have hlt : r.toInt.natAbs < b.toInt.natAbs := by
        rw [hri, Int.natAbs_tmod]
        exact Nat.mod_lt _ (by omega)
      omega
    have habs : q.toInt.natAbs ≤ a.toInt.natAbs / 2 := by
      rw [hqi, Int.natAbs_tdiv]
      exact Nat.div_le_div_left htwo (by decide)
    have := toInt_bounds a
    omega

/-- A quotient and a remainder that has the sign of the divisor. -/
structure Floored (a b q r : Int64) : Prop where
  sum : a.toInt = q.toInt * b.toInt + r.toInt
  small : 0 ≤ |r.toInt| ∧ |r.toInt| < |b.toInt|
  sign : r = 0 ∨ (r < 0 ↔ b < 0)

/-- The remainder is of the wrong sign. -/
def Wrong (b r : Int64) : Prop := r ≠ 0 ∧ ¬ (r < 0 ↔ b < 0)

/-- The quotient and the remainder with the correction, where it is due. -/
structure Corrected (b q r q' r' : Int64) : Prop where
  wrong : Wrong b r → sub q 1 = some q' ∧ add r b = some r'
  right : ¬ Wrong b r → q' = q ∧ r' = r

/-- `q` and `r` with the correction for a remainder of the wrong sign. -/
theorem Truncated.floored {a b q r : Int64} (h : Truncated a b q r) (hb : b ≠ 0) :
    ∃ q' r', Floored a b q' r' ∧ Corrected b q r q' r' := by
  have hb' := toInt_ne_zero hb
  have hbounds := toInt_bounds b
  have hrbounds := toInt_bounds r
  by_cases hwrong : Wrong b r
  · obtain ⟨hne, hsign⟩ := id hwrong
    have hne' := toInt_ne_zero hne
    have hroom := h.room hne
    have hsmall := h.small
    rw [neg_iff_toInt, neg_iff_toInt] at hsign
    have hone : (1 : Int64).toInt = 1 := by decide
    obtain ⟨q', hq'⟩ := exists_fit (show -2 ^ 63 ≤ q.toInt - 1 by omega) (by omega)
    obtain ⟨r', hr'⟩ := exists_fit (show -2 ^ 63 ≤ r.toInt + b.toInt by omega) (by omega)
    refine ⟨q', r', ⟨?_, ⟨abs_nonneg _, ?_⟩, .inr ?_⟩, ?_⟩
    · rw [hq', hr', h.sum]
      ring
    · rw [Int.abs_eq_natAbs, Int.abs_eq_natAbs, hr']
      omega
    · rw [neg_iff_toInt, neg_iff_toInt, hr']
      omega
    · exact ⟨fun _ => ⟨sub_eq (by rw [hq', hone]), add_eq hr'⟩, fun hright => absurd hwrong hright⟩
  · refine ⟨q, r, ⟨h.sum, ⟨abs_nonneg _, ?_⟩, ?_⟩, ?_⟩
    · rw [Int.abs_eq_natAbs, Int.abs_eq_natAbs]
      exact_mod_cast h.small
    · by_contra hnot
      exact hwrong (not_or.mp hnot)
    · exact ⟨fun h => absurd h hwrong, fun _ => ⟨rfl, rfl⟩⟩

section
variable {a b q r q' r' : Int64} (hb : b ≠ 0) (ht : Truncated a b q r) (hc : Corrected b q r q' r')
include hb ht hc

theorem binop_divide_eq : binop_divide a b = some (.int q') := by
  have hwhen : (r ≠ 0 ∧ r ^^^ b < 0) ↔ Wrong b r := and_congr_right fun _ => xor_neg_iff
  simp only [binop_divide, hb, if_false, ht.div, ht.rem, Option.bind_eq_bind, Option.bind_some, pure]
  by_cases hwrong : Wrong b r
  · rw [if_pos (hwhen.mpr hwrong), (hc.wrong hwrong).1]
    rfl
  · rw [if_neg (hwhen.not.mpr hwrong), (hc.right hwrong).1]

theorem binop_modulo_eq : binop_modulo a b = some (.int r') := by
  have hwhen : (r ≠ 0 ∧ decide (r < 0) ≠ decide (b < 0)) ↔ Wrong b r := by
    rw [Wrong, ne_eq (decide _), decide_eq_decide]
  simp only [binop_modulo, hb, if_false, ht.rem, Option.bind_eq_bind, Option.bind_some, pure]
  by_cases hwrong : Wrong b r
  · rw [if_pos (hwhen.mpr hwrong), (hc.wrong hwrong).2]
    rfl
  · rw [if_neg (hwhen.not.mpr hwrong), (hc.right hwrong).2]

/-- A remainder is left exactly when the product is not the dividend, and it has
the dividend's sign. -/
theorem integer_div_eq : integer_div a b = some (.int q') := by
  obtain ⟨p, hp, hpi⟩ := ht.product
  have hinexact : p ≠ a ↔ r ≠ 0 := by
    rw [ne_eq, ne_eq, ← Int64.toInt_inj, ← Int64.toInt_inj, hpi, Int64.toInt_zero]
    omega
  have hwhen : (a ^^^ b < 0 ∧ p ≠ a) ↔ Wrong b r := by
    rw [hinexact, xor_neg_iff, Wrong, and_comm]
    refine and_congr_right fun hne => ?_
    rw [ht.sign hne]
  simp only [integer_div, hb, if_false, ht.div, hp, Option.bind_eq_bind, Option.bind_some, Option.map_some, pure]
  by_cases hwrong : Wrong b r
  · obtain ⟨hsign, hne⟩ := hwhen.mpr hwrong
    rw [if_pos hsign, if_pos (decide_eq_true hne), (hc.wrong hwrong).1]
    rfl
  · rw [(hc.right hwrong).1]
    by_cases hsign : a ^^^ b < 0
    · have hsame : p = a := by_contra fun hne => hwrong (hwhen.mp ⟨hsign, hne⟩)
      simp [hsame]
    · simp [hsign]

theorem integer_modulo_eq : integer_modulo a b = some (.int r') := by
  have hwhen : (r ≠ 0 ∧ r ^^^ b < 0) ↔ Wrong b r := and_congr_right fun _ => xor_neg_iff
  simp only [integer_modulo, hb, if_false, ht.rem, Option.bind_eq_bind, Option.bind_some, pure]
  by_cases hwrong : Wrong b r
  · rw [if_pos (hwhen.mpr hwrong), (hc.wrong hwrong).2]
    rfl
  · rw [if_neg (hwhen.not.mpr hwrong), (hc.right hwrong).2]

theorem integer_divmod_eq : integer_divmod a b = some (.pair q' r') := by
  have hwhen : (r ≠ 0 ∧ r ^^^ b < 0) ↔ Wrong b r := and_congr_right fun _ => xor_neg_iff
  simp only [integer_divmod, hb, if_false, ht.div, ht.rem, Option.bind_eq_bind, Option.bind_some, pure]
  by_cases hwrong : Wrong b r
  · obtain ⟨hq, hr⟩ := hc.wrong hwrong
    rw [if_pos (hwhen.mpr hwrong), hq, hr]
    rfl
  · obtain ⟨rfl, rfl⟩ := hc.right hwrong
    rw [if_neg (hwhen.not.mpr hwrong)]

omit hb

/-- Operations that wrap, as the evaluator's model has them, come to the same. -/
theorem floor_quotient_eq : floor_quotient a b = q' := by
  have hwhen : (r ≠ 0 ∧ r ^^^ b < 0) ↔ Wrong b r := and_congr_right fun _ => xor_neg_iff
  unfold floor_quotient
  simp only [div_wraps ht.div, rem_wraps ht.rem]
  by_cases hwrong : Wrong b r
  · rw [if_pos (hwhen.mpr hwrong), sub_wraps (hc.wrong hwrong).1]
  · rw [if_neg (hwhen.not.mpr hwrong), (hc.right hwrong).1]

theorem floor_remainder_eq : floor_remainder a b = r' := by
  have hwhen : (r ≠ 0 ∧ decide (r < 0) ≠ decide (b < 0)) ↔ Wrong b r := by
    rw [Wrong, ne_eq (decide _), decide_eq_decide]
  unfold floor_remainder
  simp only [rem_wraps ht.rem]
  by_cases hwrong : Wrong b r
  · rw [if_pos (hwhen.mpr hwrong), add_wraps (hc.wrong hwrong).2]
  · rw [if_neg (hwhen.not.mpr hwrong), (hc.right hwrong).2]

end

/-- A positive divisor always has a quotient and a remainder. -/
theorem exists_divmod {a b : Int64} (hb : 0 < b.toInt) : ∃ q r, binop_divide a b = some (.int q) ∧
    binop_modulo a b = some (.int r) ∧ integer_divmod a b = some (.pair q r) ∧ q.toInt = a.toInt / b.toInt ∧ r.toInt = a.toInt % b.toInt := by
  have hne : b ≠ 0 := by
    rintro rfl
    exact lt_irrefl _ hb
  have hleast : ¬ (a = Int64.minValue ∧ b = -1) := by
    rintro ⟨-, rfl⟩
    exact absurd hb (by decide)
  obtain ⟨q, r, ht⟩ := exists_truncated hne hleast
  obtain ⟨q', r', hfloored, hc⟩ := ht.floored hne
  have hsmall := hfloored.small.2
  have hpositive : 0 ≤ r'.toInt := by
    rcases hfloored.sign with rfl | hsign
    · exact le_rfl
    · rw [neg_iff_toInt, neg_iff_toInt] at hsign
      omega
  rw [abs_of_nonneg hpositive, abs_of_pos hb] at hsmall
  have hsum := hfloored.sum
  have hunique := (Int.ediv_emod_unique hb).mpr ⟨show r'.toInt + b.toInt * q'.toInt = a.toInt by rw [hsum]; ring, hpositive, hsmall⟩
  exact ⟨q', r', binop_divide_eq hne ht hc, binop_modulo_eq hne ht hc, integer_divmod_eq hne ht hc, hunique.1.symm, hunique.2.symm⟩

/-- The quotient rounded up is one more where the remainder has the divisor's sign. -/
theorem Truncated.ceil {a b q r : Int64} (h : Truncated a b q r) (hb : b ≠ 0) :
    ⌈(a.toInt : ℚ) / b.toInt⌉ = q.toInt + if r ≠ 0 ∧ (r < 0 ↔ b < 0) then 1 else 0 := by
  have hb' : (b.toInt : ℚ) ≠ 0 := by exact_mod_cast toInt_ne_zero hb
  have hquotient : (a.toInt : ℚ) / b.toInt = r.toInt / b.toInt + q.toInt := by
    rw [h.sum]
    push_cast
    field_simp
    ring
  have hsmall : |(r.toInt : ℚ) / b.toInt| < 1 := by
    rw [abs_div, div_lt_one (abs_pos.mpr hb')]
    have hlt := h.small
    have habs : |r.toInt| < |b.toInt| := by
      rw [Int.abs_eq_natAbs, Int.abs_eq_natAbs]
      exact_mod_cast hlt
    exact_mod_cast habs
  obtain ⟨hgreater, hless⟩ := abs_lt.mp hsmall
  rw [hquotient, Int.ceil_add_intCast, add_comm]
  congr 1
  split
  · rename_i hsame
    obtain ⟨hne, hsign⟩ := hsame
    have hne' := toInt_ne_zero hne
    rw [neg_iff_toInt, neg_iff_toInt] at hsign
    have hpos : (0 : ℚ) < r.toInt / b.toInt := by
      rcases lt_or_gt_of_ne hne' with hneg | hpos
      · exact div_pos_of_neg_of_neg (by exact_mod_cast hneg) (by exact_mod_cast hsign.mp hneg)
      · exact div_pos (by exact_mod_cast hpos) (by
          have := toInt_ne_zero hb
          exact_mod_cast (show 0 < b.toInt by omega))
    rw [Int.ceil_eq_iff]
    push_cast
    exact ⟨by linarith, hless.le⟩
  · rename_i hdiffer
    have hneg : (r.toInt : ℚ) / b.toInt ≤ 0 := by
      by_cases hzero : r = 0
      · simp [hzero]
      · have hsign : ¬ (r < 0 ↔ b < 0) := fun hsign => hdiffer ⟨hzero, hsign⟩
        rw [neg_iff_toInt, neg_iff_toInt] at hsign
        rcases lt_or_ge r.toInt 0 with hneg | hpos
        · exact div_nonpos_of_nonpos_of_nonneg (by exact_mod_cast hneg.le) (by
            exact_mod_cast (show 0 ≤ b.toInt by omega))
        · exact div_nonpos_of_nonneg_of_nonpos (by exact_mod_cast hpos) (by
            exact_mod_cast (show b.toInt ≤ 0 by omega))
    rw [Int.ceil_eq_iff]
    push_cast
    exact ⟨by linarith, hneg⟩

theorem integer_ceildiv_eq {a b q r : Int64} (hb : b ≠ 0) (ht : Truncated a b q r) :
    ∃ c, integer_ceildiv a b = some (.int c) ∧ c.toInt = ⌈(a.toInt : ℚ) / b.toInt⌉ := by
  have hsmall := ht.small
  have hdiffer : r ≠ b := by
    rintro rfl
    exact lt_irrefl _ hsmall
  have hwhen : (r ≠ 0 ∧ 0 < r ^^^ b) ↔ r ≠ 0 ∧ (r < 0 ↔ b < 0) := and_congr_right fun _ => xor_pos_iff hdiffer
  rw [ht.ceil hb]
  simp only [integer_ceildiv, hb, if_false, ht.div, ht.rem, Option.bind_eq_bind, Option.bind_some, pure]
  by_cases hsame : r ≠ 0 ∧ (r < 0 ↔ b < 0)
  · have hroom := ht.room hsame.1
    have hone : (1 : Int64).toInt = 1 := by decide
    obtain ⟨c, hc⟩ := exists_fit (show -2 ^ 63 ≤ q.toInt + 1 by omega) (by omega)
    refine ⟨c, ?_, by rw [hc, if_pos hsame]⟩
    rw [if_pos (hwhen.mpr hsame), add_eq (by rw [hc, hone])]
    rfl
  · exact ⟨q, by rw [if_neg (hwhen.not.mpr hsame)], by rw [if_neg hsame, add_zero]⟩

/-- The operators and the methods divide `a` by `b` with the quotient `q` and the
remainder `r`, and these are those of a division rounded down. -/
structure DivisionLaw (fpu : Fpu) (rest : Builtins) (to_int : Value → Int64) (a b q r : Int64) : Prop where
  evaluates_quotient : Evaluates (fpu.builtins rest) "/" a b (.int q)
  evaluates_remainder : Evaluates (fpu.builtins rest) "%" a b (.int r)
  quotient : binop_divide a b = some (.int q)
  remainder : binop_modulo a b = some (.int r)
  floored : Floored a b q r
  div : integer_division to_int a "div" [.int b] = some (.int q)
  modulo : integer_division to_int a "modulo" [.int b] = some (.int r)
  divmod : integer_division to_int a "divmod" [.int b] = some (.pair q r)
  ceildiv : ∃ c, integer_division to_int a "ceildiv" [.int b] = some (.int c) ∧ c.toInt = ⌈(a.toInt : ℚ) / b.toInt⌉
  truncated : ∃ t, integer_division to_int a "remainder" [.int b] = some (.int t) ∧
    t.toInt = a.toInt.tmod b.toInt ∧ (t = 0 ∨ (t < 0 ↔ a < 0))

theorem division_law (fpu : Fpu) (rest : Builtins) (to_int : Value → Int64) {a b : Int64} (hb : b ≠ 0)
    (h : ¬ (a = Int64.minValue ∧ b = -1)) : ∃ q r, DivisionLaw fpu rest to_int a b q r := by
  obtain ⟨q, r, ht⟩ := exists_truncated hb h
  obtain ⟨q', r', hfloored, hc⟩ := ht.floored hb
  have hoperation : ∀ env site, integer_operation fpu floor_remainder env "/" a b site = return .int q' := by
    intro env site
    simp only [integer_operation, hb, if_false, floor_quotient_eq ht hc]
  have hoperation' : ∀ env site, integer_operation fpu floor_remainder env "%" a b site = return .int r' := by
    intro env site
    simp only [integer_operation, hb, if_false, floor_remainder_eq ht hc]
  refine ⟨q', r', {
    evaluates_quotient := evaluates_of_operation fpu rest a b (by decide) hoperation
    evaluates_remainder := evaluates_of_operation fpu rest a b (by decide) hoperation'
    quotient := binop_divide_eq hb ht hc
    remainder := binop_modulo_eq hb ht hc
    floored := hfloored
    div := integer_div_eq hb ht hc
    modulo := integer_modulo_eq hb ht hc
    divmod := integer_divmod_eq hb ht hc
    ceildiv := integer_ceildiv_eq hb ht
    truncated := ⟨r, ?_, ?_, ?_⟩ }⟩
  · change integer_remainder a b = some (.int r)
    simp only [integer_remainder, hb, if_false, ht.rem, Option.bind_eq_bind, Option.bind_some, pure]
  · obtain ⟨t, hrem, hti⟩ := exists_rem hb h
    cases Option.some.inj (ht.rem.symm.trans hrem)
    exact hti
  · by_cases hzero : r = 0
    · exact .inl hzero
    · exact .inr (ht.sign hzero)

/-- Neither operator reaches an operation that is undefined, and where the
quotient is a 64-bit integer all divisions follow the law, exactly when it is not
the least integer that is divided by -1. -/
theorem division_law_iff (fpu : Fpu) (rest : Builtins) (to_int : Value → Int64) (a b : Int64) (hb : b ≠ 0) :
    ((binop_divide a b).isSome ∧ (binop_modulo a b).isSome ∧
      (-2 ^ 63 ≤ ⌊(a.toInt : ℚ) / b.toInt⌋ ∧ ⌊(a.toInt : ℚ) / b.toInt⌋ < 2 ^ 63 →
        ∃ q r, DivisionLaw fpu rest to_int a b q r)) ↔
      ¬ (a = Int64.minValue ∧ b = -1) := by
  constructor
  · rintro ⟨hdivide, -, -⟩ ⟨rfl, rfl⟩
    revert hdivide
    decide
  · intro h
    obtain ⟨q, r, hlaw⟩ := division_law fpu rest to_int hb h
    rw [hlaw.quotient, hlaw.remainder]
    exact ⟨rfl, rfl, fun _ => ⟨q, r, hlaw⟩⟩

/-- -7 by 2 is -4 with 1 left over. -/
theorem division_law_iff_minus_seven :
    (binop_divide (-7) 2).isSome ∧ (binop_modulo (-7) 2).isSome :=
  have h := (division_law_iff nan_fpu no_builtins (fun _ => 0) (-7) 2 (by decide)).mpr (by decide)
  ⟨h.1, h.2.1⟩

/-- The least integer by -1 is left to the machine, which traps. -/
theorem least_by_minus_one_traps :
    ¬ (∀ a b : Int64, b ≠ 0 → (binop_divide a b).isSome ∧ (binop_modulo a b).isSome) := by
  intro hall
  have hdivide := (hall Int64.minValue (-1) (by decide)).1
  revert hdivide
  decide

end stoned
