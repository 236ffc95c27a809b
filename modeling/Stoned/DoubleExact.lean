import Mathlib.Algebra.Order.Ring.Int
import Mathlib.Tactic.Positivity
import Stoned.DoubleOrder

namespace stoned.Double

/-! Which integers doubles are, and what the other ones are converted to. -/

/-- The number with 53 binary digits nearest to a natural number, of two that
are equally near the even one. -/
def significant (n : Nat) : Nat :=
  if n.log2 ≤ 52 then n else rounded n (n.log2 - 52) * 2 ^ (n.log2 - 52)

/-- So for an integer. -/
def round (i : Int) : Int := if i < 0 then -(significant i.natAbs : Int) else significant i.natAbs

theorem log2_mul_two_pow {a : Nat} (h : a ≠ 0) (d : Nat) : (a * 2 ^ d).log2 = a.log2 + d := by
  induction d with
  | zero => rw [Nat.pow_zero, Nat.mul_one, Nat.add_zero]
  | succ d ih =>
    rw [Nat.pow_succ, ← Nat.mul_assoc, Nat.mul_comm _ 2, Nat.log2_two_mul (Nat.mul_ne_zero h (Nat.two_pow_pos d).ne'), ih]
    rfl

/-- Numbers with 53 binary digits are left as they are. -/
theorem significant_of_short {a : Nat} (h : a < 2 ^ 53) (d : Nat) : significant (a * 2 ^ d) = a * 2 ^ d := by
  unfold significant
  split
  · rfl
  · rename_i hlong
    have ha : a ≠ 0 := by
      rintro rfl
      exact hlong (by simp)
    have hlog : (a * 2 ^ d).log2 = a.log2 + d := log2_mul_two_pow ha d
    have hshort : a.log2 < 53 := (Nat.log2_lt ha).mpr h
    have hdropped : a * 2 ^ d = a * 2 ^ (52 - a.log2) * 2 ^ ((a * 2 ^ d).log2 - 52) := by
      rw [hlog, Nat.mul_assoc, ← Nat.pow_add]
      congr 2
      omega
    generalize (a * 2 ^ d).log2 - 52 = dropped at hdropped
    rw [hdropped, rounded, Nat.mul_div_cancel _ (Nat.two_pow_pos _), Nat.mul_mod_left]
    have hpos := Nat.two_pow_pos (dropped - 1)
    rw [if_neg (by omega), Nat.add_zero]

/-- The absolute value of a double is such a number. -/
theorem significant_scaled (bits : Nat) : significant (scaled bits) = scaled bits := by
  have hfraction : bits % 2 ^ 52 < 2 ^ 52 := Nat.mod_lt _ (by decide)
  unfold scaled
  split
  · have h := significant_of_short (show bits % 2 ^ 52 < 2 ^ 53 by omega) 0
    rwa [Nat.pow_zero, Nat.mul_one] at h
  · exact significant_of_short (by omega) _

/-- The value behind an exponent, also where the fraction is carried into it. -/
theorem scaled_add {r : Nat} (h : 2 ^ 52 ≤ r) (h' : r ≤ 2 ^ 53) (k : Nat) : scaled (k * 2 ^ 52 + r) = r * 2 ^ k := by
  rcases Nat.lt_or_eq_of_le h' with hlt | rfl
  · have hexponent : (k * 2 ^ 52 + r) / 2 ^ 52 = k + 1 := by omega
    have hfraction : (k * 2 ^ 52 + r) % 2 ^ 52 = r - 2 ^ 52 := by omega
    rw [scaled, hexponent, hfraction, if_neg (by omega), Nat.add_sub_cancel, Nat.add_sub_cancel' h]
  · have hexponent : (k * 2 ^ 52 + 2 ^ 53) / 2 ^ 52 = k + 2 := by omega
    have hfraction : (k * 2 ^ 52 + 2 ^ 53) % 2 ^ 52 = 0 := by omega
    rw [scaled, hexponent, hfraction, if_neg (by omega), show k + 2 - 1 = k + 1 by omega, Nat.pow_succ]
    omega

/-- The value of the nearest double, in units of the least positive number. -/
theorem scaled_nearest (n : Nat) : scaled (nearest n) = significant n * 2 ^ 1074 := by
  by_cases hn : n = 0
  · rw [hn, show nearest 0 = 0 by decide, scaled_zero, show significant 0 = 0 by decide, Nat.zero_mul]
  have hle : 2 ^ n.log2 ≤ n := Nat.log2_self_le hn
  have hlt : n < 2 ^ (n.log2 + 1) := Nat.lt_log2_self
  unfold significant
  split
  · rename_i hshort
    have hfrom : 2 ^ 52 ≤ n * 2 ^ (52 - n.log2) := by
      calc 2 ^ 52 = 2 ^ n.log2 * 2 ^ (52 - n.log2) := by rw [← Nat.pow_add]; congr 1; omega
        _ ≤ n * 2 ^ (52 - n.log2) := Nat.mul_le_mul_right _ hle
    have hto : n * 2 ^ (52 - n.log2) ≤ 2 ^ 53 := by
      calc n * 2 ^ (52 - n.log2) ≤ 2 ^ (n.log2 + 1) * 2 ^ (52 - n.log2) := Nat.mul_le_mul_right _ hlt.le
        _ = 2 ^ 53 := by rw [← Nat.pow_add]; congr 1; omega
    have hexponent : 52 - n.log2 + (n.log2 + 1022) = 1074 := by omega
    rw [nearest_of_short hn hshort, scaled_add hfrom hto, Nat.mul_assoc, ← Nat.pow_add, hexponent]
  · rename_i hlong
    have hfrom : 2 ^ 52 ≤ n / 2 ^ (n.log2 - 52) := by
      rw [Nat.le_div_iff_mul_le (Nat.two_pow_pos _), ← Nat.pow_add]
      exact le_trans (le_of_eq (by congr 1; omega)) hle
    have hto : n / 2 ^ (n.log2 - 52) < 2 ^ 53 := by
      rw [Nat.div_lt_iff_lt_mul (Nat.two_pow_pos _), ← Nat.pow_add]
      exact lt_of_lt_of_eq hlt (by congr 1; omega)
    have hge := le_rounded n (n.log2 - 52)
    have hup := rounded_le n (n.log2 - 52)
    have hexponent : n.log2 + 1022 = n.log2 - 52 + 1074 := by omega
    rw [nearest_of_long hlong, scaled_add (by omega) (by omega), hexponent, Nat.pow_add, Nat.mul_assoc]

theorem significant_mono {m n : Nat} (h : m ≤ n) : significant m ≤ significant n := by
  have hscaled : scaled (nearest m) ≤ scaled (nearest n) := by
    rcases Nat.lt_or_eq_of_le (nearest_mono h) with hlt | heq
    · exact (scaled_lt hlt).le
    · rw [heq]
  rw [scaled_nearest, scaled_nearest] at hscaled
  exact Nat.le_of_mul_le_mul_right hscaled (Nat.two_pow_pos _)

/-- Powers of two only move the digits. -/
theorem significant_mul_two_pow (n k : Nat) : significant (n * 2 ^ k) = significant n * 2 ^ k := by
  by_cases hshort : n.log2 ≤ 52
  · have hn : n < 2 ^ 53 := lt_of_lt_of_le Nat.lt_log2_self (Nat.pow_le_pow_right (by decide) (by omega))
    rw [significant_of_short hn, significant, if_pos hshort]
  · have hn : n ≠ 0 := by
      rintro rfl
      exact hshort (by decide)
    have hlog : (n * 2 ^ k).log2 = n.log2 + k := log2_mul_two_pow hn k
    have hdropped : n.log2 + k - 52 = n.log2 - 52 + k := by omega
    rw [significant, hlog, if_neg (by omega), hdropped, significant, if_neg hshort, Nat.mul_assoc, ← Nat.pow_add]
    congr 1
    obtain ⟨d, hd⟩ : ∃ d, n.log2 - 52 = d + 1 := ⟨n.log2 - 53, by omega⟩
    have hpos := Nat.two_pow_pos k
    have hkept : n * 2 ^ k / 2 ^ (d + 1 + k) = n / 2 ^ (d + 1) := by
      rw [Nat.pow_add, Nat.mul_div_mul_right _ _ hpos]
    have hrest : n * 2 ^ k % 2 ^ (d + 1 + k) = n % 2 ^ (d + 1) * 2 ^ k := by
      rw [Nat.pow_add, Nat.mul_mod_mul_right]
    have hhalf : 2 ^ (d + 1 + k - 1) = 2 ^ (d + 1 - 1) * 2 ^ k := by
      rw [← Nat.pow_add]
      congr 1
      omega
    have hless : 2 ^ (d + 1 - 1) * 2 ^ k < n % 2 ^ (d + 1) * 2 ^ k ↔ 2 ^ (d + 1 - 1) < n % 2 ^ (d + 1) :=
      Nat.mul_lt_mul_right hpos
    have hsame : n % 2 ^ (d + 1) * 2 ^ k = 2 ^ (d + 1 - 1) * 2 ^ k ↔ n % 2 ^ (d + 1) = 2 ^ (d + 1 - 1) :=
      Nat.mul_left_inj hpos.ne'
    rw [hd]
    simp only [rounded, hkept, hrest, hhalf, hless, hsame]

/-- Far numbers are rounded to even ones. -/
theorem two_dvd_significant {n : Nat} (h : 2 ^ 53 ≤ n) : 2 ∣ significant n := by
  have hlog : 53 ≤ n.log2 := (Nat.le_log2 (by omega)).mpr h
  rw [significant, if_neg (by omega)]
  exact Dvd.dvd.mul_left (dvd_pow_self 2 (by omega)) _

theorem round_of_nonneg {i : Int} (h : 0 ≤ i) : round i = significant i.natAbs := if_neg (by omega)

theorem round_mono {i j : Int} (h : i ≤ j) : round i ≤ round j := by
  rcases le_or_gt 0 i with hi | hi
  · rw [round_of_nonneg hi, round_of_nonneg (hi.trans h)]
    exact_mod_cast significant_mono (by omega)
  · rcases le_or_gt 0 j with hj | hj
    · rw [round_of_nonneg hj, round, if_pos hi]
      omega
    · rw [round, round, if_pos hi, if_pos hj]
      have := significant_mono (show j.natAbs ≤ i.natAbs by omega)
      omega

theorem round_mul_two_pow (i : Int) (k : Nat) : round (i * 2 ^ k) = round i * 2 ^ k := by
  have habs : (i * 2 ^ k).natAbs = i.natAbs * 2 ^ k := by
    rw [Int.natAbs_mul, Int.natAbs_pow]
    rfl
  have hpos : (0 : Int) < 2 ^ k := Int.pow_pos (by decide)
  have hneg : i * 2 ^ k < 0 ↔ i < 0 := by
    rcases lt_or_ge i 0 with hi | hi
    · exact iff_of_true (Int.mul_neg_of_neg_of_pos hi hpos) hi
    · exact iff_of_false (Int.not_lt.mpr (Int.mul_nonneg hi hpos.le)) (Int.not_lt.mpr hi)
  unfold round
  rw [habs, significant_mul_two_pow]
  simp only [hneg]
  split <;> push_cast <;> ring

/-- An integer of at most 53 binary digits is a double. -/
theorem round_of_small {i : Int} (h : i.natAbs ≤ 2 ^ 53) : round i = i := by
  have hkept : significant i.natAbs = i.natAbs := by
    rcases Nat.lt_or_eq_of_le h with hlt | heq
    · have hshort := significant_of_short hlt 0
      rwa [Nat.pow_zero, Nat.mul_one] at hshort
    · rw [heq]
      decide
  rw [round, hkept]
  split <;> omega

theorem magnitude_eq (x : Double) : x.magnitude = scaled (x.bits.toNat % 2 ^ 63) := by
  have hexponent : x.bits.toNat / 2 ^ 52 % 2 ^ 11 = x.bits.toNat % 2 ^ 63 / 2 ^ 52 := by omega
  have hfraction : x.bits.toNat % 2 ^ 52 = x.bits.toNat % 2 ^ 63 % 2 ^ 52 := by omega
  unfold magnitude scaled exponent fraction
  rw [hexponent, hfraction]

theorem natAbs_value (x : Double) : x.value.natAbs = scaled (x.bits.toNat % 2 ^ 63) := by
  rw [← magnitude_eq, value]
  split
  · rw [Int.natAbs_neg]
    rfl
  · rfl

/-- The value of a double is what it is rounded to. -/
theorem round_value (x : Double) : round x.value = x.value := by
  have hkept : significant x.value.natAbs = x.value.natAbs := by rw [natAbs_value, significant_scaled]
  rw [round, hkept]
  split <;> omega

/-- The value of a converted integer. -/
theorem of_int_value_eq (i : Int64) : (of_int i).value = round i.toInt * 2 ^ 1074 := by
  have hneg : i < 0 ↔ i.toInt < 0 := by rw [Int64.lt_iff_toInt_lt, Int64.toInt_zero]
  rw [of_int_value, scaled_nearest, round]
  simp only [hneg]
  split
  · rw [Nat.cast_mul, Nat.cast_pow, Int.neg_mul]
    rfl
  · rw [Nat.cast_mul, Nat.cast_pow]
    rfl

/-- Only an integer of 53 binary digits, behind which zeros may stand, is the value of a double. -/
theorem round_eq_of_value {x : Double} {i : Int} (h : x.value = i * 2 ^ 1074) : round i = i := by
  have hround := x.round_value
  rw [h, round_mul_two_pow] at hround
  exact mul_right_cancel₀ (by positivity) hround

/-- From 2 ^ 53 on all doubles are integers. -/
theorem two_pow_dvd_value {x : Double} {k : Nat} (h : 2 ^ (53 + k) ≤ x.value.natAbs) : (2 : Int) ^ k ∣ x.value := by
  rw [natAbs_value] at h
  rw [← Int.natAbs_dvd_natAbs, natAbs_value, Int.natAbs_pow]
  have hfraction : x.bits.toNat % 2 ^ 63 % 2 ^ 52 < 2 ^ 52 := Nat.mod_lt _ (by decide)
  unfold scaled at h ⊢
  split
  · rename_i hzero
    rw [if_pos hzero] at h
    have hle : 2 ^ 53 ≤ 2 ^ (53 + k) := Nat.pow_le_pow_right (by decide) (by omega)
    omega
  · rename_i hnormal
    rw [if_neg hnormal] at h
    have hlt : (2 ^ 52 + x.bits.toNat % 2 ^ 63 % 2 ^ 52) * 2 ^ (x.bits.toNat % 2 ^ 63 / 2 ^ 52 - 1) <
        2 ^ (53 + (x.bits.toNat % 2 ^ 63 / 2 ^ 52 - 1)) := by
      rw [Nat.pow_add]
      exact Nat.mul_lt_mul_of_pos_right (by omega) (Nat.two_pow_pos _)
    have hexponent : k ≤ x.bits.toNat % 2 ^ 63 / 2 ^ 52 - 1 := by
      have := (Nat.pow_lt_pow_iff_right (show 1 < 2 by decide)).mp (h.trans_lt hlt)
      omega
    exact Dvd.dvd.mul_left (pow_dvd_pow 2 hexponent) _

/-- A double that is truncated comes to an integer that is a double. -/
theorem round_truncated (x : Double) : round (x.value.tdiv (2 ^ 1074)) = x.value.tdiv (2 ^ 1074) := by
  by_cases hsmall : (x.value.tdiv (2 ^ 1074)).natAbs ≤ 2 ^ 53
  · exact round_of_small hsmall
  · have hle : 2 ^ (53 + 1074) ≤ x.value.natAbs := by
      rw [Int.natAbs_tdiv, Int.natAbs_pow] at hsmall
      rw [Nat.pow_add]
      have hdiv := Nat.div_mul_le_self x.value.natAbs (2 ^ 1074)
      exact le_trans (Nat.mul_le_mul_right _ (Nat.le_of_not_le hsmall)) hdiv
    obtain ⟨i, hi⟩ := two_pow_dvd_value hle
    have hne : (2 : Int) ^ 1074 ≠ 0 := by positivity
    have hquotient : x.value.tdiv (2 ^ 1074) = i := by
      rw [hi]
      exact Int.mul_tdiv_cancel_left i hne
    rw [hquotient]
    exact round_eq_of_value (hi.trans (Int.mul_comm _ i))

theorem round_of_same {i j : Int64} (h : of_int i = of_int j) : round i.toInt = round j.toInt := by
  have hvalue := congrArg value h
  rw [of_int_value_eq, of_int_value_eq] at hvalue
  exact mul_right_cancel₀ (by positivity) hvalue

/-- Integers of at most 53 binary digits are compared as they are. -/
theorem less_of_small {i j : Int64} (hi : i.toInt.natAbs ≤ 2 ^ 53) (hj : j.toInt.natAbs ≤ 2 ^ 53) :
    (of_int i).less (of_int j) = decide (i < j) := by
  rw [Bool.eq_iff_iff, decide_eq_true_iff, of_int_less_iff]
  refine and_iff_left_of_imp fun hlt hsame => ?_
  have hround := round_of_same hsame
  rw [round_of_small hi, round_of_small hj] at hround
  rw [Int64.lt_iff_toInt_lt] at hlt
  omega

end stoned.Double
