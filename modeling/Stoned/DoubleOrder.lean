import Stoned.Double
import Mathlib.Tactic.Ring

namespace stoned.Double

/-! The conversion to double precision keeps the order of integers, but not all
of their differences. -/

/-- The absolute value behind bits that have no sign. -/
def scaled (bits : Nat) : Nat :=
  if bits / 2 ^ 52 = 0 then bits % 2 ^ 52 else (2 ^ 52 + bits % 2 ^ 52) * 2 ^ (bits / 2 ^ 52 - 1)

theorem scaled_lt_next {m : Nat} : scaled m < 2 ^ (52 + m / 2 ^ 52) := by
  have hfraction : m % 2 ^ 52 < 2 ^ 52 := Nat.mod_lt _ (by decide)
  unfold scaled
  split
  · rename_i hzero
    rw [hzero]
    exact hfraction
  · calc (2 ^ 52 + m % 2 ^ 52) * 2 ^ (m / 2 ^ 52 - 1) < 2 ^ 53 * 2 ^ (m / 2 ^ 52 - 1) :=
          Nat.mul_lt_mul_of_pos_right (by omega) (Nat.two_pow_pos _)
      _ = 2 ^ (52 + m / 2 ^ 52) := by rw [← Nat.pow_add]; congr 1; omega

theorem le_scaled {m : Nat} (h : m / 2 ^ 52 ≠ 0) : 2 ^ (51 + m / 2 ^ 52) ≤ scaled m := by
  rw [scaled, if_neg h]
  calc 2 ^ (51 + m / 2 ^ 52) = 2 ^ 52 * 2 ^ (m / 2 ^ 52 - 1) := by rw [← Nat.pow_add]; congr 1; omega
    _ ≤ (2 ^ 52 + m % 2 ^ 52) * 2 ^ (m / 2 ^ 52 - 1) := Nat.mul_le_mul_right _ (by omega)

/-- Greater bits stand for greater numbers. -/
theorem scaled_lt {m n : Nat} (h : m < n) : scaled m < scaled n := by
  by_cases hsame : m / 2 ^ 52 = n / 2 ^ 52
  · have hfraction : m % 2 ^ 52 < n % 2 ^ 52 := by omega
    unfold scaled
    rw [hsame]
    split
    · exact hfraction
    · exact Nat.mul_lt_mul_of_pos_right (by omega) (Nat.two_pow_pos _)
  · have hle : m / 2 ^ 52 ≤ n / 2 ^ 52 := Nat.div_le_div_right h.le
    calc scaled m < 2 ^ (52 + m / 2 ^ 52) := scaled_lt_next
      _ ≤ 2 ^ (51 + n / 2 ^ 52) := Nat.pow_le_pow_right (by decide) (by omega)
      _ ≤ scaled n := le_scaled (by omega)

/-- A number without its last `dropped` bits, rounded. -/
def rounded (n dropped : Nat) : Nat :=
  n / 2 ^ dropped +
    if 2 ^ (dropped - 1) < n % 2 ^ dropped ∨ (n % 2 ^ dropped = 2 ^ (dropped - 1) ∧ n / 2 ^ dropped % 2 = 1) then 1
    else 0

theorem le_rounded (n dropped : Nat) : n / 2 ^ dropped ≤ rounded n dropped := Nat.le_add_right ..

theorem rounded_le (n dropped : Nat) : rounded n dropped ≤ n / 2 ^ dropped + 1 := by
  unfold rounded
  split <;> omega

theorem rounded_mono {m n : Nat} (h : m ≤ n) (dropped : Nat) : rounded m dropped ≤ rounded n dropped := by
  have hkept : m / 2 ^ dropped ≤ n / 2 ^ dropped := Nat.div_le_div_right h
  by_cases hsame : m / 2 ^ dropped = n / 2 ^ dropped
  · have hm := Nat.div_add_mod m (2 ^ dropped)
    have hn := Nat.div_add_mod n (2 ^ dropped)
    rw [hsame] at hm
    have hrest : m % 2 ^ dropped ≤ n % 2 ^ dropped := by omega
    unfold rounded
    rw [hsame]
    split <;> split <;> omega
  · calc rounded m dropped ≤ m / 2 ^ dropped + 1 := rounded_le m dropped
      _ ≤ n / 2 ^ dropped := by omega
      _ ≤ rounded n dropped := le_rounded n dropped

theorem nearest_of_short {n : Nat} (hn : n ≠ 0) (h : n.log2 ≤ 52) :
    nearest n = (n.log2 + 1022) * 2 ^ 52 + n * 2 ^ (52 - n.log2) := by
  simp [nearest, hn, h]

theorem nearest_of_long {n : Nat} (h : ¬ n.log2 ≤ 52) :
    nearest n = (n.log2 + 1022) * 2 ^ 52 + rounded n (n.log2 - 52) := by
  have hn : n ≠ 0 := by
    rintro rfl
    exact h (by decide)
  simp only [nearest, hn, if_false, h, rounded]
  omega

/-- The exponent's bits. -/
theorem nearest_bounds {n : Nat} (hn : n ≠ 0) :
    (n.log2 + 1023) * 2 ^ 52 ≤ nearest n ∧ nearest n ≤ (n.log2 + 1024) * 2 ^ 52 := by
  have hle : 2 ^ n.log2 ≤ n := Nat.log2_self_le hn
  have hlt : n < 2 ^ (n.log2 + 1) := Nat.lt_log2_self
  by_cases hshort : n.log2 ≤ 52
  · have hfrom : 2 ^ 52 ≤ n * 2 ^ (52 - n.log2) := by
      calc 2 ^ 52 = 2 ^ n.log2 * 2 ^ (52 - n.log2) := by rw [← Nat.pow_add]; congr 1; omega
        _ ≤ n * 2 ^ (52 - n.log2) := Nat.mul_le_mul_right _ hle
    have hto : n * 2 ^ (52 - n.log2) ≤ 2 ^ 53 := by
      calc n * 2 ^ (52 - n.log2) ≤ 2 ^ (n.log2 + 1) * 2 ^ (52 - n.log2) := Nat.mul_le_mul_right _ hlt.le
        _ = 2 ^ 53 := by rw [← Nat.pow_add]; congr 1; omega
    rw [nearest_of_short hn hshort]
    omega
  · have hfrom : 2 ^ 52 ≤ n / 2 ^ (n.log2 - 52) := by
      rw [Nat.le_div_iff_mul_le (Nat.two_pow_pos _), ← Nat.pow_add]
      exact le_trans (le_of_eq (by congr 1; omega)) hle
    have hto : n / 2 ^ (n.log2 - 52) < 2 ^ 53 := by
      rw [Nat.div_lt_iff_lt_mul (Nat.two_pow_pos _), ← Nat.pow_add]
      exact lt_of_lt_of_eq hlt (by congr 1; omega)
    have hge := le_rounded n (n.log2 - 52)
    have hup := rounded_le n (n.log2 - 52)
    rw [nearest_of_long hshort]
    omega

theorem nearest_mono {m n : Nat} (h : m ≤ n) : nearest m ≤ nearest n := by
  by_cases hm : m = 0
  · subst hm
    exact Nat.zero_le _
  · have hn : n ≠ 0 := by omega
    have hlog : m.log2 ≤ n.log2 := by
      rw [Nat.le_log2 hn]
      exact (Nat.log2_self_le hm).trans h
    by_cases hsame : m.log2 = n.log2
    · by_cases hshort : n.log2 ≤ 52
      · rw [nearest_of_short hm (by omega), nearest_of_short hn hshort, hsame]
        exact Nat.add_le_add_left (Nat.mul_le_mul_right _ h) _
      · rw [nearest_of_long (by omega), nearest_of_long hshort, hsame]
        exact Nat.add_le_add_left (rounded_mono h _) _
    · have hupper := (nearest_bounds hm).2
      have hlower := (nearest_bounds hn).1
      omega

theorem nearest_pos {n : Nat} (h : n ≠ 0) : 0 < nearest n := by
  have := (nearest_bounds h).1
  omega

theorem natAbs_lt (i : Int64) : i.toInt.natAbs < 2 ^ 64 := by
  have := i.toInt_lt
  have := i.le_toInt
  omega

theorem of_int_bits (i : Int64) :
    (of_int i).bits.toNat = (if i < 0 then 2 ^ 63 else 0) + nearest i.toInt.natAbs := by
  have hnear := nearest_lt (natAbs_lt i)
  rw [of_int, UInt64.toNat_ofNat', Nat.mod_eq_of_lt]
  split <;> omega

/-- The value of a converted integer. -/
theorem of_int_value (i : Int64) :
    (of_int i).value = if i < 0 then -(scaled (nearest i.toInt.natAbs) : Int) else scaled (nearest i.toInt.natAbs) := by
  have hnear := nearest_lt (natAbs_lt i)
  have hbits := of_int_bits i
  have hmagnitude : (of_int i).magnitude = scaled (nearest i.toInt.natAbs) := by
    unfold magnitude scaled exponent fraction
    rw [hbits]
    have hexponent : ((if i < 0 then 2 ^ 63 else 0) + nearest i.toInt.natAbs) / 2 ^ 52 % 2 ^ 11 =
        nearest i.toInt.natAbs / 2 ^ 52 := by split <;> omega
    have hfraction : ((if i < 0 then 2 ^ 63 else 0) + nearest i.toInt.natAbs) % 2 ^ 52 =
        nearest i.toInt.natAbs % 2 ^ 52 := by split <;> omega
    rw [hexponent, hfraction]
  have hnegative : (of_int i).negative = decide (i < 0) := by
    unfold negative
    rw [hbits, decide_eq_decide]
    by_cases hi : i < 0
    · simp only [hi, if_true, iff_true]
      omega
    · simp only [hi, if_false, iff_false]
      omega
  rw [value, hnegative, hmagnitude]
  simp

theorem scaled_zero : scaled 0 = 0 := by decide

/-- A greater integer is converted to no smaller number, and to the same one
only where the doubles are the same. -/
theorem of_int_value_lt_iff {i j : Int64} (h : i < j) : (of_int i).value < (of_int j).value ↔ of_int i ≠ of_int j := by
  constructor
  · rintro hlt heq
    rw [heq] at hlt
    exact lt_irrefl _ hlt
  · intro hne
    have hbits : (of_int i).bits.toNat ≠ (of_int j).bits.toNat := by
      intro hsame
      exact hne (congrArg mk (UInt64.toNat_inj.mp hsame))
    rw [of_int_bits, of_int_bits] at hbits
    rw [of_int_value, of_int_value]
    have hint := Int64.lt_iff_toInt_lt.mp h
    by_cases hi : i < 0
    · have hi' := Int64.lt_iff_toInt_lt.mp hi
      rw [Int64.toInt_zero] at hi'
      by_cases hj : j < 0
      · have hj' := Int64.lt_iff_toInt_lt.mp hj
        rw [Int64.toInt_zero] at hj'
        simp only [hi, hj, if_true] at hbits ⊢
        have hmono := nearest_mono (show j.toInt.natAbs ≤ i.toInt.natAbs by omega)
        have hlt := scaled_lt (show nearest j.toInt.natAbs < nearest i.toInt.natAbs by omega)
        omega
      · have hpos := scaled_lt (nearest_pos (show i.toInt.natAbs ≠ 0 by omega))
        rw [scaled_zero] at hpos
        simp only [hi, hj, if_true, if_false]
        omega
    · have hi' := (Int64.lt_iff_toInt_lt.not.mp hi)
      rw [Int64.toInt_zero] at hi'
      have hj : ¬ j < 0 := by
        rw [Int64.lt_iff_toInt_lt, Int64.toInt_zero]
        omega
      simp only [hi, hj, if_false] at hbits ⊢
      have hmono := nearest_mono (show i.toInt.natAbs ≤ j.toInt.natAbs by omega)
      have hlt := scaled_lt (show nearest i.toInt.natAbs < nearest j.toInt.natAbs by omega)
      omega

/-- Comparing doubles orders integers where they are not the same double. -/
theorem of_int_less_iff (i j : Int64) : (of_int i).less (of_int j) = true ↔ i < j ∧ of_int i ≠ of_int j := by
  have hvalue : (of_int i).less (of_int j) = true ↔ (of_int i).value < (of_int j).value := by
    simp [less, of_int_nan]
  rw [hvalue]
  rcases lt_trichotomy i.toInt j.toInt with hlt | heq | hgt
  · have h := Int64.lt_iff_toInt_lt.mpr hlt
    simp [h, of_int_value_lt_iff h]
  · have h := Int64.toInt_inj.mp heq
    simp [h]
  · have h := Int64.lt_iff_toInt_lt.mpr hgt
    have hnot : ¬ i < j := by
      rw [Int64.lt_iff_toInt_lt]
      omega
    simp only [hnot, false_and, iff_false, not_lt]
    by_cases hsame : of_int j = of_int i
    · rw [hsame]
    · exact ((of_int_value_lt_iff h).mpr hsame).le

theorem of_int_at_most_iff (i j : Int64) : (of_int i).at_most (of_int j) = true ↔ i ≤ j ∨ of_int i = of_int j := by
  have hvalue : (of_int i).at_most (of_int j) = true ↔ ¬ (of_int j).less (of_int i) = true := by
    simp [less, at_most, of_int_nan]
  have hle : i ≤ j ↔ ¬ j < i := by
    rw [Int64.le_iff_toInt_le, Int64.lt_iff_toInt_lt]
    omega
  rw [hvalue, of_int_less_iff, hle]
  grind

end stoned.Double
