import Mathlib.Data.Rat.Cast.Order
import Mathlib.RingTheory.Coprime.Lemmas
import Mathlib.RingTheory.Int.Basic
import Stoned.Rational

namespace stoned

open program program.signed

/-! The laws of the operations on rationals. -/

/-- A power is found up to a unit of the last of its 53 digits. -/
structure Fpu.Accurate (fpu : Fpu) : Prop extends fpu.Documented where
  pow_near : ∀ (x y : Double) (b : Int) (k : Nat), x.nan = false → y.nan = false →
    x.value = b * 2 ^ 1074 → y.value = k * 2 ^ 1074 → (b ^ k).natAbs ≤ 2 ^ 63 →
    (fpu.pow x y).nan = false ∧ 2 ^ 52 * |(fpu.pow x y).value - b ^ k * 2 ^ 1074| ≤ |b ^ k| * 2 ^ 1074

namespace Double

theorem significant_near (n : Nat) : 2 ^ 52 * |(significant n : Int) - n| ≤ n := by
  unfold significant
  split
  · rw [Int.sub_self, abs_zero, Int.mul_zero]
    omega
  · rename_i hlong
    have hn : n ≠ 0 := by
      rintro rfl
      exact hlong (by decide)
    have hle : 2 ^ 52 * 2 ^ (n.log2 - 52) ≤ n := by
      rw [← Nat.pow_add, Nat.add_sub_cancel' (by omega)]
      exact Nat.log2_self_le hn
    have hfrom := Nat.mul_le_mul_right (2 ^ (n.log2 - 52)) (le_rounded n (n.log2 - 52))
    have hto := Nat.mul_le_mul_right (2 ^ (n.log2 - 52)) (rounded_le n (n.log2 - 52))
    have hsum := Nat.div_add_mod n (2 ^ (n.log2 - 52))
    have hrest := Nat.mod_lt n (Nat.two_pow_pos (n.log2 - 52))
    rw [Nat.mul_comm] at hsum
    rw [Nat.add_mul, Nat.one_mul] at hto
    have hnear : |((rounded n (n.log2 - 52) * 2 ^ (n.log2 - 52) : Nat) : Int) - n| ≤ ((2 ^ (n.log2 - 52) : Nat) : Int) := by
      rw [abs_le]
      omega
    have := Int.mul_le_mul_of_nonneg_left hnear (show (0 : Int) ≤ 2 ^ 52 by decide)
    omega

/-- Rounding moves an integer by at most a unit of the last of its 53 digits. -/
theorem round_near (i : Int) : 2 ^ 52 * |round i - i| ≤ |i| := by
  have h := significant_near i.natAbs
  unfold round
  split
  · rw [Int.abs_eq_natAbs i, show -(significant i.natAbs : Int) - i = -((significant i.natAbs : Int) - i.natAbs) by omega, abs_neg]
    exact h
  · rw [Int.abs_eq_natAbs i, show (significant i.natAbs : Int) - i = (significant i.natAbs : Int) - i.natAbs by omega]
    exact h

end Double

namespace rationals

open integers

/-- An integer is a fraction over 1. -/
def Operand.fraction : Operand → Rational
  | .rational q => q
  | .integer m => ⟨m, 1⟩

section operations
variable {p : Rational} {o : Operand}

theorem mul_one_eq (n : Int64) : mul n 1 = some n := mul_eq (by rw [show (1 : Int64).toInt = 1 from rfl, Int.mul_one])

/-- The operations on an integer are those on the fraction. -/
theorem Rational.plus_eq : p.plus o = (do
    new (← add (← mul p.numerator o.fraction.denominator) (← mul o.fraction.numerator p.denominator))
      (← mul p.denominator o.fraction.denominator)) := by
  cases o with
  | rational q => rfl
  | integer m =>
    simp only [Operand.fraction, mul_one_eq, Option.bind_eq_bind, Option.bind_some]
    rfl

theorem Rational.minus_eq : p.minus o = (do
    new (← sub (← mul p.numerator o.fraction.denominator) (← mul o.fraction.numerator p.denominator))
      (← mul p.denominator o.fraction.denominator)) := by
  cases o with
  | rational q => rfl
  | integer m =>
    simp only [Operand.fraction, mul_one_eq, Option.bind_eq_bind, Option.bind_some]
    rfl

theorem Rational.times_eq : p.times o = (do
    new (← mul p.numerator o.fraction.numerator) (← mul p.denominator o.fraction.denominator)) := by
  cases o with
  | rational q => rfl
  | integer m =>
    simp only [Operand.fraction, mul_one_eq, Option.bind_eq_bind, Option.bind_some]
    rfl

theorem Rational.divide_eq : p.divide o = if o.fraction.numerator = 0 then some zero_division
    else (do new (← mul p.numerator o.fraction.denominator) (← mul p.denominator o.fraction.numerator)) := by
  cases o with
  | rational q => rfl
  | integer m =>
    simp only [Operand.fraction, mul_one_eq, Option.bind_eq_bind, Option.bind_some]
    rfl

theorem Rational.order_eq : p.order o = (do
    return integer_order (← mul p.numerator o.fraction.denominator) (← mul o.fraction.numerator p.denominator)) := by
  cases o with
  | rational q => rfl
  | integer m =>
    simp only [Operand.fraction, mul_one_eq, Option.bind_eq_bind, Option.bind_some]
    rfl

theorem Rational.eq_iff {p q : Rational} : p = q ↔ p.numerator = q.numerator ∧ p.denominator = q.denominator := by
  cases p
  cases q
  rw [Rational.mk.injEq]

theorem Rational.equal_iff : p.equal o = true ↔ p = o.fraction := by
  cases o with
  | rational q =>
    unfold Rational.equal Operand.fraction
    rw [Rational.eq_iff, Bool.and_eq_true, decide_eq_true_iff, decide_eq_true_iff]
  | integer m =>
    unfold Rational.equal Operand.fraction
    rw [Rational.eq_iff, Bool.and_eq_true, decide_eq_true_iff, decide_eq_true_iff, and_comm]

end operations

section fractions
variable {p q : Rational}

theorem Rational.Normal.denominator_pos (hp : p.Normal) : (0 : ℚ) < p.denominator.toInt := by exact_mod_cast hp.positive

/-- Fractions in lowest terms with one value are one. -/
theorem Rational.Normal.eq_of_value (hp : p.Normal) (hq : q.Normal) (h : p.value = q.value) : p = q := by
  have hpd := hp.denominator_pos.ne'
  have hqd := hq.denominator_pos.ne'
  have hpos := hp.positive
  have hpos' := hq.positive
  unfold Rational.value at h
  rw [div_eq_div_iff hpd hqd] at h
  have hcross : p.numerator.toInt * q.denominator.toInt = q.numerator.toInt * p.denominator.toInt := by exact_mod_cast h
  have hleft : p.denominator.toInt ∣ q.denominator.toInt :=
    Int.dvd_of_dvd_mul_right_of_gcd_one (a := p.denominator.toInt) (b := p.numerator.toInt) (hcross ▸ Int.dvd_mul_left ..)
      (by rw [Int.gcd_comm, hp.coprime])
  have hright : q.denominator.toInt ∣ p.denominator.toInt :=
    Int.dvd_of_dvd_mul_right_of_gcd_one (a := q.denominator.toInt) (b := q.numerator.toInt) (hcross ▸ Int.dvd_mul_left ..)
      (by rw [Int.gcd_comm, hq.coprime])
  have hden := Int.dvd_antisymm hpos.le hpos'.le hleft hright
  refine Rational.eq_iff.mpr ⟨Int64.toInt_inj.mp ?_, Int64.toInt_inj.mp hden⟩
  rw [hden] at hcross
  exact Int.eq_of_mul_eq_mul_right hpos'.ne' hcross

theorem Rational.Normal.value_lt_iff (hp : p.Normal) (hq : q.Normal) :
    p.value < q.value ↔ p.numerator.toInt * q.denominator.toInt < q.numerator.toInt * p.denominator.toInt := by
  unfold Rational.value
  rw [div_lt_div_iff₀ hp.denominator_pos hq.denominator_pos]
  exact_mod_cast Iff.rfl

end fractions

section order
variable {a b : Int64}

/-- A numerator that is computed has to fit, and its negative too. -/
theorem exact_fit_iff {i : Int} (hb : 0 < b.toInt) : Exact ((signed.fit i).bind fun n => new n b) ((i : ℚ) / b.toInt) ↔ -2 ^ 63 < i ∧ i < 2 ^ 63 := by
  have hzero : b ≠ 0 := by
    rintro rfl
    cases hb
  have hleast : b ≠ Int64.minValue := by
    rintro rfl
    cases hb
  constructor
  · rintro ⟨q, hq, -⟩
    obtain ⟨n, hn, hq⟩ := Option.bind_eq_some_iff.mp hq
    have hfits := fits_of_fit hn
    have hnum := (of_new hq).2.1
    rw [ne_eq, least_toInt, fit_eq_some.mp hn] at hnum
    exact ⟨by have := hfits.1; omega, hfits.2⟩
  · rintro ⟨hlow, hhigh⟩
    obtain ⟨n, hn, hni⟩ := exists_fit_eq (i := i) ⟨by omega, hhigh⟩
    rw [hn, Option.bind_some, ← hni]
    refine exact_new hzero ?_ hleast
    rw [ne_eq, least_toInt, hni]
    omega

end order

section laws
variable {p : Rational} {o : Operand}

theorem Rational.Normal.plus_iff (hp : p.Normal) (ho : o.fraction.Normal)
    (hx : Fits (p.numerator.toInt * o.fraction.denominator.toInt)) (hy : Fits (o.fraction.numerator.toInt * p.denominator.toInt))
    (hz : Fits (p.denominator.toInt * o.fraction.denominator.toInt)) :
    Exact (p.plus o) (p.value + o.fraction.value) ↔
      -2 ^ 63 < p.numerator.toInt * o.fraction.denominator.toInt + o.fraction.numerator.toInt * p.denominator.toInt ∧
      p.numerator.toInt * o.fraction.denominator.toInt + o.fraction.numerator.toInt * p.denominator.toInt < 2 ^ 63 := by
  have hpd := hp.denominator_pos.ne'
  have hod := ho.denominator_pos.ne'
  obtain ⟨x, hx, hxi⟩ := exists_fit_eq hx
  obtain ⟨y, hy, hyi⟩ := exists_fit_eq hy
  obtain ⟨z, hz, hzi⟩ := exists_fit_eq hz
  have hpos : 0 < z.toInt := by
    rw [hzi]
    exact Int.mul_pos hp.positive ho.positive
  have hvalue : p.value + o.fraction.value = ((x.toInt + y.toInt : Int) : ℚ) / z.toInt := by
    rw [Rational.value, Rational.value, div_add_div _ _ hpd hod, hxi, hyi, hzi]
    push_cast
    rw [mul_comm (p.denominator.toInt : ℚ) (o.fraction.numerator.toInt : ℚ)]
  rw [Rational.plus_eq, mul, hx, mul, hy, mul, hz, hvalue, ← hxi, ← hyi]
  exact exact_fit_iff hpos

theorem Rational.Normal.minus_iff (hp : p.Normal) (ho : o.fraction.Normal)
    (hx : Fits (p.numerator.toInt * o.fraction.denominator.toInt)) (hy : Fits (o.fraction.numerator.toInt * p.denominator.toInt))
    (hz : Fits (p.denominator.toInt * o.fraction.denominator.toInt)) :
    Exact (p.minus o) (p.value - o.fraction.value) ↔
      -2 ^ 63 < p.numerator.toInt * o.fraction.denominator.toInt - o.fraction.numerator.toInt * p.denominator.toInt ∧
      p.numerator.toInt * o.fraction.denominator.toInt - o.fraction.numerator.toInt * p.denominator.toInt < 2 ^ 63 := by
  have hpd := hp.denominator_pos.ne'
  have hod := ho.denominator_pos.ne'
  obtain ⟨x, hx, hxi⟩ := exists_fit_eq hx
  obtain ⟨y, hy, hyi⟩ := exists_fit_eq hy
  obtain ⟨z, hz, hzi⟩ := exists_fit_eq hz
  have hpos : 0 < z.toInt := by
    rw [hzi]
    exact Int.mul_pos hp.positive ho.positive
  have hvalue : p.value - o.fraction.value = ((x.toInt - y.toInt : Int) : ℚ) / z.toInt := by
    rw [Rational.value, Rational.value, div_sub_div _ _ hpd hod, hxi, hyi, hzi]
    push_cast
    rw [mul_comm (p.denominator.toInt : ℚ) (o.fraction.numerator.toInt : ℚ)]
  rw [Rational.minus_eq, mul, hx, mul, hy, mul, hz, hvalue, ← hxi, ← hyi]
  exact exact_fit_iff hpos

theorem Rational.Normal.times_iff (hp : p.Normal) (ho : o.fraction.Normal)
    (hu : Fits (p.numerator.toInt * o.fraction.numerator.toInt)) (hz : Fits (p.denominator.toInt * o.fraction.denominator.toInt)) :
    Exact (p.times o) (p.value * o.fraction.value) ↔ -2 ^ 63 < p.numerator.toInt * o.fraction.numerator.toInt := by
  obtain ⟨z, hz, hzi⟩ := exists_fit_eq hz
  have hpos : 0 < z.toInt := by
    rw [hzi]
    exact Int.mul_pos hp.positive ho.positive
  have hvalue : p.value * o.fraction.value = ((p.numerator.toInt * o.fraction.numerator.toInt : Int) : ℚ) / z.toInt := by
    rw [Rational.value, Rational.value, div_mul_div_comm, hzi]
    push_cast
    rfl
  rw [Rational.times_eq, mul, mul, hz, hvalue]
  exact (exact_fit_iff hpos).trans (and_iff_left hu.2)

theorem Rational.Normal.divide_iff (hp : p.Normal) (hne : o.fraction.numerator ≠ 0)
    (hx : Fits (p.numerator.toInt * o.fraction.denominator.toInt)) (hv : Fits (p.denominator.toInt * o.fraction.numerator.toInt)) :
    Exact (p.divide o) (p.value / o.fraction.value) ↔
      -2 ^ 63 < p.numerator.toInt * o.fraction.denominator.toInt ∧ -2 ^ 63 < p.denominator.toInt * o.fraction.numerator.toInt := by
  have hxlow := hx.1
  have hvlow := hv.1
  obtain ⟨x, hx, hxi⟩ := exists_fit_eq hx
  obtain ⟨v, hv, hvi⟩ := exists_fit_eq hv
  have hzero : v ≠ 0 := by
    rintro rfl
    exact Int.mul_ne_zero hp.positive.ne' (toInt_ne_zero hne) hvi.symm
  have hvalue : p.value / o.fraction.value = (x.toInt : ℚ) / v.toInt := by
    rw [Rational.value, Rational.value, div_div_div_eq, hxi, hvi]
    push_cast
    rfl
  rw [Rational.divide_eq, if_neg hne, mul, hx, mul, hv, hvalue]
  refine (exact_new_iff hzero).trans (and_congr ?_ ?_)
  · rw [ne_eq, least_toInt, hxi]
    omega
  · rw [ne_eq, least_toInt, hvi]
    omega

theorem Rational.Normal.order_iff (hp : p.Normal) (ho : o.fraction.Normal)
    (hx : Fits (p.numerator.toInt * o.fraction.denominator.toInt)) (hy : Fits (o.fraction.numerator.toInt * p.denominator.toInt)) :
    p.order o = some (if p.value < o.fraction.value then -1 else if o.fraction.value < p.value then 1 else 0) ↔
      p.numerator.toInt * o.fraction.denominator.toInt = o.fraction.numerator.toInt * p.denominator.toInt ∨
      Double.round (p.numerator.toInt * o.fraction.denominator.toInt) ≠ Double.round (o.fraction.numerator.toInt * p.denominator.toInt) := by
  obtain ⟨x, hx, hxi⟩ := exists_fit_eq hx
  obtain ⟨y, hy, hyi⟩ := exists_fit_eq hy
  rw [Rational.order_eq, mul, hx, mul, hy]
  simp only [hp.value_lt_iff ho, ho.value_lt_iff hp, ← hxi, ← hyi]
  exact Option.some_inj.trans integer_order_iff

end laws

/-- The powers that are doubles, large odd ones of -1 apart. -/
def PowerExact (n : Int) (e : Nat) : Prop := Double.round (n ^ e) = n ^ e ∧ ¬ (n = -1 ∧ e % 2 = 1 ∧ 2 ^ 53 < e)

section powers
variable {fpu : Fpu} {a b exp : Int64} {e : Nat}

/-- The base and the exponent of a power that fits become doubles whose power
is near. -/
theorem power_rounded (h : exp.toInt = e) (hb : 0 < b.toInt) (hfits : Fits (b.toInt ^ e)) (hfar : Double.round (b.toInt ^ e) ≠ b.toInt ^ e) :
    ∃ k : Nat, Double.round exp.toInt = k ∧ 2 ^ 52 * |Double.round b.toInt ^ k - b.toInt ^ e| ≤ |b.toInt ^ e| ∧
      (Double.round b.toInt ^ k).natAbs ≤ 2 ^ 63 := by
  have hpos : 0 < b.toInt ^ e := Int.pow_pos hb
  have hbound := hfits.2
  rcases Nat.lt_or_ge e 2 with hlow | hhigh
  · have he : e = 0 ∨ e = 1 := by omega
    rcases he with rfl | rfl
    · exact absurd (Double.round_of_small (i := b.toInt ^ 0) (by rw [Int.pow_zero]; decide)) hfar
    · refine ⟨1, ?_, ?_, ?_⟩
      · rw [h, Double.round_of_small (by decide)]
      · rw [Int.pow_one, Int.pow_one]
        exact Double.round_near b.toInt
      · rw [Int.pow_one] at hbound ⊢
        have hmono := Double.round_mono (show b.toInt ≤ 2 ^ 63 by omega)
        have hmono' := Double.round_mono (show 0 ≤ b.toInt by omega)
        rw [show Double.round (2 ^ 63) = 2 ^ 63 by decide] at hmono
        rw [show Double.round 0 = 0 by decide] at hmono'
        omega
  · have hbase : 2 ≤ b.toInt := by
      by_contra hone
      rw [show b.toInt = 1 by omega, Int.one_pow] at hfar
      exact hfar (by decide)
    have hle : 2 ^ e ≤ b.toInt ^ e := pow_le_pow_left₀ (by decide) hbase e
    have hexponent : e < 63 := by
      by_contra hlarge
      have hmono : (2 : Int) ^ 63 ≤ 2 ^ e := pow_le_pow_right₀ (by decide) (by omega)
      omega
    have hsquare : b.toInt ^ 2 ≤ b.toInt ^ e := pow_le_pow_right₀ (by omega) hhigh
    have hsmall : b.toInt ≤ 2 ^ 53 := by
      by_contra hlarge
      have hmono : ((2 : Int) ^ 53) ^ 2 ≤ b.toInt ^ 2 := pow_le_pow_left₀ (by decide) (by omega) 2
      omega
    refine ⟨e, ?_, ?_, ?_⟩
    · rw [h, Double.round_of_small (by omega)]
    · rw [Double.round_of_small (by omega), Int.sub_self, abs_zero]
      positivity
    · rw [Double.round_of_small (by omega)]
      omega

/-- Two small errors leave a quotient between half and twice what it is to be. -/
theorem quotient_near {t w v unit : Int} (hunit : 0 < unit) (ht : 2 ^ 53 < t) (hw : 2 ^ 52 * |w - t| ≤ |t|)
    (hv : 2 ^ 52 * |v - w * unit| ≤ |w| * unit) : 0 ≤ v ∧ t < 2 * (v / unit) ∧ v / unit < 2 * t := by
  rw [abs_of_pos (show 0 < t by omega)] at hw
  have hwt := abs_le.mp (show |w - t| ≤ t / 8 by omega)
  rw [abs_of_pos (show 0 < w by omega)] at hv
  have hpos : 0 < w * unit := Int.mul_pos (by omega) hunit
  have hvw := abs_le.mp (show |v - w * unit| ≤ w * unit / 8 by omega)
  have hlow := Int.mul_le_mul_of_nonneg_right (show 7 * t ≤ 8 * w by omega) hunit.le
  have hhigh := Int.mul_le_mul_of_nonneg_right (show 8 * w ≤ 9 * t by omega) hunit.le
  have hfar := Int.mul_le_mul_of_nonneg_right (show 8 ≤ t by omega) hunit.le
  have hhalf := Int.mul_le_mul_of_nonneg_right (show 2 * (t / 2) ≤ t by omega) hunit.le
  rw [Int.mul_assoc, Int.mul_assoc] at hlow hhigh
  rw [Int.mul_assoc] at hhalf
  refine ⟨by omega, ?_, ?_⟩
  · have hle : t / 2 + 1 ≤ v / unit := by
      rw [Int.le_ediv_iff_mul_le hunit, Int.add_mul, Int.one_mul]
      omega
    omega
  · rw [Int.ediv_lt_iff_lt_mul hunit, Int.mul_assoc]
    omega

/-- Between half and twice what it is to be, a power of a positive base is found. -/
theorem integer_power_near (hfpu : fpu.Accurate) (h : exp.toInt = e) (hb : 0 < b.toInt) (hfits : Fits (b.toInt ^ e))
    (hleast : integer_power fpu b exp ≠ Int64.minValue) :
    b.toInt ^ e < 2 * (integer_power fpu b exp).toInt ∧ (integer_power fpu b exp).toInt < 2 * b.toInt ^ e := by
  have hpos : 0 < b.toInt ^ e := Int.pow_pos hb
  by_cases hexact : Double.round (b.toInt ^ e) = b.toInt ^ e
  · have hpower := (hfpu.toDocumented.pow_eq_iff h hfits).mpr ⟨hexact, by omega⟩
    unfold integer_power
    omega
  · have hlarge : 2 ^ 53 < b.toInt ^ e := by
      by_contra hsmall
      exact hexact (Double.round_of_small (by omega))
    obtain ⟨k, hk, hnear, hsize⟩ := power_rounded h hb hfits hexact
    obtain ⟨hnan, herror⟩ := hfpu.pow_near (.of_int b) (.of_int exp) _ k (Double.of_int_nan b) (Double.of_int_nan exp)
      (Double.of_int_value_eq b) (by rw [Double.of_int_value_eq, hk]) hsize
    obtain ⟨hnonneg, hlow, hhigh⟩ := quotient_near (by positivity) hlarge hnear herror
    have hfits' : Fits ((fpu.pow (.of_int b) (.of_int exp)).value.tdiv (2 ^ 1074)) := by
      by_contra hover
      exact hleast (hfpu.to_int_other _ (.inr hover))
    unfold integer_power
    rw [hfpu.to_int_fits _ hnan hfits', Int.tdiv_eq_ediv_of_nonneg hnonneg]
    exact ⟨hlow, hhigh⟩

/-- The powers of a fraction in lowest terms are found exactly when both are
doubles and can be negated. -/
theorem exact_powers_iff (hfpu : fpu.Accurate) (h : exp.toInt = e) (hgcd : Int.gcd a.toInt b.toInt = 1) (hb : b ≠ 0)
    (hpos : 0 < a.toInt ∨ 0 < b.toInt) (hafits : Fits (a.toInt ^ e)) (hbfits : Fits (b.toInt ^ e)) :
    Exact (new (integer_power fpu a exp) (integer_power fpu b exp)) (((a.toInt : ℚ) / b.toInt) ^ e) ↔
      (PowerExact a.toInt e ∧ PowerExact b.toInt e) ∧ a.toInt ^ e ≠ -2 ^ 63 ∧ b.toInt ^ e ≠ -2 ^ 63 := by
  have haiff := hfpu.toDocumented.pow_eq_iff h hafits
  have hbiff := hfpu.toDocumented.pow_eq_iff h hbfits
  have hbne : b.toInt ^ e ≠ 0 := pow_ne_zero _ (toInt_ne_zero hb)
  have hbne' : (b.toInt : ℚ) ^ e ≠ 0 := by exact_mod_cast hbne
  constructor
  · intro hexact
    have hvalue := hexact.eq
    obtain ⟨q, hq, -⟩ := hexact
    obtain ⟨hden, hnum, hleast⟩ := of_new hq
    have hden' : ((integer_power fpu b exp).toInt : ℚ) ≠ 0 := by exact_mod_cast toInt_ne_zero hden
    rw [div_pow, div_eq_div_iff hbne' hden'] at hvalue
    have hcross : a.toInt ^ e * (integer_power fpu b exp).toInt = (integer_power fpu a exp).toInt * b.toInt ^ e := by exact_mod_cast hvalue
    have hcoprime : IsCoprime (b.toInt ^ e) (a.toInt ^ e) := ((Int.isCoprime_iff_gcd_eq_one.mpr hgcd).symm).pow
    obtain ⟨j, hj⟩ := hcoprime.dvd_of_dvd_mul_left (Dvd.intro_left _ hcross.symm)
    have hj' : (integer_power fpu a exp).toInt = a.toInt ^ e * j := by
      refine Int.eq_of_mul_eq_mul_right hbne ?_
      rw [← hcross, hj]
      ring
    -- one of the two is positive, and too far from its other multiples
    have hone : j = 1 := by
      have hunique {t : Int} (ht : 0 < t) (hlow : t < 2 * (t * j)) (hhigh : t * j < 2 * t) : j = 1 := by
        have hmin : 0 < j := by
          by_contra hneg
          have := Int.mul_nonpos_of_nonneg_of_nonpos ht.le (Int.not_lt.mp hneg)
          omega
        have hmax : j < 2 := by
          by_contra hbig
          have := Int.mul_le_mul_of_nonneg_left (Int.not_lt.mp hbig) ht.le
          omega
        omega
      rcases hpos with hapos | hbpos
      · have hnear := integer_power_near hfpu h hapos hafits hnum
        rw [hj'] at hnear
        exact hunique (Int.pow_pos hapos) hnear.1 hnear.2
      · have hnear := integer_power_near hfpu h hbpos hbfits hleast
        rw [hj] at hnear
        exact hunique (Int.pow_pos hbpos) hnear.1 hnear.2
    rw [hone, Int.mul_one] at hj hj'
    rw [ne_eq, least_toInt] at hnum hleast
    exact ⟨⟨haiff.mp hj', hbiff.mp hj⟩, by rwa [← hj'], by rwa [← hj]⟩
  · rintro ⟨⟨hapower, hbpower⟩, haleast, hbleast⟩
    have ha := haiff.mpr hapower
    have hb := hbiff.mpr hbpower
    have hexact := @exact_new (integer_power fpu a exp) (integer_power fpu b exp) ?_ ?_ ?_
    · rw [integer_power, integer_power, ha, hb] at hexact
      rw [div_pow]
      exact_mod_cast hexact
    · intro hzero
      rw [integer_power] at hzero
      rw [hzero] at hb
      exact hbne hb.symm
    · rw [ne_eq, least_toInt, integer_power, ha]
      exact haleast
    · rw [ne_eq, least_toInt, integer_power, hb]
      exact hbleast

end powers

/-- The laws of rationals: of one that is built, and of the operations on one in
lowest terms. -/
structure ArithmeticLaw (fpu : Fpu) (num den : Int64) (p : Rational) (o : Operand) (exp : Int64) : Prop where
  built : den ≠ 0 → Exact (new num den) ((num.toInt : ℚ) / den.toInt)
  equal : p.equal o = true ↔ p.value = o.fraction.value
  plus : Fits (p.numerator.toInt * o.fraction.denominator.toInt) → Fits (o.fraction.numerator.toInt * p.denominator.toInt) →
    Fits (p.denominator.toInt * o.fraction.denominator.toInt) → Exact (p.plus o) (p.value + o.fraction.value)
  minus : Fits (p.numerator.toInt * o.fraction.denominator.toInt) → Fits (o.fraction.numerator.toInt * p.denominator.toInt) →
    Fits (p.denominator.toInt * o.fraction.denominator.toInt) → Exact (p.minus o) (p.value - o.fraction.value)
  times : Fits (p.numerator.toInt * o.fraction.numerator.toInt) → Fits (p.denominator.toInt * o.fraction.denominator.toInt) →
    Exact (p.times o) (p.value * o.fraction.value)
  divide : o.fraction.numerator ≠ 0 → Fits (p.numerator.toInt * o.fraction.denominator.toInt) →
    Fits (p.denominator.toInt * o.fraction.numerator.toInt) → Exact (p.divide o) (p.value / o.fraction.value)
  power : p.numerator ≠ 0 → Fits (p.numerator.toInt ^ exp.toInt.natAbs) → Fits (p.denominator.toInt ^ exp.toInt.natAbs) →
    Exact (p.power fpu exp) (p.value ^ exp.toInt)
  order : Fits (p.numerator.toInt * o.fraction.denominator.toInt) → Fits (o.fraction.numerator.toInt * p.denominator.toInt) →
    p.order o = some (if p.value < o.fraction.value then -1 else if o.fraction.value < p.value then 1 else 0)

/-- Where they hold: what is negated can be, the sums fit, the powers are
doubles, and what is compared does not become one double. -/
structure Within (num den : Int64) (p : Rational) (o : Operand) (exp : Int64) : Prop where
  built : den ≠ 0 → num ≠ Int64.minValue ∧ den ≠ Int64.minValue
  plus : Fits (p.numerator.toInt * o.fraction.denominator.toInt) → Fits (o.fraction.numerator.toInt * p.denominator.toInt) →
    Fits (p.denominator.toInt * o.fraction.denominator.toInt) →
    -2 ^ 63 < p.numerator.toInt * o.fraction.denominator.toInt + o.fraction.numerator.toInt * p.denominator.toInt ∧
    p.numerator.toInt * o.fraction.denominator.toInt + o.fraction.numerator.toInt * p.denominator.toInt < 2 ^ 63
  minus : Fits (p.numerator.toInt * o.fraction.denominator.toInt) → Fits (o.fraction.numerator.toInt * p.denominator.toInt) →
    Fits (p.denominator.toInt * o.fraction.denominator.toInt) →
    -2 ^ 63 < p.numerator.toInt * o.fraction.denominator.toInt - o.fraction.numerator.toInt * p.denominator.toInt ∧
    p.numerator.toInt * o.fraction.denominator.toInt - o.fraction.numerator.toInt * p.denominator.toInt < 2 ^ 63
  times : Fits (p.numerator.toInt * o.fraction.numerator.toInt) → Fits (p.denominator.toInt * o.fraction.denominator.toInt) →
    -2 ^ 63 < p.numerator.toInt * o.fraction.numerator.toInt
  divide : o.fraction.numerator ≠ 0 → Fits (p.numerator.toInt * o.fraction.denominator.toInt) →
    Fits (p.denominator.toInt * o.fraction.numerator.toInt) →
    -2 ^ 63 < p.numerator.toInt * o.fraction.denominator.toInt ∧ -2 ^ 63 < p.denominator.toInt * o.fraction.numerator.toInt
  power : p.numerator ≠ 0 → Fits (p.numerator.toInt ^ exp.toInt.natAbs) → Fits (p.denominator.toInt ^ exp.toInt.natAbs) →
    exp ≠ Int64.minValue ∧ PowerExact p.numerator.toInt exp.toInt.natAbs ∧ PowerExact p.denominator.toInt exp.toInt.natAbs ∧
    p.numerator.toInt ^ exp.toInt.natAbs ≠ -2 ^ 63
  order : Fits (p.numerator.toInt * o.fraction.denominator.toInt) → Fits (o.fraction.numerator.toInt * p.denominator.toInt) →
    p.numerator.toInt * o.fraction.denominator.toInt = o.fraction.numerator.toInt * p.denominator.toInt ∨
    Double.round (p.numerator.toInt * o.fraction.denominator.toInt) ≠ Double.round (o.fraction.numerator.toInt * p.denominator.toInt)

section
variable {fpu : Fpu} {num den exp : Int64} {p : Rational} {o : Operand}

/-- `**` with an exponent of either sign. -/
theorem Rational.Normal.power_iff (hfpu : fpu.Accurate) (hp : p.Normal) (hne : p.numerator ≠ 0)
    (hn : Fits (p.numerator.toInt ^ exp.toInt.natAbs)) (hd : Fits (p.denominator.toInt ^ exp.toInt.natAbs)) :
    Exact (p.power fpu exp) (p.value ^ exp.toInt) ↔
      exp ≠ Int64.minValue ∧ PowerExact p.numerator.toInt exp.toInt.natAbs ∧ PowerExact p.denominator.toInt exp.toInt.natAbs ∧
      p.numerator.toInt ^ exp.toInt.natAbs ≠ -2 ^ 63 := by
  have hpos := hp.positive
  have hdpower : 0 < p.denominator.toInt ^ exp.toInt.natAbs := Int.pow_pos hpos
  have hden : p.denominator ≠ 0 := by
    intro hzero
    rw [hzero] at hpos
    cases hpos
  have hsign : (Double.of_int 0).at_most (.of_int exp) = true ↔ 0 ≤ exp.toInt := by
    rw [Double.of_int_at_most_iff, Int64.le_iff_toInt_le, Int64.toInt_zero, or_iff_left_iff_imp]
    intro hsame
    have hround := Double.round_of_same hsame
    by_contra hneg
    have hmono := Double.round_mono (show exp.toInt ≤ -1 by omega)
    rw [← hround, Int64.toInt_zero] at hmono
    exact absurd hmono (by decide)
  unfold Rational.power
  by_cases hexp : 0 ≤ exp.toInt
  · rw [if_pos (hsign.mpr hexp)]
    have hpower : p.value ^ exp.toInt = ((p.numerator.toInt : ℚ) / p.denominator.toInt) ^ exp.toInt.natAbs := by
      rw [← zpow_natCast, Int.natAbs_of_nonneg hexp]
      rfl
    have hleast : exp ≠ Int64.minValue := by
      rw [ne_eq, least_toInt]
      omega
    rw [hpower, exact_powers_iff hfpu (Int.natAbs_of_nonneg hexp).symm hp.coprime hden (.inr hpos) hn hd]
    constructor
    · rintro ⟨⟨hnum, hdens⟩, hfrom, -⟩
      exact ⟨hleast, hnum, hdens, hfrom⟩
    · rintro ⟨-, hnum, hdens, hfrom⟩
      exact ⟨⟨hnum, hdens⟩, hfrom, by omega⟩
  · rw [if_neg (hsign.not.mpr hexp)]
    by_cases hleast : exp = Int64.minValue
    · refine iff_of_false ?_ fun h => h.1 hleast
      rintro ⟨q, hq, -⟩
      obtain ⟨m, hm, -⟩ := Option.bind_eq_some_iff.mp hq
      exact ne_least_of_neg hm hleast
    · obtain ⟨m, hm, hmi⟩ := exists_neg hleast
      have hpower : p.value ^ exp.toInt = ((p.denominator.toInt : ℚ) / p.numerator.toInt) ^ exp.toInt.natAbs := by
        rw [← zpow_natCast, show (exp.toInt.natAbs : Int) = -exp.toInt by omega, zpow_neg, ← inv_zpow, inv_div]
        rfl
      rw [hm, hpower]
      refine (exact_powers_iff hfpu (show m.toInt = exp.toInt.natAbs by omega) (by rw [Int.gcd_comm, hp.coprime]) hne (.inl hpos) hd hn).trans ?_
      constructor
      · rintro ⟨⟨hdens, hnum⟩, -, hfrom⟩
        exact ⟨hleast, hnum, hdens, hfrom⟩
      · rintro ⟨-, hnum, hdens, hfrom⟩
        exact ⟨⟨hdens, hnum⟩, by omega, hfrom⟩

end

/-- A processor whose powers of integers are the nearest doubles. -/
def accurate_fpu : Fpu :=
  { exact_fpu with
    pow x y := if x.value.tdiv (2 ^ 1074) ^ (y.value.tdiv (2 ^ 1074)).toNat = 2 ^ 63 then ⟨0x43e0000000000000⟩ else exact_fpu.pow x y }

theorem power_of_values {x y : Double} {b : Int} {k : Nat} (hx : x.value = b * 2 ^ 1074) (hy : y.value = k * 2 ^ 1074) :
    x.value.tdiv (2 ^ 1074) ^ (y.value.tdiv (2 ^ 1074)).toNat = b ^ k := by
  have hne : (2 : Int) ^ 1074 ≠ 0 := by positivity
  rw [hx, hy, Int.mul_tdiv_cancel _ hne, Int.mul_tdiv_cancel _ hne, Int.toNat_natCast]

theorem exact_pow_eq {x y : Double} {b : Int} {k : Nat} (hx : x.value = b * 2 ^ 1074) (hy : y.value = k * 2 ^ 1074) :
    exact_fpu.pow x y = .of_int (.ofInt (b ^ k)) := by
  rw [← power_of_values hx hy]
  rfl

theorem accurate_fpu_accurate : accurate_fpu.Accurate where
  to_int_fits := exact_fpu_documented.to_int_fits
  to_int_other := exact_fpu_documented.to_int_other
  pow_exact x y b k hnan hnan' hx hy hfits hround := by
    have hpow : accurate_fpu.pow x y = exact_fpu.pow x y := by
      refine if_neg ?_
      rw [power_of_values hx hy]
      have := hfits.2
      omega
    rw [hpow]
    exact exact_fpu_documented.pow_exact x y b k hnan hnan' hx hy hfits hround
  pow_near x y b k hnan hnan' hx hy hsize := by
    by_cases hlarge : b ^ k = 2 ^ 63
    · have hpow : accurate_fpu.pow x y = ⟨0x43e0000000000000⟩ := by
        refine if_pos ?_
        rw [power_of_values hx hy, hlarge]
      have hvalue : (⟨0x43e0000000000000⟩ : Double).value = 2 ^ 63 * 2 ^ 1074 := by
        have hexponent : (⟨0x43e0000000000000⟩ : Double).exponent = 1086 := by decide
        have hfraction : (⟨0x43e0000000000000⟩ : Double).fraction = 0 := by decide
        have hmagnitude : (⟨0x43e0000000000000⟩ : Double).magnitude = 2 ^ 63 * 2 ^ 1074 := by
          rw [Double.magnitude, hexponent, hfraction, if_neg (by decide), Nat.add_zero, ← Nat.pow_add, ← Nat.pow_add]
        unfold Double.value
        rw [if_neg (by decide), hmagnitude]
        push_cast
        rfl
      rw [hpow, hvalue, hlarge, Int.sub_self, abs_zero]
      exact ⟨by decide, by positivity⟩
    · have hpow : accurate_fpu.pow x y = .of_int (.ofInt (b ^ k)) := by
        rw [← exact_pow_eq hx hy]
        refine if_neg ?_
        rwa [power_of_values hx hy]
      rw [hpow, Double.of_int_value_eq, Int64.toInt_ofInt_of_le (by omega) (by omega), ← Int.sub_mul, abs_mul,
        abs_of_pos (show (0 : Int) < 2 ^ 1074 by positivity), ← Int.mul_assoc]
      exact ⟨Double.of_int_nan _, Int.mul_le_mul_of_nonneg_right (Double.round_near _) (by positivity)⟩

end rationals

end stoned
