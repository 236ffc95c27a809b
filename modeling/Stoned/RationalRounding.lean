import Mathlib.Data.Rat.Floor
import Stoned.Rational

namespace stoned.rationals

open program program.signed integers

/-! Rounding of rationals to integers. -/

/-- What the five methods come to. -/
structure Rational.Rounds (q : Rational) (floor ceil truncate to_i round : Int64) : Prop where
  floor : q.floor = some floor
  ceil : q.ceil = some ceil
  truncate : q.truncate = some truncate
  to_i : q.to_i = some to_i
  round : q.round = some round

/-- The integer part nearest zero. -/
def integer_part (x : ℚ) : Int := if 0 ≤ x then ⌊x⌋ else ⌈x⌉

/-- The nearest integer, a half away from zero. -/
def nearest_integer (x : ℚ) : Int := if 0 ≤ x then ⌊x + 1 / 2⌋ else ⌈x - 1 / 2⌉

/-- The laws of rounding for a rational and its negative. -/
def Rational.RoundingLaw (q : Rational) : Prop :=
  ∃ f c t i r, q.Rounds f c t i r ∧ (f.toInt ≤ q.value ∧ q.value - f.toInt < 1) ∧ (q.value ≤ c.toInt ∧ c.toInt - q.value < 1) ∧
    t.toInt = integer_part q.value ∧ i = t ∧ r.toInt = nearest_integer q.value ∧
    ∃ (m : Rational) (f' c' t' i' r' : Int64), q.negate = some (.rational m) ∧ m.value = -q.value ∧ m.Rounds f' c' t' i' r' ∧
      r'.toInt = -r.toInt ∧ t'.toInt = -t.toInt ∧ f'.toInt = -c.toInt

section integers
variable {n d : Int}

theorem floor_div (hd : 0 < d) : ⌊(n : ℚ) / d⌋ = n / d := by
  have hd' : (0 : ℚ) < d := by exact_mod_cast hd
  rw [Int.floor_eq_iff, le_div_iff₀ hd', div_lt_iff₀ hd']
  constructor
  · exact_mod_cast Int.ediv_mul_le n hd.ne'
  · exact_mod_cast Int.lt_ediv_add_one_mul_self n hd

theorem ceil_div (hd : 0 < d) : ⌈(n : ℚ) / d⌉ = -(-n / d) := by
  have hneg : -((n : ℚ) / d) = ((-n : Int) : ℚ) / d := by
    push_cast
    rw [neg_div]
  have hfloor := Int.floor_neg (a := (n : ℚ) / d)
  rw [hneg, floor_div hd] at hfloor
  omega

theorem value_nonneg_iff (hd : 0 < d) : 0 ≤ (n : ℚ) / d ↔ 0 ≤ n := by
  have hd' : (0 : ℚ) < d := by exact_mod_cast hd
  rw [le_div_iff₀ hd', zero_mul]
  exact_mod_cast Iff.rfl

/-- The nearest integer from the double of the fraction. -/
theorem nearest_div (hd : 0 < d) :
    nearest_integer ((n : ℚ) / d) = if 0 ≤ n then (2 * n + d) / (2 * d) else -((2 * -n + d) / (2 * d)) := by
  have hd' : (d : ℚ) ≠ 0 := by exact_mod_cast hd.ne'
  have hplus (k : Int) : (k : ℚ) / d + 1 / 2 = ((2 * k + d : Int) : ℚ) / (2 * d : Int) := by
    push_cast
    field_simp
  have hneg : (n : ℚ) / d - 1 / 2 = -(((-n : Int) : ℚ) / d + 1 / 2) := by
    push_cast
    rw [neg_div]
    ring
  unfold nearest_integer
  simp only [value_nonneg_iff hd]
  split
  · rw [hplus, floor_div (by omega)]
  · rw [hneg, Int.ceil_neg, hplus, floor_div (by omega)]

theorem integer_part_div (hd : 0 < d) : integer_part ((n : ℚ) / d) = if n < 0 then -(-n / d) else n / d := by
  unfold integer_part
  simp only [value_nonneg_iff hd, floor_div hd, ceil_div hd]
  split
  · rw [if_neg (by omega)]
  · rw [if_pos (by omega)]

/-- Rounding up and rounding down differ unless the quotient is an integer. -/
theorem ceil_eq_floor_iff (hd : 0 < d) : -(-n / d) = n / d ↔ d ∣ n := by
  constructor
  · intro h
    have hsum := Int.mul_ediv_add_emod n d
    have hsum' := Int.mul_ediv_add_emod (-n) d
    have hpos := Int.emod_nonneg n hd.ne'
    have hpos' := Int.emod_nonneg (-n) hd.ne'
    rw [show -n / d = -(n / d) by omega, Int.mul_neg] at hsum'
    exact Int.dvd_of_emod_eq_zero (by omega)
  · intro h
    rw [Int.neg_ediv_of_dvd h, Int.neg_neg]

/-- A half up and a half down differ at the halves. -/
theorem halves_iff (hd : 0 < d) : (2 * -n + d) / (2 * d) = -((2 * n + d) / (2 * d)) ↔ ¬ 2 * d ∣ 2 * n + d := by
  have h2d : 0 < 2 * d := by omega
  have hsum := Int.mul_ediv_add_emod (2 * n + d) (2 * d)
  have hpos := Int.emod_nonneg (2 * n + d) h2d.ne'
  have hlt := Int.emod_lt_of_pos (2 * n + d) h2d
  have hkey : (2 * -n + d) / (2 * d) = -((2 * n + d) / (2 * d)) + if (2 * n + d) % (2 * d) = 0 then 1 else 0 := by
    split
    · rename_i hzero
      refine (Int.ediv_emod_unique h2d).mpr ⟨?_, Int.le_refl 0, h2d⟩ |>.1
      rw [Int.mul_add, Int.mul_neg]
      omega
    · rename_i hne
      refine (Int.ediv_emod_unique (r := 2 * d - (2 * n + d) % (2 * d)) h2d).mpr ⟨?_, by omega, by omega⟩ |>.1
      rw [Int.mul_add, Int.mul_neg]
      omega
  rw [hkey, Int.dvd_iff_emod_eq_zero]
  split
  · rename_i hzero
    exact iff_of_false (by omega) (not_not.mpr hzero)
  · rename_i hne
    exact iff_of_true (Int.add_zero _) hne

end integers

section methods
variable {q : Rational}

theorem Rational.Normal.floor_ok (hq : q.Normal) :
    ∃ f, q.floor = some f ∧ f.toInt = q.numerator.toInt / q.denominator.toInt := exists_quotient hq.positive

/-- The quotient rounded up. -/
theorem Rational.Normal.ceil_ok (hq : q.Normal) (hn : Fits (2 * q.numerator.toInt)) :
    ∃ c, q.ceil = some c ∧ c.toInt = -(-q.numerator.toInt / q.denominator.toInt) := by
  have hd := hq.positive
  obtain ⟨f, r, -, -, hdivmod, hf, hr⟩ := exists_divmod (a := q.numerator) hd
  have hsum := Int.mul_ediv_add_emod q.numerator.toInt q.denominator.toInt
  have hpos := Int.emod_nonneg q.numerator.toInt hd.ne'
  have hlt := Int.emod_lt_of_pos q.numerator.toInt hd
  have hup : -(-q.numerator.toInt / q.denominator.toInt) = if 0 < r.toInt then f.toInt + 1 else f.toInt := by
    rw [hf, hr]
    have hnext : q.denominator.toInt * (q.numerator.toInt / q.denominator.toInt + 1) =
        q.denominator.toInt * (q.numerator.toInt / q.denominator.toInt) + q.denominator.toInt := by rw [Int.mul_add, Int.mul_one]
    have hquotient (k : Int) (hle : q.numerator.toInt ≤ q.denominator.toInt * k)
        (hless : q.denominator.toInt * k < q.numerator.toInt + q.denominator.toInt) : -(-q.numerator.toInt / q.denominator.toInt) = k := by
      have hunique := (Int.ediv_emod_unique hd (a := -q.numerator.toInt) (r := q.denominator.toInt * k - q.numerator.toInt) (q := -k)).mpr
        ⟨by rw [Int.mul_neg]; omega, by omega, by omega⟩
      rw [hunique.1, Int.neg_neg]
    split
    · exact hquotient _ (by omega) (by omega)
    · exact hquotient _ (by omega) (by omega)
  have hsmall : f.toInt ≤ 2 ^ 62 := by
    by_contra hbig
    have hle := Int.mul_le_mul_of_nonneg_right (show 1 ≤ q.denominator.toInt from hd) (show 0 ≤ f.toInt by omega)
    rw [← hf] at hsum
    have := hn.2
    omega
  by_cases hr0 : 0 < r.toInt
  · obtain ⟨c, hc, hci⟩ := exists_fit_eq (i := f.toInt + 1) ⟨by have := toInt_bounds f; omega, by omega⟩
    refine ⟨c, ?_, by rw [hci, hup, if_pos hr0]⟩
    rw [Rational.ceil, hdivmod]
    exact (if_pos (positive_iff.mpr hr0)).trans hc
  · refine ⟨f, ?_, by rw [hup, if_neg hr0]⟩
    rw [Rational.ceil, hdivmod]
    exact if_neg fun h => hr0 (positive_iff.mp h)

/-- The quotient cut. -/
theorem Rational.Normal.truncate_ok (hq : q.Normal) (hn : q.numerator ≠ Int64.minValue) :
    ∃ t, q.truncate = some t ∧
      t.toInt = if q.numerator.toInt < 0 then -(-q.numerator.toInt / q.denominator.toInt) else q.numerator.toInt / q.denominator.toInt := by
  unfold Rational.truncate
  by_cases hneg : q.numerator.toInt < 0
  · rw [if_pos (negative_iff.mpr hneg), if_pos hneg]
    obtain ⟨m, hm, hmi⟩ := exists_neg hn
    obtain ⟨f, hf, hfi⟩ := exists_quotient (a := m) hq.positive
    have hnonneg : 0 ≤ f.toInt := by
      rw [hfi]
      exact Int.ediv_nonneg (by omega) hq.positive.le
    obtain ⟨t, ht, hti⟩ := exists_neg (n := f) (by rw [ne_eq, least_toInt]; omega)
    refine ⟨t, ?_, by rw [hti, hfi, hmi]⟩
    exact Option.bind_eq_some_iff.mpr ⟨m, hm, Option.bind_eq_some_iff.mpr ⟨f, hf, ht⟩⟩
  · rw [if_neg (negative_iff.not.mpr hneg), if_neg hneg]
    exact exists_quotient hq.positive

/-- The quotient rounded half up. -/
theorem Rational.Normal.round_ok (hq : q.Normal) (hn : Fits (2 * q.numerator.toInt)) (hd : Fits (2 * q.denominator.toInt))
    (hsum : Fits (2 * q.numerator.toInt + q.denominator.toInt)) :
    ∃ r, q.round = some r ∧ r.toInt = (2 * q.numerator.toInt + q.denominator.toInt) / (2 * q.denominator.toInt) := by
  have htwo : (2 : Int64).toInt = 2 := rfl
  obtain ⟨a, ha, hai⟩ := exists_fit_eq (i := q.numerator.toInt * (2 : Int64).toInt) (by rwa [htwo, Int.mul_comm])
  obtain ⟨b, hb, hbi⟩ := exists_fit_eq (i := q.denominator.toInt * (2 : Int64).toInt) (by rwa [htwo, Int.mul_comm])
  rw [htwo, Int.mul_comm] at hai hbi
  obtain ⟨c, hc, hci⟩ := exists_fit_eq (i := a.toInt + q.denominator.toInt) (by rwa [hai])
  have hpos := hq.positive
  obtain ⟨r, hr, hri⟩ := exists_quotient (a := c) (b := b) (by omega)
  refine ⟨r, ?_, by rw [hri, hci, hai, hbi]⟩
  exact Option.bind_eq_some_iff.mpr ⟨a, ha, Option.bind_eq_some_iff.mpr ⟨c, hc,
    Option.bind_eq_some_iff.mpr ⟨b, hb, hr⟩⟩⟩

theorem Rational.fits_of_round {r : Int64} (h : q.round = some r) : Fits (2 * q.numerator.toInt + q.denominator.toInt) := by
  obtain ⟨a, ha, h⟩ := Option.bind_eq_some_iff.mp h
  obtain ⟨c, hc, -⟩ := Option.bind_eq_some_iff.mp h
  have hai := fit_eq_some.mp ha
  have hfits := fits_of_fit hc
  rwa [hai, show (2 : Int64).toInt = 2 from rfl, Int.mul_comm] at hfits

/-- The negative of a fraction in lowest terms is in lowest terms. -/
theorem Rational.Normal.negate_ok (hq : q.Normal) (hn : q.numerator ≠ Int64.minValue) :
    ∃ m : Rational, q.negate = some (.rational m) ∧ m.Normal ∧ m.numerator.toInt = -q.numerator.toInt ∧ m.denominator = q.denominator := by
  have := toInt_bounds q.numerator
  obtain ⟨n, hn, hni⟩ := exists_neg hn
  have hpos := hq.positive
  obtain ⟨m, hm, hnormal, -, hsame⟩ := @reduce_ok n _ (by
    rw [ne_eq, least_toInt] at *
    omega) hpos
  have hone : Int.gcd n.toInt q.denominator.toInt = 1 := by rw [hni, Int.neg_gcd, hq.coprime]
  have hm' := hsame hone
  subst hm'
  refine ⟨_, ?_, hnormal, hni, rfl⟩
  refine Option.bind_eq_some_iff.mpr ⟨n, hn, ?_⟩
  unfold new
  rw [if_neg, if_neg]
  · exact hm
  · rw [negative_iff]
    omega
  · rintro hzero
    rw [hzero] at hpos
    cases hpos

/-- A fraction in lowest terms is half an integer only over 2. -/
theorem Rational.Normal.half_iff (hq : q.Normal) :
    2 * q.denominator.toInt ∣ 2 * q.numerator.toInt + q.denominator.toInt ↔ q.denominator.toInt = 2 := by
  have hpos := hq.positive
  constructor
  · intro hdvd
    have hdouble : q.denominator.toInt ∣ q.numerator.toInt * 2 := by
      have hleft := (Int.dvd_mul_left 2 q.denominator.toInt).trans hdvd
      rw [Int.mul_comm]
      exact (Int.dvd_add_left (Int.dvd_refl _)).mp hleft
    have htwo := Int.dvd_of_dvd_mul_right_of_gcd_one hdouble (by rw [Int.gcd_comm, hq.coprime])
    have hle := Int.le_of_dvd (by decide) htwo
    by_contra hne
    rw [show q.denominator.toInt = 1 by omega] at hdvd
    omega
  · intro htwo
    have hcoprime := hq.coprime
    rw [htwo] at hcoprime ⊢
    by_contra hodd
    have heven : (2 : Int) ∣ q.numerator.toInt := by omega
    have hgcd := Int.gcd_eq_right (by decide) heven
    omega

theorem Rational.Normal.dvd_iff (hq : q.Normal) : q.denominator.toInt ∣ q.numerator.toInt ↔ q.denominator.toInt = 1 := by
  have hpos := hq.positive
  constructor
  · intro hdvd
    have hcoprime := hq.coprime
    have hgcd := Int.gcd_eq_right hpos.le hdvd
    omega
  · intro hone
    rw [hone]
    exact Int.one_dvd _

/-- The five methods where the sum of the rounding fits. -/
theorem Rational.Normal.rounds (hq : q.Normal) (hn : Fits (2 * q.numerator.toInt)) (hd : Fits (2 * q.denominator.toInt))
    (hsum : Fits (2 * q.numerator.toInt + q.denominator.toInt)) :
    ∃ f c t r, q.Rounds f c t f r ∧ f.toInt = q.numerator.toInt / q.denominator.toInt ∧
      c.toInt = -(-q.numerator.toInt / q.denominator.toInt) ∧
      t.toInt = (if q.numerator.toInt < 0 then -(-q.numerator.toInt / q.denominator.toInt) else q.numerator.toInt / q.denominator.toInt) ∧
      r.toInt = (2 * q.numerator.toInt + q.denominator.toInt) / (2 * q.denominator.toInt) := by
  have hleast : q.numerator ≠ Int64.minValue := by
    rw [ne_eq, least_toInt]
    have := hn.1
    omega
  obtain ⟨f, hf, hfi⟩ := hq.floor_ok
  obtain ⟨c, hc, hci⟩ := hq.ceil_ok hn
  obtain ⟨t, ht, hti⟩ := hq.truncate_ok hleast
  obtain ⟨r, hr, hri⟩ := hq.round_ok hn hd hsum
  exact ⟨f, c, t, r, ⟨hf, hc, ht, hf, hr⟩, hfi, hci, hti, hri⟩

theorem Rational.Rounds.eq {f c t i r f' c' t' i' r' : Int64} (h : q.Rounds f c t i r) (h' : q.Rounds f' c' t' i' r') :
    f = f' ∧ c = c' ∧ t = t' ∧ i = i' ∧ r = r' :=
  ⟨Option.some_inj.mp (h.floor.symm.trans h'.floor), Option.some_inj.mp (h.ceil.symm.trans h'.ceil),
    Option.some_inj.mp (h.truncate.symm.trans h'.truncate), Option.some_inj.mp (h.to_i.symm.trans h'.to_i),
    Option.some_inj.mp (h.round.symm.trans h'.round)⟩

end methods

/-- The rounding laws hold of a fraction exactly when it is no negative one but
an integer, no half, and its rounding fits. -/
theorem rounding_law_iff {q : Rational} (hq : q.Normal) (hn : Fits (2 * q.numerator.toInt)) (hd : Fits (2 * q.denominator.toInt)) :
    q.RoundingLaw ↔ 2 * (q.numerator.toInt.natAbs : Int) + q.denominator.toInt < 2 ^ 63 ∧
      (0 ≤ q.numerator.toInt ∨ q.denominator.toInt = 1) ∧ q.denominator.toInt ≠ 2 := by
  have hpos := hq.positive
  have hleast : q.numerator ≠ Int64.minValue := by
    rw [ne_eq, least_toInt]
    have := hn.1
    omega
  obtain ⟨m, hm, hmnormal, hmn, hmd⟩ := hq.negate_ok hleast
  constructor
  · rintro ⟨f, c, t, i, r, hrounds, hdown, hup, hcut, hsame, hnear, m', f', c', t', i', r', hm', -, hrounds', hround, -⟩
    rw [hm, Option.some_inj, Answer.rational.injEq] at hm'
    subst hm'
    have hsum := Rational.fits_of_round hrounds.round
    have hsum' := Rational.fits_of_round hrounds'.round
    have hn' : Fits (2 * m.numerator.toInt) := ⟨by have := hsum.2; omega, by have := hsum'.2; rw [hmd] at this; omega⟩
    obtain ⟨f₁, c₁, t₁, r₁, hrounds₁, hf₁, -, ht₁, hr₁⟩ := hq.rounds hn hd hsum
    obtain ⟨f₂, c₂, t₂, r₂, hrounds₂, -, -, -, hr₂⟩ := hmnormal.rounds hn' (by rwa [hmd]) hsum'
    obtain ⟨-, -, rfl, rfl, rfl⟩ := hrounds.eq hrounds₁
    obtain ⟨-, -, -, -, rfl⟩ := hrounds'.eq hrounds₂
    refine ⟨?_, ?_, ?_⟩
    · have := hsum.2
      have := hsum'.2
      rw [hmn, hmd] at this
      omega
    · by_contra hnot
      rw [not_or, Int.not_le] at hnot
      rw [← hsame, hf₁, if_pos hnot.1] at ht₁
      exact hnot.2 (hq.dvd_iff.mp ((ceil_eq_floor_iff hpos).mp ht₁.symm))
    · rw [hr₁, hr₂, hmn, hmd, halves_iff hpos] at hround
      exact fun htwo => hround (hq.half_iff.mpr htwo)
  · rintro ⟨hsum, hwhole, hhalf⟩
    have hsumq : Fits (2 * q.numerator.toInt + q.denominator.toInt) := ⟨by have := hn.1; omega, by omega⟩
    have hsumm : Fits (2 * m.numerator.toInt + m.denominator.toInt) := by
      rw [hmn, hmd]
      exact ⟨by omega, by omega⟩
    have hnm : Fits (2 * m.numerator.toInt) := by
      rw [hmn]
      exact ⟨by omega, by omega⟩
    obtain ⟨f, c, t, r, hrounds, hf, hc, ht, hr⟩ := hq.rounds hn hd hsumq
    obtain ⟨f', c', t', r', hrounds', hf', -, ht', hr'⟩ := hmnormal.rounds hnm (by rwa [hmd]) hsumm
    rw [hmn, hmd] at hf' ht' hr'
    have hhalves := (halves_iff hpos).mpr (hq.half_iff.not.mpr hhalf)
    have hfloor : f.toInt = ⌊q.value⌋ := hf.trans (floor_div hpos).symm
    have hceil : c.toInt = ⌈q.value⌉ := hc.trans (ceil_div hpos).symm
    have hsame : f = t := by
      rw [← Int64.toInt_inj, hf, ht]
      split
      · rw [(ceil_eq_floor_iff hpos).mpr (hq.dvd_iff.mpr (by omega))]
      · rfl
    refine ⟨f, c, t, f, r, hrounds, ?_, ?_, ht.trans (integer_part_div hpos).symm, hsame, ?_, m, f', c', t', f', r', hm, ?_, hrounds', ?_, ?_, ?_⟩
    · rw [hfloor]
      exact ⟨Int.floor_le _, by have := Int.lt_floor_add_one q.value; linarith⟩
    · rw [hceil]
      exact ⟨Int.le_ceil _, by have := Int.ceil_lt_add_one q.value; linarith⟩
    · rw [hr, Rational.value, nearest_div hpos]
      split
      · rfl
      · rw [hhalves, Int.neg_neg]
    · rw [Rational.value, Rational.value, hmn, hmd, Int.cast_neg, neg_div]
    · rw [hr', hhalves, hr]
    · rw [ht', ht, Int.neg_neg]
      split
      · rw [if_neg (by omega)]
      · split
        · exact (Int.neg_neg _).symm
        · rw [show q.numerator.toInt = 0 by omega]
          rw [Int.neg_zero, Int.zero_ediv, Int.neg_zero]
    · rw [hf', hc, Int.neg_neg]

theorem rounding_law_three_quarters : (⟨3, 4⟩ : Rational).RoundingLaw :=
  (rounding_law_iff ⟨by decide, by decide⟩ ⟨by decide, by decide⟩ ⟨by decide, by decide⟩).mpr (by decide)

/-- `Rational(-1, 2).to_i` is -1, where `truncate` is 0, and `round` is 0. -/
theorem rounding_half_negative : (⟨-1, 2⟩ : Rational).Normal ∧ Fits (2 * (-1)) ∧ Fits (2 * 2) ∧
    (⟨-1, 2⟩ : Rational).to_i = some (-1) ∧ (⟨-1, 2⟩ : Rational).truncate = some 0 ∧ (⟨-1, 2⟩ : Rational).round = some 0 ∧
    ¬ (⟨-1, 2⟩ : Rational).RoundingLaw := by
  have hto_i : (⟨-1, 2⟩ : Rational).to_i = some (-1) := by decide
  have htruncate : (⟨-1, 2⟩ : Rational).truncate = some 0 := by
    unfold Rational.truncate
    rw [if_pos (negative_iff.mpr (by decide))]
    decide
  refine ⟨⟨by decide, by decide⟩, ⟨by decide, by decide⟩, ⟨by decide, by decide⟩, hto_i, htruncate, by decide, ?_⟩
  rintro ⟨f, c, t, i, r, hrounds, -, -, -, rfl, -⟩
  have h := hrounds.to_i.symm.trans hto_i
  have h' := hrounds.truncate.symm.trans htruncate
  rw [h] at h'
  cases h'

end stoned.rationals
