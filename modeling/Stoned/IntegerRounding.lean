import Stoned.IntegerDivision
import Mathlib.Order.Bounds.Basic

namespace stoned

open program program.signed

/-! Rounding of integers to a power of ten (eval_dispatch_primitives.c,
dispatch_integer). -/

/-- The four methods. -/
inductive Rounding where
  | ceil
  | floor
  | round
  | truncate
  deriving DecidableEq

/-- `factor *= 10`, as many times as there are digits. -/
def factor_each : Nat → Int64 → Option Int64
  | 0, factor => some factor
  | i + 1, factor => (mul factor 10).bind (factor_each i)

section
variable (n factor q r : Int64)

def ceil_to : Option Int64 :=
  if r = 0 then some n else if 0 < n then (add q 1).bind (mul · factor) else mul q factor

def floor_to : Option Int64 :=
  if r = 0 then some n else if 0 < n then mul q factor else (sub q 1).bind (mul · factor)

def round_to : Option Int64 := do
  let lo ← (if 0 < n then some q else sub q 1).bind (mul · factor)
  let hi ← add lo factor
  let mid ← add lo (← div factor 2)
  return if n < mid then lo else hi

end

/-- What a rounding comes to, from the quotient and the remainder of the factor. -/
def rounded (how : Rounding) (n factor q r : Int64) : Option Int64 :=
  match how with
  | .ceil => ceil_to n factor q r
  | .floor => floor_to n factor q r
  | .round => round_to n factor q
  | .truncate => mul q factor

/-- ceil, floor, round and truncate. Only a negative precision rounds. -/
def integer_rounding (how : Rounding) (n : Int64) (args : List Value) : Option Int64 :=
  match args with
  | .int digits :: _ =>
    if digits < 0 then do
      let limit ← signed.fit (-digits.toInt)
      let factor ← factor_each limit.toInt.toNat 1
      rounded how n factor (← div n factor) (← rem n factor)
    else some n
  | _ => some n

/-- The multiple of `p` that a rounding of `n` should be. -/
def Rounded (how : Rounding) (p n m : Int) : Prop :=
  match how with
  | .floor => IsGreatest {k | p ∣ k ∧ k ≤ n} m
  | .ceil => IsLeast {k | p ∣ k ∧ n ≤ k} m
  | .truncate => (0 ≤ n → IsGreatest {k | p ∣ k ∧ k ≤ n} m) ∧ (n ≤ 0 → IsLeast {k | p ∣ k ∧ n ≤ k} m)
  | .round => p ∣ m ∧ ∀ k, p ∣ k →
    (n - m).natAbs < (n - k).natAbs ∨ (n - m).natAbs = (n - k).natAbs ∧ k.natAbs ≤ m.natAbs

section
variable {p n q m : Int}

/-- A multiple no more than one step below is the greatest one. -/
theorem isGreatest_multiple (hp : 0 < p) (h : q * p ≤ n) (h' : n < (q + 1) * p) :
    IsGreatest {k | p ∣ k ∧ k ≤ n} (q * p) := by
  refine ⟨⟨Int.dvd_mul_left q p, h⟩, ?_⟩
  rintro k ⟨⟨i, rfl⟩, hle⟩
  have hlt : p * i < p * (q + 1) := by
    rw [Int.mul_comm p (q + 1)]
    exact hle.trans_lt h'
  have hi : i < q + 1 := lt_of_mul_lt_mul_left hlt hp.le
  rw [Int.mul_comm q p]
  exact Int.mul_le_mul_of_nonneg_left (by omega) hp.le

theorem isLeast_multiple (hp : 0 < p) (h : n ≤ q * p) (h' : (q - 1) * p < n) :
    IsLeast {k | p ∣ k ∧ n ≤ k} (q * p) := by
  refine ⟨⟨Int.dvd_mul_left q p, h⟩, ?_⟩
  rintro k ⟨⟨i, rfl⟩, hle⟩
  have hlt : p * (q - 1) < p * i := by
    rw [Int.mul_comm p (q - 1)]
    exact h'.trans_le hle
  have hi : q - 1 < i := lt_of_mul_lt_mul_left hlt hp.le
  rw [Int.mul_comm q p]
  exact Int.mul_le_mul_of_nonneg_left (by omega) hp.le

/-- A multiple other than the two around a number is further away than both. -/
theorem outside_multiple (hp : 0 < p) (k : Int) (hk : p ∣ k) : k ≤ (q - 1) * p ∨ k = q * p ∨ (q + 1) * p ≤ k := by
  obtain ⟨i, rfl⟩ := hk
  rw [Int.mul_comm p i]
  rcases lt_trichotomy i q with hlt | rfl | hlt
  · exact .inl (Int.mul_le_mul_of_nonneg_right (by omega) hp.le)
  · exact .inr (.inl rfl)
  · exact .inr (.inr (Int.mul_le_mul_of_nonneg_right (by omega) hp.le))

/-- Less than half a step away there is only one nearest multiple. -/
theorem rounded_near (hp : 0 < p) (h : 2 * ((n - q * p).natAbs : Int) < p) : Rounded .round p n (q * p) := by
  refine ⟨Int.dvd_mul_left q p, fun k hk => ?_⟩
  have hbelow : (q - 1) * p = q * p - p := by rw [Int.sub_mul, Int.one_mul]
  have habove : (q + 1) * p = q * p + p := by rw [Int.add_mul, Int.one_mul]
  rcases outside_multiple (q := q) hp k hk with hle | rfl | hle
  · left
    omega
  · exact .inr ⟨rfl, le_refl _⟩
  · left
    omega

/-- Half a step away it is the one further from 0. -/
theorem rounded_half_up (hp : 0 < p) (hn : 0 < n) (h : 2 * (q * p - n) = p) : Rounded .round p n (q * p) := by
  refine ⟨Int.dvd_mul_left q p, fun k hk => ?_⟩
  have hbelow : (q - 1) * p = q * p - p := by rw [Int.sub_mul, Int.one_mul]
  have habove : (q + 1) * p = q * p + p := by rw [Int.add_mul, Int.one_mul]
  rcases outside_multiple (q := q) hp k hk with hle | rfl | hle <;> omega

theorem rounded_half_down (hp : 0 < p) (hn : n < 0) (h : 2 * (n - q * p) = p) : Rounded .round p n (q * p) := by
  refine ⟨Int.dvd_mul_left q p, fun k hk => ?_⟩
  have hbelow : (q - 1) * p = q * p - p := by rw [Int.sub_mul, Int.one_mul]
  have habove : (q + 1) * p = q * p + p := by rw [Int.add_mul, Int.one_mul]
  rcases outside_multiple (q := q) hp k hk with hle | rfl | hle <;> omega

/-- No number has two roundings. -/
theorem rounded_unique (how : Rounding) {m' : Int} (h : Rounded how p n m) (h' : Rounded how p n m') : m = m' := by
  cases how with
  | ceil => exact IsLeast.unique h h'
  | floor => exact IsGreatest.unique h h'
  | truncate =>
    rcases le_total 0 n with hn | hn
    · exact (h.1 hn).unique (h'.1 hn)
    · exact (h.2 hn).unique (h'.2 hn)
  | round =>
    have hlow := h.2 m' h'.1
    have hhigh := h'.2 m h.1
    by_cases hn : n = 0
    · -- only 0 itself is nearest to 0
      have hzero := h.2 0 (Int.dvd_zero p)
      omega
    · omega

end

section
variable {n factor : Int64} {i : Nat}

theorem factor_each_some {power : Int64} (h : factor_each i factor = some power) :
    power.toInt = factor.toInt * 10 ^ i := by
  induction i generalizing factor with
  | zero =>
    obtain rfl := Option.some_inj.mp h
    exact (Int.mul_one _).symm
  | succ i ih =>
    obtain ⟨next, hnext, hrest⟩ := Option.bind_eq_some_iff.mp h
    have hten : next.toInt = factor.toInt * 10 := fit_eq_some.mp hnext
    rw [ih hrest, hten, Int.mul_assoc, Int.pow_succ']

theorem factor_each_ok (hfactor : 0 < factor.toInt) (h : factor.toInt * 10 ^ i < 2 ^ 63) :
    ∃ power, factor_each i factor = some power := by
  induction i generalizing factor with
  | zero => exact ⟨factor, rfl⟩
  | succ i ih =>
    rw [Int.pow_succ', ← Int.mul_assoc] at h
    have hone : (1 : Int) ≤ 10 ^ i := Int.pow_pos (by decide)
    have hle : factor.toInt * 10 ≤ factor.toInt * 10 * 10 ^ i := le_mul_of_one_le_right (by omega) hone
    obtain ⟨next, hnext⟩ := exists_fit (show -2 ^ 63 ≤ factor.toInt * 10 by omega) (hle.trans_lt h)
    obtain ⟨power, hpower⟩ := @ih next (by omega) (by rwa [hnext])
    exact ⟨power, Option.bind_eq_some_iff.mpr ⟨next, mul_eq hnext, hpower⟩⟩

end

section
variable {n factor q r : Int64} {p : Int}

/-- Next to the quotient of C there is a multiple further from 0. -/
structure Room (n factor q : Int64) : Prop where
  above : 0 < n.toInt → Fits (q.toInt * factor.toInt + factor.toInt)
  below : n.toInt ≤ 0 → Fits (q.toInt * factor.toInt - factor.toInt)

/-- The quotient of C is between 0 and the number. -/
theorem Truncated.between (h : Truncated n factor q r) (hfactor : 0 < factor.toInt) :
    (0 < n.toInt → 0 ≤ q.toInt ∧ 0 ≤ r.toInt ∧ r.toInt < factor.toInt) ∧
    (n.toInt ≤ 0 → q.toInt ≤ 0 ∧ r.toInt ≤ 0 ∧ -factor.toInt < r.toInt) := by
  have hsmall := h.small
  have hsum := h.sum
  have hsign : r.toInt ≠ 0 → (r.toInt < 0 ↔ n.toInt < 0) := by
    rw [← neg_iff_toInt, ← neg_iff_toInt]
    exact fun hne => h.sign fun heq => hne (by rw [heq, Int64.toInt_zero])
  have hsigned : (0 < n.toInt → 0 ≤ r.toInt) ∧ (n.toInt ≤ 0 → r.toInt ≤ 0) := by
    by_cases hne : r.toInt = 0
    · omega
    · have hnotzero : n.toInt ≠ 0 := by
        intro hzero
        obtain ⟨-, -, hfit⟩ := Option.bind_eq_some_iff.mp h.rem
        rw [hzero, Int.zero_tmod] at hfit
        exact hne (fit_eq_some.mp hfit)
      have := hsign hne
      omega
  constructor
  · intro hn
    have hr := hsigned.1 hn
    refine ⟨?_, hr, by omega⟩
    by_contra hneg
    have := Int.mul_le_mul_of_nonneg_right (show q.toInt ≤ -1 by omega) hfactor.le
    omega
  · intro hn
    have hr := hsigned.2 hn
    refine ⟨?_, hr, by omega⟩
    by_contra hpos
    have := Int.mul_le_mul_of_nonneg_right (show 1 ≤ q.toInt by omega) hfactor.le
    omega

/-- The multiple after the quotient's. -/
theorem next_multiple (hroom : Fits (q.toInt * factor.toInt + factor.toInt)) (hfactor : 0 < factor.toInt)
    (hq : 0 ≤ q.toInt) : ∃ x, (add q 1).bind (mul · factor) = some x ∧ x.toInt = (q.toInt + 1) * factor.toInt := by
  have hle : q.toInt ≤ q.toInt * factor.toInt := le_mul_of_one_le_right hq hfactor
  have heq : (q.toInt + 1) * factor.toInt = q.toInt * factor.toInt + factor.toInt := by rw [Int.add_mul, Int.one_mul]
  obtain ⟨next, hnext, hnexti⟩ := exists_fit_eq (i := q.toInt + 1) ⟨by omega, by have := hroom.2; omega⟩
  obtain ⟨x, hx, hxi⟩ := exists_fit_eq (i := next.toInt * factor.toInt) (by rwa [hnexti, heq])
  exact ⟨x, Option.bind_eq_some_iff.mpr ⟨next, hnext, hx⟩, by rw [hxi, hnexti]⟩

/-- The multiple before it. -/
theorem previous_multiple (hroom : Fits (q.toInt * factor.toInt - factor.toInt)) (hfactor : 0 < factor.toInt)
    (hq : q.toInt ≤ 0) : ∃ x, (sub q 1).bind (mul · factor) = some x ∧ x.toInt = (q.toInt - 1) * factor.toInt := by
  have hle : -q.toInt ≤ -q.toInt * factor.toInt := le_mul_of_one_le_right (by omega) hfactor
  rw [Int.neg_mul] at hle
  have heq : (q.toInt - 1) * factor.toInt = q.toInt * factor.toInt - factor.toInt := by rw [Int.sub_mul, Int.one_mul]
  obtain ⟨next, hnext, hnexti⟩ := exists_fit_eq (i := q.toInt - 1) ⟨by have := hroom.1; omega, by omega⟩
  obtain ⟨x, hx, hxi⟩ := exists_fit_eq (i := next.toInt * factor.toInt) (by rwa [hnexti, heq])
  exact ⟨x, Option.bind_eq_some_iff.mpr ⟨next, hnext, hx⟩, by rw [hxi, hnexti]⟩

/-- The multiple that the quotient is of. -/
theorem Truncated.multiple (h : Truncated n factor q r) :
    ∃ x, mul q factor = some x ∧ x.toInt = q.toInt * factor.toInt := by
  obtain ⟨x, hx, -⟩ := h.product
  exact ⟨x, hx, fit_eq_some.mp hx⟩

theorem Truncated.exact (h : Truncated n factor q r) (hr : r = 0) : n.toInt = q.toInt * factor.toInt := by
  have := h.sum
  rwa [hr, Int64.toInt_zero, Int.add_zero] at this

theorem pos_iff_toInt : 0 < n ↔ 0 < n.toInt := by rw [Int64.lt_iff_toInt_lt, Int64.toInt_zero]

theorem ceil_to_ok (h : Truncated n factor q r) (hroom : Room n factor q) (hfactor : 0 < factor.toInt) :
    ∃ x, ceil_to n factor q r = some x ∧ Rounded .ceil factor.toInt n.toInt x.toInt := by
  have hsum := h.sum
  obtain ⟨hpos, hneg⟩ := h.between hfactor
  have hbelow : (q.toInt - 1) * factor.toInt = q.toInt * factor.toInt - factor.toInt := by rw [Int.sub_mul, Int.one_mul]
  have habove : (q.toInt + 1) * factor.toInt = q.toInt * factor.toInt + factor.toInt := by rw [Int.add_mul, Int.one_mul]
  by_cases hr : r = 0
  · refine ⟨n, if_pos hr, ?_⟩
    rw [h.exact hr]
    exact isLeast_multiple hfactor (le_refl _) (by omega)
  · have hne := toInt_ne_zero hr
    by_cases hn : 0 < n
    · have := hpos (pos_iff_toInt.mp hn)
      obtain ⟨x, hx, hxi⟩ := next_multiple (hroom.above (pos_iff_toInt.mp hn)) hfactor this.1
      refine ⟨x, (if_neg hr).trans ((if_pos hn).trans hx), ?_⟩
      rw [hxi]
      exact isLeast_multiple hfactor (by omega) (by rw [Int.add_sub_cancel]; omega)
    · have := hneg (by rw [pos_iff_toInt] at hn; omega)
      obtain ⟨x, hx, hxi⟩ := h.multiple
      refine ⟨x, (if_neg hr).trans ((if_neg hn).trans hx), ?_⟩
      rw [hxi]
      exact isLeast_multiple hfactor (by omega) (by omega)

theorem floor_to_ok (h : Truncated n factor q r) (hroom : Room n factor q) (hfactor : 0 < factor.toInt) :
    ∃ x, floor_to n factor q r = some x ∧ Rounded .floor factor.toInt n.toInt x.toInt := by
  have hsum := h.sum
  obtain ⟨hpos, hneg⟩ := h.between hfactor
  have hbelow : (q.toInt - 1) * factor.toInt = q.toInt * factor.toInt - factor.toInt := by rw [Int.sub_mul, Int.one_mul]
  have habove : (q.toInt + 1) * factor.toInt = q.toInt * factor.toInt + factor.toInt := by rw [Int.add_mul, Int.one_mul]
  by_cases hr : r = 0
  · refine ⟨n, if_pos hr, ?_⟩
    rw [h.exact hr]
    exact isGreatest_multiple hfactor (le_refl _) (by omega)
  · have hne := toInt_ne_zero hr
    by_cases hn : 0 < n
    · have := hpos (pos_iff_toInt.mp hn)
      obtain ⟨x, hx, hxi⟩ := h.multiple
      refine ⟨x, (if_neg hr).trans ((if_pos hn).trans hx), ?_⟩
      rw [hxi]
      exact isGreatest_multiple hfactor (by omega) (by omega)
    · have hn' : n.toInt ≤ 0 := by rw [pos_iff_toInt] at hn; omega
      have := hneg hn'
      obtain ⟨x, hx, hxi⟩ := previous_multiple (hroom.below hn') hfactor this.1
      refine ⟨x, (if_neg hr).trans ((if_neg hn).trans hx), ?_⟩
      rw [hxi]
      exact isGreatest_multiple hfactor (by omega) (by rw [Int.sub_add_cancel]; omega)

theorem truncate_ok (h : Truncated n factor q r) (hfactor : 0 < factor.toInt) :
    ∃ x, mul q factor = some x ∧ Rounded .truncate factor.toInt n.toInt x.toInt := by
  have hsum := h.sum
  obtain ⟨hpos, hneg⟩ := h.between hfactor
  have hbelow : (q.toInt - 1) * factor.toInt = q.toInt * factor.toInt - factor.toInt := by rw [Int.sub_mul, Int.one_mul]
  have habove : (q.toInt + 1) * factor.toInt = q.toInt * factor.toInt + factor.toInt := by rw [Int.add_mul, Int.one_mul]
  obtain ⟨x, hx, hxi⟩ := h.multiple
  refine ⟨x, hx, ?_, ?_⟩
  · intro hn
    rw [hxi]
    rcases hn.lt_or_eq with hlt | hzero
    · have := hpos hlt
      exact isGreatest_multiple hfactor (by omega) (by omega)
    · have := hneg hzero.ge
      have hle : q.toInt * factor.toInt ≤ 0 := Int.mul_nonpos_of_nonpos_of_nonneg this.1 hfactor.le
      exact isGreatest_multiple hfactor (by omega) (by omega)
  · intro hn
    have := hneg hn
    rw [hxi]
    exact isLeast_multiple hfactor (by omega) (by omega)

/-- Of the multiples on both sides the nearer one, the upper one when they are
as near. -/
theorem nearer_rounded {k : Int} {lo hi mid : Int64} (hfactor : 0 < p) (hlo : lo.toInt = k * p)
    (hhi : hi.toInt = (k + 1) * p) (hmid : 2 * (mid.toInt - lo.toInt) = p) (hle : k * p ≤ n.toInt)
    (hle' : n.toInt ≤ (k + 1) * p) (hhalf : 2 * (n.toInt - k * p) = p → 0 < n.toInt) :
    Rounded .round p n.toInt (if n < mid then lo else hi).toInt := by
  have hnext : (k + 1) * p = k * p + p := by rw [Int.add_mul, Int.one_mul]
  by_cases hlt : n < mid
  · rw [if_pos hlt, hlo]
    rw [Int64.lt_iff_toInt_lt] at hlt
    exact rounded_near hfactor (by omega)
  · rw [if_neg hlt, hhi]
    rw [Int64.lt_iff_toInt_lt] at hlt
    by_cases heq : n.toInt = mid.toInt
    · exact rounded_half_up hfactor (hhalf (by omega)) (by omega)
    · exact rounded_near hfactor (by omega)

/-- The multiple below, which round starts from. -/
theorem low_multiple (h : Truncated n factor q r) (hroom : Room n factor q) (hfactor : 0 < factor.toInt) :
    ∃ (k : Int) (lo : Int64), (if 0 < n then some q else sub q 1).bind (mul · factor) = some lo ∧
      lo.toInt = k * factor.toInt ∧ Fits ((k + 1) * factor.toInt) ∧ k * factor.toInt ≤ n.toInt ∧
      n.toInt ≤ (k + 1) * factor.toInt ∧ (2 * r.toInt ≠ -factor.toInt → 2 * (n.toInt - k * factor.toInt) = factor.toInt → 0 < n.toInt) := by
  have hsum := h.sum
  obtain ⟨hpos, hneg⟩ := h.between hfactor
  obtain ⟨x, hx, hxi⟩ := h.multiple
  by_cases hn : 0 < n
  · have hn' := pos_iff_toInt.mp hn
    have := hpos hn'
    have hnext : (q.toInt + 1) * factor.toInt = q.toInt * factor.toInt + factor.toInt := by rw [Int.add_mul, Int.one_mul]
    refine ⟨q.toInt, x, ?_, hxi, ?_, by omega, by omega, fun _ _ => hn'⟩
    · rw [if_pos hn]
      exact hx
    · rw [hnext]
      exact hroom.above hn'
  · have hn' : n.toInt ≤ 0 := by rw [pos_iff_toInt] at hn; omega
    have := hneg hn'
    obtain ⟨lo, hlo, hloi⟩ := previous_multiple (hroom.below hn') hfactor this.1
    have hprevious : (q.toInt - 1) * factor.toInt = q.toInt * factor.toInt - factor.toInt := by rw [Int.sub_mul, Int.one_mul]
    refine ⟨q.toInt - 1, lo, ?_, hloi, ?_, by omega, ?_, by omega⟩
    · rw [if_neg hn]
      exact hlo
    · rw [Int.sub_add_cancel, ← hxi]
      exact toInt_bounds x
    · rw [Int.sub_add_cancel]
      omega

theorem round_to_ok (h : Truncated n factor q r) (hroom : Room n factor q) (hfactor : 0 < factor.toInt)
    (heven : 2 ∣ factor.toInt) (hhalf : 2 * r.toInt ≠ -factor.toInt) :
    ∃ x, round_to n factor q = some x ∧ Rounded .round factor.toInt n.toInt x.toInt := by
  obtain ⟨k, lo, hlo, hloi, hfits, hle, hle', hup⟩ := low_multiple h hroom hfactor
  have hnext : (k + 1) * factor.toInt = k * factor.toInt + factor.toInt := by rw [Int.add_mul, Int.one_mul]
  obtain ⟨half, hhalfway, hhalfi⟩ := exists_div (a := factor) (show (2 : Int64) ≠ 0 by decide) (fun hleast => absurd hleast.2 (by decide))
  have htwo : half.toInt = factor.toInt / 2 := by rw [hhalfi, Int.tdiv_eq_ediv_of_nonneg hfactor.le]; rfl
  have hlow := toInt_bounds lo
  have hbounds := hfits.2
  obtain ⟨hi, hhi, hhii⟩ := exists_fit_eq (i := lo.toInt + factor.toInt) (by rwa [hloi, ← hnext])
  obtain ⟨mid, hmid, hmidi⟩ := exists_fit_eq (i := lo.toInt + half.toInt) ⟨by omega, by omega⟩
  refine ⟨if n < mid then lo else hi, ?_, ?_⟩
  · rw [round_to, hlo]
    exact Option.bind_eq_some_iff.mpr ⟨lo, rfl, Option.bind_eq_some_iff.mpr ⟨hi, hhi,
      Option.bind_eq_some_iff.mpr ⟨half, hhalfway, Option.bind_eq_some_iff.mpr ⟨mid, hmid, rfl⟩⟩⟩⟩
  · exact nearer_rounded hfactor hloi (by rw [hhii, hloi, hnext]) (by omega) hle hle' (hup hhalf)

theorem rounded_ok (h : Truncated n factor q r) (hroom : Room n factor q) (hfactor : 0 < factor.toInt)
    (heven : 2 ∣ factor.toInt) (hhalf : 2 * r.toInt ≠ -factor.toInt) (how : Rounding) :
    ∃ x, rounded how n factor q r = some x ∧ Rounded how factor.toInt n.toInt x.toInt := by
  cases how with
  | ceil => exact ceil_to_ok h hroom hfactor
  | floor => exact floor_to_ok h hroom hfactor
  | round => exact round_to_ok h hroom hfactor heven hhalf
  | truncate => exact truncate_ok h hfactor

/-- round starts one multiple lower from what is not positive. -/
theorem low_negative {lo : Int64} (hlo : (if 0 < n then some q else sub q 1).bind (mul · factor) = some lo)
    (hn : n.toInt ≤ 0) : lo.toInt = q.toInt * factor.toInt - factor.toInt := by
  rw [if_neg (fun hpos => by rw [pos_iff_toInt] at hpos; omega)] at hlo
  obtain ⟨previous, hprevious, hmul⟩ := Option.bind_eq_some_iff.mp hlo
  have hpreviousi : previous.toInt = q.toInt - 1 := fit_eq_some.mp hprevious
  have hloi : lo.toInt = previous.toInt * factor.toInt := fit_eq_some.mp hmul
  rw [hloi, hpreviousi, Int.sub_mul, Int.one_mul]

/-- round needs the room even where it returns a multiple that is nearer. -/
theorem room_of_round {x : Int64} (hround : round_to n factor q = some x) : Room n factor q := by
  obtain ⟨lo, hlo, hrest⟩ := Option.bind_eq_some_iff.mp hround
  obtain ⟨hi, hhi, -⟩ := Option.bind_eq_some_iff.mp hrest
  have hhii : hi.toInt = lo.toInt + factor.toInt := fit_eq_some.mp hhi
  constructor
  · intro hn
    rw [if_pos (pos_iff_toInt.mpr hn)] at hlo
    have hloi : lo.toInt = q.toInt * factor.toInt := fit_eq_some.mp hlo
    rw [← hloi, ← hhii]
    exact toInt_bounds hi
  · intro hn
    have hloi := low_negative hlo hn
    rw [← hloi]
    exact toInt_bounds lo

/-- A negative half goes to the multiple above. -/
theorem round_to_half {x : Int64} (hround : round_to n factor q = some x) (hsum : n.toInt = q.toInt * factor.toInt + r.toInt)
    (hfactor : 0 < factor.toInt) (hhalf : 2 * r.toInt = -factor.toInt) (hn : n.toInt < 0) :
    x.toInt = q.toInt * factor.toInt := by
  obtain ⟨lo, hlo, hrest⟩ := Option.bind_eq_some_iff.mp hround
  obtain ⟨hi, hhi, hrest⟩ := Option.bind_eq_some_iff.mp hrest
  obtain ⟨half, hdiv, hrest⟩ := Option.bind_eq_some_iff.mp hrest
  obtain ⟨mid, hmid, hx⟩ := Option.bind_eq_some_iff.mp hrest
  have hloi := low_negative hlo hn.le
  have hhii : hi.toInt = lo.toInt + factor.toInt := fit_eq_some.mp hhi
  have hmidi : mid.toInt = lo.toInt + half.toInt := fit_eq_some.mp hmid
  obtain ⟨-, hhalfi⟩ := toInt_of_div hdiv
  have hnot : ¬ n < mid := by
    rw [Int64.lt_iff_toInt_lt, hmidi, hhalfi, hloi, show (2 : Int64).toInt = 2 by decide,
      Int.tdiv_eq_ediv_of_nonneg hfactor.le]
    omega
  rw [if_neg hnot] at hx
  obtain rfl := Option.some_inj.mp hx
  omega

end

/-- Rounding to `10 ^ d`: all four methods come to something, and to the right
multiple where a machine integer holds it. -/
def RoundingLaw (n digits : Int64) (d : Nat) : Prop :=
  ∀ how, ∃ x, integer_rounding how n [.int digits] = some x ∧
    ∀ m, Rounded how (10 ^ d) n.toInt m → Fits m → x.toInt = m

section
variable {n digits : Int64} {d : Nat}

theorem integer_rounding_negative (hd : 0 < d) (h : digits.toInt = -d) (how : Rounding) :
    integer_rounding how n [.int digits] = (signed.fit d).bind fun limit =>
      (factor_each limit.toInt.toNat 1).bind fun factor => (div n factor).bind fun q =>
        (rem n factor).bind fun r => rounded how n factor q r := by
  have hneg : digits < 0 := by
    rw [neg_iff_toInt, h]
    omega
  have hlimit : -digits.toInt = d := by omega
  refine (if_pos hneg).trans ?_
  rw [hlimit]
  rfl

theorem two_dvd_power (hd : 0 < d) : (2 : Int) ∣ 10 ^ d := dvd_pow (by decide) hd.ne'

/-- Where there is room for the next multiple the power itself fits. -/
theorem power_fits (habove : 0 < n.toInt → Fits (n.toInt.tdiv (10 ^ d) * 10 ^ d + 10 ^ d))
    (hbelow : n.toInt ≤ 0 → Fits (n.toInt.tdiv (10 ^ d) * 10 ^ d - 10 ^ d)) : d ≤ 18 := by
  have hpow : (0 : Int) < 10 ^ d := Int.pow_pos (by decide)
  have hle : (10 : Int) ^ d ≤ 2 ^ 63 := by
    rcases lt_or_ge 0 n.toInt with hn | hn
    · have hq : 0 ≤ n.toInt.tdiv (10 ^ d) * 10 ^ d := Int.mul_nonneg (Int.tdiv_nonneg hn.le hpow.le) hpow.le
      have := (habove hn).2
      omega
    · have hq : 0 ≤ -(n.toInt.tdiv (10 ^ d) * 10 ^ d) := by
        rw [← Int.neg_mul, ← Int.neg_tdiv]
        exact Int.mul_nonneg (Int.tdiv_nonneg (by omega) hpow.le) hpow.le
      have := (hbelow hn).1
      omega
  by_contra hbig
  have hmono : (10 : Int) ^ 19 ≤ 10 ^ d := pow_le_pow_right₀ (by decide) (by omega)
  omega

/-- The factor, the quotient and the remainder of a power that fits. -/
theorem exists_factor (hsmall : d ≤ 18) :
    ∃ factor q r : Int64, factor_each d 1 = some factor ∧ factor.toInt = 10 ^ d ∧ Truncated n factor q r := by
  have hone : (1 : Int64).toInt = 1 := by decide
  have hmono : (10 : Int) ^ d ≤ 10 ^ 18 := pow_le_pow_right₀ (by decide) hsmall
  have hpow : (0 : Int) < 10 ^ d := Int.pow_pos (by decide)
  obtain ⟨factor, hfactor⟩ := factor_each_ok (i := d) (show 0 < (1 : Int64).toInt by decide) (by rw [hone]; omega)
  have hfactori : factor.toInt = 10 ^ d := by rw [factor_each_some hfactor, hone, Int.one_mul]
  have hzero : factor ≠ 0 := by
    rintro rfl
    rw [Int64.toInt_zero] at hfactori
    omega
  have hleast : ¬ (n = Int64.minValue ∧ factor = -1) := by
    rintro ⟨-, rfl⟩
    have hneg : (-1 : Int64).toInt = -1 := by decide
    omega
  obtain ⟨q, r, htruncated⟩ := exists_truncated hzero hleast
  exact ⟨factor, q, r, hfactor, hfactori, htruncated⟩

/-- The law holds exactly where there is room for the multiple after the
truncated one, and not on a negative half. -/
theorem rounding_iff (hd : 0 < d) (h : digits.toInt = -d) :
    RoundingLaw n digits d ↔
      (0 < n.toInt → Fits (n.toInt.tdiv (10 ^ d) * 10 ^ d + 10 ^ d)) ∧
      (n.toInt ≤ 0 → Fits (n.toInt.tdiv (10 ^ d) * 10 ^ d - 10 ^ d)) ∧
      2 * n.toInt.tmod (10 ^ d) ≠ -10 ^ d := by
  have hpow : (0 : Int) < 10 ^ d := Int.pow_pos (by decide)
  constructor
  · intro hlaw
    obtain ⟨x, hx, hmultiple⟩ := hlaw .round
    rw [integer_rounding_negative hd h] at hx
    obtain ⟨limit, hlimit, hx⟩ := Option.bind_eq_some_iff.mp hx
    obtain ⟨factor, hfactor, hx⟩ := Option.bind_eq_some_iff.mp hx
    obtain ⟨q, hq, hx⟩ := Option.bind_eq_some_iff.mp hx
    obtain ⟨r, hr, hround⟩ := Option.bind_eq_some_iff.mp hx
    have hlimiti : limit.toInt = d := fit_eq_some.mp hlimit
    have hfactori : factor.toInt = 10 ^ d := by
      rw [factor_each_some hfactor, hlimiti, Int.toNat_natCast, show (1 : Int64).toInt = 1 by decide, Int.one_mul]
    obtain ⟨hzero, hqi⟩ := toInt_of_div hq
    have hri := toInt_of_rem hr
    rw [hfactori] at hqi hri
    have hroom := room_of_round hround
    have habove := hroom.above
    have hbelow := hroom.below
    rw [hqi, hfactori] at habove hbelow
    refine ⟨habove, hbelow, fun hhalf => ?_⟩
    -- a negative half goes to the multiple above, the one below is right
    have hsum := Int.tdiv_mul_add_tmod n.toInt (10 ^ d)
    have hn : n.toInt < 0 := by
      by_contra hnot
      have := Int.tmod_nonneg (10 ^ d) (show 0 ≤ n.toInt by omega)
      omega
    have hbelow := hbelow hn.le
    have hprevious : (q.toInt - 1) * 10 ^ d = n.toInt.tdiv (10 ^ d) * 10 ^ d - 10 ^ d := by
      rw [hqi, Int.sub_mul, Int.one_mul]
    rw [← hprevious] at hbelow
    have hright := hmultiple _ (rounded_half_down hpow hn (by omega)) hbelow
    have hwrong := @round_to_half n factor q r x hround (by rw [hqi, hri, hfactori, hsum])
      (by rw [hfactori]; exact hpow) (by rw [hri, hfactori]; exact hhalf) hn
    rw [hfactori] at hwrong
    have : (q.toInt - 1) * 10 ^ d = q.toInt * 10 ^ d - 10 ^ d := by rw [Int.sub_mul, Int.one_mul]
    omega
  · rintro ⟨habove, hbelow, hhalf⟩ how
    have hsmall := power_fits habove hbelow
    obtain ⟨factor, q, r, hfactor, hfactori, htruncated⟩ := @exists_factor n d hsmall
    obtain ⟨-, hqi⟩ := toInt_of_div htruncated.div
    have hri := toInt_of_rem htruncated.rem
    rw [hfactori] at hqi hri
    have hroom : Room n factor q := by
      constructor <;> rw [hqi, hfactori]
      · exact habove
      · exact hbelow
    have heven : 2 ∣ factor.toInt := by
      rw [hfactori]
      exact two_dvd_power hd
    obtain ⟨x, hx, hrounded⟩ := rounded_ok htruncated hroom (by rw [hfactori]; exact hpow) heven
      (by rw [hri, hfactori]; exact hhalf) how
    rw [hfactori] at hrounded
    obtain ⟨limit, hlimit, hlimiti⟩ := exists_fit_eq (i := (d : Int)) ⟨by omega, by omega⟩
    refine ⟨x, ?_, fun m hm _ => rounded_unique how hrounded hm⟩
    rw [integer_rounding_negative hd h]
    refine Option.bind_eq_some_iff.mpr ⟨limit, hlimit, ?_⟩
    rw [hlimiti, Int.toNat_natCast]
    exact Option.bind_eq_some_iff.mpr ⟨factor, hfactor, Option.bind_eq_some_iff.mpr ⟨q, htruncated.div,
      Option.bind_eq_some_iff.mpr ⟨r, htruncated.rem, hx⟩⟩⟩

theorem rounding_twenty_five : RoundingLaw 25 (-1) 1 :=
  (rounding_iff (by decide) (by decide)).mpr (by decide)

/-- -15 is half way between -20 and -10, and goes to -10. -/
theorem round_negative_half : ¬ RoundingLaw (-15) (-1) 1 := by
  intro hlaw
  obtain ⟨x, hx, hmultiple⟩ := hlaw .round
  obtain rfl : -10 = x := Option.some_inj.mp hx
  have hright := hmultiple (-2 * 10) (@rounded_half_down 10 (-15) (-2) (by decide) (by decide) (by decide)) (by decide)
  exact absurd hright (by decide)

end

end stoned
