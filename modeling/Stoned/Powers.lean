import Mathlib.Data.Int.ModEq
import Stoned.DoubleExact
import Stoned.IntegerDivision

namespace stoned

open program program.signed

/-! Powers of integers (eval_dispatch_primitives.c, dispatch_integer): `pow`
with and without a modulus, and `**`. -/

/-- What a power comes to. -/
inductive Power where
  | int (n : Int64)
  | float (x : Double)
  | raised (class_name message : String)
  deriving DecidableEq

/-- `if (e & 1) result = result * base % mod` -/
def multiply_digit (mod : Int64) (e : Nat) (result base : Int64) : Option Int64 :=
  if e % 2 = 1 then (mul result base).bind (rem · mod) else some result

/-- The loop over the binary digits of the exponent. -/
def pow_mod_each (mod : Int64) (e : Nat) (result base : Int64) : Option Int64 :=
  if e = 0 then some result
  else do
    let result ← multiply_digit mod e result base
    let base ← (mul base base).bind (rem · mod)
    pow_mod_each mod (e / 2) result base
  termination_by e
  decreasing_by omega

/-- The loop that multiplies, as many times as the exponent says. -/
def pow_each (n : Int64) : Nat → Int64 → Option Int64
  | 0, result => some result
  | e + 1, result => (mul result n).bind (pow_each n e)

/-- Integer#pow. An exponent that is no integer is read as a double and converted. -/
def integer_pow (fpu : Fpu) (to_int : Value → Int64) (n : Int64) (args : List Value) : Option Power := do
  match args with
  | [] => return .raised "ArgumentError" "Integer#pow requires an argument"
  | first :: rest =>
    let exp := match first with
      | .int exp => exp
      | other => to_int other
    match rest with
    | .int mod :: _ =>
      if mod = 0 then return .raised "ZeroDivisionError" "divided by 0"
      let base ← rem (← add (← rem n mod) mod) mod
      return .int (← pow_mod_each mod exp.toInt.toNat 1 base)
    | _ =>
      if exp < 0 then return .float (fpu.pow (.of_int n) (.of_int exp))
      return .int (← pow_each n exp.toInt.toNat 1)

/-- What is relied on of the conversion to integers and of pow: a double is
truncated where an integer holds it, and a power that is a double is exact. -/
structure Fpu.Documented (fpu : Fpu) : Prop where
  to_int_fits : ∀ x : Double, x.nan = false → Fits (x.value.tdiv (2 ^ 1074)) →
    (fpu.to_int x).toInt = x.value.tdiv (2 ^ 1074)
  to_int_other : ∀ x : Double, x.nan = true ∨ ¬ Fits (x.value.tdiv (2 ^ 1074)) → fpu.to_int x = Int64.minValue
  pow_exact : ∀ (x y : Double) (b : Int) (k : Nat), x.nan = false → y.nan = false →
    x.value = b * 2 ^ 1074 → y.value = k * 2 ^ 1074 → Fits (b ^ k) → Double.round (b ^ k) = b ^ k →
    (fpu.pow x y).nan = false ∧ (fpu.pow x y).value = b ^ k * 2 ^ 1074

/-- The residue of a power that the loop keeps. C's remainder has the sign of
the dividend, so that of an odd power with a negative modulus is not positive. -/
def residue (n m : Int) (k : Nat) : Int := if m < 0 ∧ k % 2 = 1 then -(-n ^ k % m) else n ^ k % m

/-- The product of the digits that are done, 1 before the first. -/
def front (n m : Int) (k : Nat) : Int := if k = 0 then 1 else residue n m k

/-- All products of the loop fit. -/
def ProductsFit (n m : Int) (e : Nat) : Prop :=
  ∀ i, 2 ^ i ≤ e → (e.testBit i = true → Fits (front n m (e % 2 ^ i) * residue n m (2 ^ i))) ∧
    Fits (residue n m (2 ^ i) * residue n m (2 ^ i))

section residue
variable {n m : Int}

theorem tmod_of_nonneg {p : Int} (h : 0 ≤ p) : p.tmod m = p % m := Int.tmod_eq_emod_of_nonneg h

theorem tmod_of_nonpos {p : Int} (h : p ≤ 0) : p.tmod m = -(-p % m) := by
  rw [← tmod_of_nonneg (show 0 ≤ -p by omega), Int.neg_tmod, Int.neg_neg]

theorem residue_even (n m : Int) {k : Nat} (h : k % 2 = 0) : residue n m k = n ^ k % m :=
  if_neg fun hodd => by omega

theorem residue_pos (n : Int) (h : ¬ m < 0) (k : Nat) : residue n m k = n ^ k % m := if_neg fun hodd => h hodd.1

theorem residue_odd (n : Int) (h : m < 0) {k : Nat} (hk : k % 2 = 1) : residue n m k = -(-n ^ k % m) := if_pos ⟨h, hk⟩

/-- The residue of a product, unless both powers are odd and the modulus negative. -/
theorem residue_mul (hm : m ≠ 0) {j k : Nat} (hk : k % 2 = 0) :
    (residue n m j * residue n m k).tmod m = residue n m (j + k) := by
  have hright := Int.emod_nonneg (n ^ k) hm
  by_cases hodd : m < 0 ∧ j % 2 = 1
  · have hleft := Int.emod_nonneg (-n ^ j) hm
    rw [residue_odd n hodd.1 hodd.2, residue_even n m hk, residue_odd n hodd.1 (by omega), Int.neg_mul, tmod_of_nonpos, Int.neg_neg,
      ← Int.mul_emod, Int.neg_mul, Int.pow_add]
    have := Int.mul_nonneg hleft hright
    omega
  · have hleft : residue n m j = n ^ j % m := if_neg hodd
    have hsum : residue n m (j + k) = n ^ (j + k) % m := if_neg fun h => hodd ⟨h.1, by omega⟩
    have hpos := Int.emod_nonneg (n ^ j) hm
    rw [hleft, residue_even n m hk, hsum, tmod_of_nonneg (Int.mul_nonneg hpos hright), ← Int.mul_emod, Int.pow_add]

theorem residue_square (hm : m ≠ 0) (k : Nat) : (residue n m k * residue n m k).tmod m = residue n m (k + k) := by
  by_cases hodd : m < 0 ∧ k % 2 = 1
  · have hpos := Int.emod_nonneg (-n ^ k) hm
    rw [residue_odd n hodd.1 hodd.2, Int.neg_mul_neg, tmod_of_nonneg (Int.mul_nonneg hpos hpos), ← Int.mul_emod, Int.neg_mul_neg,
      residue_even n m (by omega), Int.pow_add]
  · have hpos := Int.emod_nonneg (n ^ k) hm
    have hleft : residue n m k = n ^ k % m := if_neg hodd
    rw [hleft, tmod_of_nonneg (Int.mul_nonneg hpos hpos), ← Int.mul_emod, residue_even n m (by omega), Int.pow_add]

theorem residue_small (hm : m ≠ 0) (k : Nat) : (residue n m k).natAbs < m.natAbs := by
  have hlt := Int.emod_lt_abs (n ^ k) hm
  have hlt' := Int.emod_lt_abs (-n ^ k) hm
  rw [Int.abs_eq_natAbs] at hlt hlt'
  have hpos := Int.emod_nonneg (n ^ k) hm
  have hpos' := Int.emod_nonneg (-n ^ k) hm
  unfold residue
  split <;> omega

theorem residue_tmod (hm : m ≠ 0) (k : Nat) : (residue n m k).tmod m = residue n m k := by
  by_cases hodd : m < 0 ∧ k % 2 = 1
  · have hpos := Int.emod_nonneg (-n ^ k) hm
    rw [residue_odd n hodd.1 hodd.2, tmod_of_nonpos (by omega), Int.neg_neg, Int.emod_emod]
  · have hvalue : residue n m k = n ^ k % m := if_neg hodd
    rw [hvalue, tmod_of_nonneg (Int.emod_nonneg _ hm), Int.emod_emod]

/-- The residue is one. -/
theorem residue_modEq (n m : Int) (k : Nat) : residue n m k ≡ n ^ k [ZMOD m] := by
  unfold residue
  split
  · have h := (Int.mod_modEq (-n ^ k) m).neg
    rwa [Int.neg_neg] at h
  · exact Int.mod_modEq (n ^ k) m

theorem front_modEq (n m : Int) (k : Nat) : front n m k ≡ n ^ k [ZMOD m] := by
  unfold front
  split
  · rename_i h
    rw [h, Int.pow_zero]
  · exact residue_modEq n m k

/-- One more digit of the exponent. -/
theorem front_step (hm : m ≠ 0) (e i : Nat) : front n m (e % 2 ^ (i + 1)) =
    if e.testBit i then (front n m (e % 2 ^ i) * residue n m (2 ^ i)).tmod m else front n m (e % 2 ^ i) := by
  have hsplit : e % 2 ^ (i + 1) = e % 2 ^ i + 2 ^ i * (e.testBit i).toNat := by
    rw [Nat.mod_pow_succ, Nat.toNat_testBit]
  cases hbit : e.testBit i with
  | false =>
    rw [hsplit, hbit, if_neg Bool.false_ne_true]
    rfl
  | true =>
    have hpos := Nat.two_pow_pos i
    rw [hsplit, hbit, if_pos rfl, Bool.toNat_true, Nat.mul_one]
    have hnext : front n m (e % 2 ^ i + 2 ^ i) = residue n m (e % 2 ^ i + 2 ^ i) := if_neg (by omega)
    rw [hnext]
    by_cases hzero : e % 2 ^ i = 0
    · rw [hzero, front, if_pos rfl, Int.one_mul, residue_tmod hm, Nat.zero_add]
    · have hi : i ≠ 0 := by
        rintro rfl
        exact hzero (Nat.mod_one e)
      have heven : 2 ^ i % 2 = 0 := by
        obtain ⟨j, rfl⟩ := Nat.exists_eq_succ_of_ne_zero hi
        rw [Nat.pow_succ, Nat.mul_mod_left]
      rw [front, if_neg hzero, residue_mul hm heven]

end residue

section loop
variable {n m : Int} {mod result base : Int64} {e i : Nat}

/-- A remainder by the modulus. -/
theorem exists_product (hm : mod.toInt = m) (hne : m ≠ 0) {a b : Int64} (hfits : Fits (a.toInt * b.toInt))
    (hsmall : b.toInt.natAbs < m.natAbs) :
    ∃ r, (mul a b).bind (rem · mod) = some r ∧ r.toInt = (a.toInt * b.toInt).tmod m := by
  obtain ⟨p, hp, hpi⟩ := exists_fit_eq hfits
  have hmod : mod ≠ 0 := by
    rintro rfl
    exact hne (hm.symm.trans Int64.toInt_zero)
  obtain ⟨r, hr, hri⟩ := exists_rem hmod (a := p) (by
    rintro ⟨rfl, rfl⟩
    have hone : m = -1 := hm.symm.trans (by decide)
    have hzero : b.toInt = 0 := by omega
    rw [hzero, Int.mul_zero] at hpi
    exact absurd hpi (by decide))
  refine ⟨r, Option.bind_eq_some_iff.mpr ⟨p, hp, hr⟩, ?_⟩
  rw [hri, hpi, hm]

theorem product_some (hm : mod.toInt = m) {a b r : Int64} (h : (mul a b).bind (rem · mod) = some r) :
    Fits (a.toInt * b.toInt) ∧ r.toInt = (a.toInt * b.toInt).tmod m := by
  obtain ⟨p, hp, hr⟩ := Option.bind_eq_some_iff.mp h
  refine ⟨fits_of_fit hp, ?_⟩
  rw [toInt_of_rem hr, fit_eq_some.mp hp, hm]

/-- From the `i`-th digit on all products fit. -/
def ProductsFitFrom (n m : Int) (e i : Nat) : Prop :=
  ∀ j, i ≤ j → 2 ^ j ≤ e → (e.testBit j = true → Fits (front n m (e % 2 ^ j) * residue n m (2 ^ j))) ∧
    Fits (residue n m (2 ^ j) * residue n m (2 ^ j))

theorem digit_iff : e / 2 ^ i % 2 = 1 ↔ e.testBit i = true := by
  rw [Nat.testBit_eq_decide_div_mod_eq, decide_eq_true_iff]

theorem next_digits : e / 2 ^ i / 2 = e / 2 ^ (i + 1) := by rw [Nat.div_div_eq_div_mul, Nat.pow_succ]

theorem residue_next (hne : m ≠ 0) : (residue n m (2 ^ i) * residue n m (2 ^ i)).tmod m = residue n m (2 ^ (i + 1)) := by
  rw [residue_square hne, Nat.pow_succ, Nat.mul_two]

theorem pow_mod_each_ok (hm : mod.toInt = m) (hne : m ≠ 0) (hresult : result.toInt = front n m (e % 2 ^ i))
    (hbase : base.toInt = residue n m (2 ^ i)) (h : ProductsFitFrom n m e i) :
    ∃ r, pow_mod_each mod (e / 2 ^ i) result base = some r := by
  induction hleft : e / 2 ^ i using Nat.strong_induction_on generalizing i result base with
  | _ left ih =>
    unfold pow_mod_each
    by_cases hzero : left = 0
    · exact ⟨result, if_pos hzero⟩
    · have hle : 2 ^ i ≤ e := by
        by_contra hlt
        exact hzero (hleft.symm.trans (Nat.div_eq_of_lt (Nat.lt_of_not_le hlt)))
      obtain ⟨hproduct, hsquare⟩ := h i le_rfl hle
      have hstep := @front_step n m hne e i
      have hsmall : base.toInt.natAbs < m.natAbs := by
        rw [hbase]
        exact residue_small hne _
      obtain ⟨result', hresult', hfront⟩ : ∃ result', multiply_digit mod left result base = some result' ∧
          result'.toInt = front n m (e % 2 ^ (i + 1)) := by
        rw [hstep, ← hleft]
        by_cases hdigit : e / 2 ^ i % 2 = 1
        · have hbit := digit_iff.mp hdigit
          obtain ⟨r, hr, hri⟩ := exists_product hm hne (a := result) (b := base)
            (by rw [hresult, hbase]; exact hproduct hbit) hsmall
          refine ⟨r, (if_pos hdigit).trans hr, ?_⟩
          rw [hri, if_pos hbit, hresult, hbase]
        · refine ⟨result, if_neg hdigit, ?_⟩
          rw [if_neg (fun hbit => hdigit (digit_iff.mpr hbit)), hresult]
      obtain ⟨base', hbase', hresidue⟩ := exists_product hm hne (a := base) (b := base) (by rw [hbase]; exact hsquare) hsmall
      rw [hbase, residue_next hne] at hresidue
      have hnext : left / 2 = e / 2 ^ (i + 1) := by rw [← hleft, next_digits]
      obtain ⟨r, hr⟩ := ih (left / 2) (by omega) hfront hresidue (fun j hj => h j (by omega)) hnext.symm
      refine ⟨r, (if_neg hzero).trans ?_⟩
      exact Option.bind_eq_some_iff.mpr ⟨result', hresult', Option.bind_eq_some_iff.mpr ⟨base', hbase', hr⟩⟩

/-- What the loop returns, and that it has fitted. -/
theorem pow_mod_each_some {r : Int64} (hm : mod.toInt = m) (hne : m ≠ 0) (hresult : result.toInt = front n m (e % 2 ^ i))
    (hbase : base.toInt = residue n m (2 ^ i)) (h : pow_mod_each mod (e / 2 ^ i) result base = some r) :
    r.toInt = front n m e ∧ ProductsFitFrom n m e i := by
  induction hleft : e / 2 ^ i using Nat.strong_induction_on generalizing i result base with
  | _ left ih =>
    rw [hleft] at h
    unfold pow_mod_each at h
    by_cases hzero : left = 0
    · rw [if_pos hzero] at h
      obtain rfl := Option.some_inj.mp h
      have hlt : e < 2 ^ i := by
        rw [hzero] at hleft
        exact Nat.lt_of_div_eq_zero (Nat.two_pow_pos i) hleft
      rw [Nat.mod_eq_of_lt hlt] at hresult
      refine ⟨hresult, fun j hj hle => ?_⟩
      have := Nat.pow_le_pow_right (show 0 < 2 by decide) hj
      omega
    · rw [if_neg hzero] at h
      obtain ⟨result', hresult', h⟩ := Option.bind_eq_some_iff.mp h
      obtain ⟨base', hbase', h⟩ := Option.bind_eq_some_iff.mp h
      obtain ⟨hsquare, hresidue⟩ := product_some hm hbase'
      rw [hbase] at hsquare
      rw [hbase, residue_next hne] at hresidue
      have hstep := @front_step n m hne e i
      have hdone : (e.testBit i = true → Fits (front n m (e % 2 ^ i) * residue n m (2 ^ i))) ∧
          result'.toInt = front n m (e % 2 ^ (i + 1)) := by
        rw [hstep]
        by_cases hdigit : left % 2 = 1
        · have hbit := digit_iff.mp (hleft ▸ hdigit)
          obtain ⟨hproduct, hri⟩ := product_some hm ((if_pos hdigit).symm.trans hresult')
          rw [hresult, hbase] at hproduct hri
          rw [if_pos hbit]
          exact ⟨fun _ => hproduct, hri⟩
        · have hbit : ¬ e.testBit i = true := fun hbit => hdigit (hleft ▸ digit_iff.mpr hbit)
          obtain rfl := Option.some_inj.mp ((if_neg hdigit).symm.trans hresult')
          rw [if_neg hbit]
          exact ⟨fun h => absurd h hbit, hresult⟩
      have hnext : e / 2 ^ (i + 1) = left / 2 := by rw [← hleft, next_digits]
      obtain ⟨hr, hrest⟩ := ih (left / 2) (by omega) hdone.2 hresidue (by rwa [hnext]) hnext
      refine ⟨hr, fun j hj hle => ?_⟩
      rcases Nat.eq_or_lt_of_le hj with rfl | hlt
      · exact ⟨hdone.1, hsquare⟩
      · exact hrest j hlt hle

end loop

section first
variable {n m : Int} {number mod : Int64}

/-- `((n % mod) + mod) % mod` as a number. -/
theorem first_residue (hm : m ≠ 0) : (n.tmod m + m).tmod m = residue n m 1 := by
  have hsum : n.tmod m + m = n + m * (1 - n.tdiv m) := by
    rw [Int.tmod_def, Int.mul_sub, Int.mul_one]
    omega
  have hsmall : (n.tmod m).natAbs < m.natAbs := by
    rw [Int.natAbs_tmod]
    exact Nat.mod_lt _ (by omega)
  rcases lt_or_ge m 0 with hneg | hpos
  · have hminus : -(n.tmod m + m) = -n ^ 1 + m * -(1 - n.tdiv m) := by
      rw [hsum, Int.pow_one, Int.neg_add, Int.mul_neg]
    rw [tmod_of_nonpos (by omega), hminus, Int.add_mul_emod_self_left, residue_odd n hneg rfl]
  · rw [tmod_of_nonneg (by omega), hsum, Int.add_mul_emod_self_left, residue_pos n (by omega), Int.pow_one]

theorem first_base_ok (hm : mod ≠ 0) (hleast : ¬ (number = Int64.minValue ∧ mod = -1))
    (hfits : Fits (number.toInt.tmod mod.toInt + mod.toInt)) :
    ∃ base, (do rem (← add (← rem number mod) mod) mod) = some base ∧ base.toInt = residue number.toInt mod.toInt 1 := by
  have hmi := toInt_ne_zero hm
  obtain ⟨t, ht, hti⟩ := exists_rem hm hleast
  obtain ⟨s, hs, hsi⟩ := exists_fit_eq (i := t.toInt + mod.toInt) (by rwa [hti])
  obtain ⟨base, hbase, hbasei⟩ := exists_rem (a := s) hm (by
    rintro ⟨rfl, rfl⟩
    have hzero : t.toInt = 0 := by
      rw [hti, show (-1 : Int64).toInt = -1 by decide, Int.tmod_neg, Int.tmod_one]
    rw [hzero] at hsi
    exact absurd hsi (by decide))
  refine ⟨base, ?_, by rw [hbasei, hsi, hti, first_residue hmi]⟩
  exact Option.bind_eq_some_iff.mpr ⟨t, ht, Option.bind_eq_some_iff.mpr ⟨s, hs, hbase⟩⟩

theorem first_base_some (hm : mod ≠ 0) {base : Int64} (h : (do rem (← add (← rem number mod) mod) mod) = some base) :
    ¬ (number = Int64.minValue ∧ mod = -1) ∧ Fits (number.toInt.tmod mod.toInt + mod.toInt) ∧
      base.toInt = residue number.toInt mod.toInt 1 := by
  obtain ⟨t, ht, h⟩ := Option.bind_eq_some_iff.mp h
  obtain ⟨s, hs, hbase⟩ := Option.bind_eq_some_iff.mp h
  have hti := toInt_of_rem ht
  have hsi : s.toInt = t.toInt + mod.toInt := fit_eq_some.mp hs
  have hfits := fits_of_fit hs
  rw [hti] at hfits hsi
  refine ⟨?_, hfits, by rw [toInt_of_rem hbase, hsi, first_residue (toInt_ne_zero hm)]⟩
  rintro ⟨rfl, rfl⟩
  cases ht

end first

section plain
variable {n : Int64}

/-- Smaller powers fit when a greater one does. -/
theorem fits_power {b : Int} {j k : Nat} (h : Fits (b ^ (j + k))) : Fits (b ^ j) := by
  induction k with
  | zero => exact h
  | succ k ih =>
    refine ih ?_
    rw [← Nat.add_assoc, Int.pow_succ] at h
    obtain ⟨hlow, hhigh⟩ := h
    have habs : (b ^ (j + k) * b).natAbs = (b ^ (j + k)).natAbs * b.natAbs := Int.natAbs_mul ..
    rcases Nat.lt_or_ge b.natAbs 2 with hsmall | hbig
    · have hone : (b ^ (j + k)).natAbs ≤ 1 := by
        rw [Int.natAbs_pow, ← Nat.one_pow (j + k)]
        exact Nat.pow_le_pow_left (by omega) _
      constructor <;> omega
    · have hle := Nat.mul_le_mul_left (b ^ (j + k)).natAbs hbig
      constructor <;> omega

theorem pow_each_ok {i e : Nat} {result : Int64} (hresult : result.toInt = n.toInt ^ i) (h : Fits (n.toInt ^ (i + e))) :
    ∃ r, pow_each n e result = some r ∧ r.toInt = n.toInt ^ (i + e) := by
  induction e generalizing i result with
  | zero => exact ⟨result, rfl, hresult⟩
  | succ e ih =>
    have hsum : i + (e + 1) = i + 1 + e := by omega
    rw [hsum] at h ⊢
    have hproduct : result.toInt * n.toInt = n.toInt ^ (i + 1) := by rw [hresult, Int.pow_succ]
    obtain ⟨next, hnext, hnexti⟩ := exists_fit_eq (i := result.toInt * n.toInt) (by rw [hproduct]; exact fits_power h)
    obtain ⟨r, hr, hri⟩ := ih (hnexti.trans hproduct) h
    exact ⟨r, Option.bind_eq_some_iff.mpr ⟨next, hnext, hr⟩, hri⟩

end plain

section double
variable {fpu : Fpu} {n exp : Int64} {e : Nat}

/-- What is converted to an integer was a double of an integer. -/
theorem Fpu.Documented.round_to_int (hfpu : fpu.Documented) (x : Double) :
    Double.round (fpu.to_int x).toInt = (fpu.to_int x).toInt := by
  by_cases hx : x.nan = true ∨ ¬ Fits (x.value.tdiv (2 ^ 1074))
  · rw [hfpu.to_int_other x hx]
    decide +kernel
  · obtain ⟨hnan, hfits⟩ := not_or.mp hx
    rw [hfpu.to_int_fits x (by simpa using hnan) (not_not.mp hfits)]
    exact x.round_truncated

theorem Fpu.Documented.to_int_pow (hfpu : fpu.Documented) {b : Int} {k : Nat} (hb : Double.round n.toInt = b)
    (hk : Double.round exp.toInt = k) (hfits : Fits (b ^ k)) (hround : Double.round (b ^ k) = b ^ k) :
    (fpu.to_int (fpu.pow (.of_int n) (.of_int exp))).toInt = b ^ k := by
  have hx : (Double.of_int n).value = b * 2 ^ 1074 := by rw [Double.of_int_value_eq, hb]
  have hy : (Double.of_int exp).value = (k : Int) * 2 ^ 1074 := by rw [Double.of_int_value_eq, hk]
  obtain ⟨hnan, hvalue⟩ := hfpu.pow_exact _ _ b k (Double.of_int_nan n) (Double.of_int_nan exp) hx hy hfits hround
  have hquotient : (fpu.pow (.of_int n) (.of_int exp)).value.tdiv (2 ^ 1074) = b ^ k := by
    rw [hvalue]
    exact Int.mul_tdiv_cancel _ (by positivity)
  rw [hfpu.to_int_fits _ hnan (by rwa [hquotient]), hquotient]

/-- An exponent of 64 bits as a double. -/
theorem round_exponent (h : exp.toInt = e) : Double.round exp.toInt = Double.significant e := by
  rw [h, Double.round_of_nonneg (by omega), Int.natAbs_natCast]

theorem neg_one_pow_odd {k : Nat} (h : k % 2 = 1) : (-1 : Int) ^ k = -1 := Odd.neg_one_pow (Nat.odd_iff.mpr h)

theorem neg_one_pow_even {k : Nat} (h : k % 2 = 0) : (-1 : Int) ^ k = 1 := Even.neg_one_pow (Nat.even_iff.mpr h)

/-- The base and the exponent of a power that fits keep it when they become
doubles, but for large odd exponents of -1. -/
theorem rounded_power (h : exp.toInt = e) (hfits : Fits (n.toInt ^ e)) (hround : Double.round (n.toInt ^ e) = n.toInt ^ e)
    (hodd : ¬ (n.toInt = -1 ∧ e % 2 = 1 ∧ 2 ^ 53 < e)) : Double.round n.toInt ^ Double.significant e = n.toInt ^ e := by
  have hbound := toInt_bounds exp
  have hsmall (he : e ≤ 2 ^ 53) : Double.significant e = e := by
    have hkept := Double.round_of_small (i := (e : Int)) (by omega)
    rw [Double.round_of_nonneg (by omega), Int.natAbs_natCast] at hkept
    exact_mod_cast hkept
  rcases Nat.lt_or_ge e 2 with hlow | hhigh
  · rw [hsmall (by omega)]
    have he : e = 0 ∨ e = 1 := by omega
    rcases he with rfl | rfl
    · rw [Int.pow_zero, Int.pow_zero]
    · rw [Int.pow_one] at hround ⊢
      rw [hround, Int.pow_one]
  · have hone : 1 ≤ Double.significant e := by
      have hmono := Double.significant_mono (show 1 ≤ e by omega)
      rwa [show Double.significant 1 = 1 by decide] at hmono
    rcases Nat.lt_or_ge n.toInt.natAbs 2 with hunit | hbig
    · rw [Double.round_of_small (by omega)]
      have hn : n.toInt = 0 ∨ n.toInt = 1 ∨ n.toInt = -1 := by omega
      rcases hn with hn | hn | hn <;> rw [hn]
      · rw [Int.zero_pow (by omega), Int.zero_pow (by omega)]
      · rw [Int.one_pow, Int.one_pow]
      · rcases Nat.lt_or_ge (2 ^ 53) e with hfar | hnear
        · have heven : e % 2 = 0 := by
            have := hodd
            omega
          have hdvd := Double.two_dvd_significant hfar.le
          rw [neg_one_pow_even heven, neg_one_pow_even (by omega)]
        · rw [hsmall hnear]
    · have habs : (n.toInt ^ e).natAbs = n.toInt.natAbs ^ e := Int.natAbs_pow ..
      have hle : n.toInt.natAbs ^ e ≤ 2 ^ 63 := by
        have := hfits.1
        have := hfits.2
        omega
      have hexponent : e ≤ 63 := (Nat.pow_le_pow_iff_right (show 1 < 2 by decide)).mp ((Nat.pow_le_pow_left hbig e).trans hle)
      have hsquare : n.toInt.natAbs ^ 2 ≤ 2 ^ 63 := (Nat.pow_le_pow_right (by omega) hhigh).trans hle
      have hbase : n.toInt.natAbs ≤ 2 ^ 53 := by
        by_contra hlarge
        have := Nat.pow_le_pow_left (show 2 ^ 53 ≤ n.toInt.natAbs by omega) 2
        omega
      rw [hsmall (by omega), Double.round_of_small hbase]

/-- `**` finds the power exactly when it is a double, large odd exponents of -1 apart. -/
theorem Fpu.Documented.pow_eq_iff (hfpu : fpu.Documented) (h : exp.toInt = e) (hfits : Fits (n.toInt ^ e)) :
    (fpu.to_int (fpu.pow (.of_int n) (.of_int exp))).toInt = n.toInt ^ e ↔
      Double.round (n.toInt ^ e) = n.toInt ^ e ∧ ¬ (n.toInt = -1 ∧ e % 2 = 1 ∧ 2 ^ 53 < e) := by
  constructor
  · intro heq
    have hround := hfpu.round_to_int (fpu.pow (.of_int n) (.of_int exp))
    rw [heq] at hround
    refine ⟨hround, ?_⟩
    rintro ⟨hn, hodd, hfar⟩
    have heven := Double.two_dvd_significant hfar.le
    have hone : (-1 : Int) ^ Double.significant e = 1 := neg_one_pow_even (by omega)
    have hpow := hfpu.to_int_pow (n := n) (b := -1) (by rw [hn]; decide) (round_exponent h) (by rw [hone]; decide)
      (by rw [hone]; decide)
    rw [heq, hone, hn, neg_one_pow_odd hodd] at hpow
    exact absurd hpow (by decide)
  · rintro ⟨hround, hodd⟩
    have hpower := rounded_power h hfits hround hodd
    have hpow := hfpu.to_int_pow (n := n) rfl (round_exponent h) (by rwa [hpower]) (by rwa [hpower])
    rw [hpow, hpower]

end double

section law
variable (fpu : Fpu) (rest : Builtins) (to_int : Value → Int64) {n m exp : Int64} {e : Nat}

theorem evaluates_power (h : exp.toInt = e) :
    Evaluates (fpu.builtins rest) "**" n exp (.int (fpu.to_int (fpu.pow (.of_int n) (.of_int exp)))) := by
  refine evaluates_of_operation fpu rest n exp (by decide) fun env site => ?_
  have hpositive : ¬ exp < 0 := by
    rw [neg_iff_toInt]
    omega
  change integer_power fpu env n exp site = _
  unfold integer_power
  simp only [hpositive, if_false]

/-- `pow` with a modulus finds the residue, the least one for a positive
modulus; `pow` without one and `**` find a power that fits. -/
def PowerLaw (n m exp : Int64) (e : Nat) : Prop :=
  (∃ r, integer_pow fpu to_int n [.int exp, .int m] = some (.int r) ∧ r.toInt ≡ n.toInt ^ e [ZMOD m.toInt] ∧
    (0 < m.toInt → 0 ≤ r.toInt ∧ r.toInt < m.toInt)) ∧
  (Fits (n.toInt ^ e) → ∃ r : Int64, r.toInt = n.toInt ^ e ∧ integer_pow fpu to_int n [.int exp] = some (.int r) ∧
    Evaluates (fpu.builtins rest) "**" n exp (.int r))

theorem integer_pow_mod (hm : m ≠ 0) (h : exp.toInt = e) : integer_pow fpu to_int n [.int exp, .int m] =
    ((do rem (← add (← rem n m) m) m : Option Int64).bind fun base => (pow_mod_each m e 1 base).map .int) := by
  have htoNat : exp.toInt.toNat = e := by omega
  unfold integer_pow
  simp only [hm, if_false, htoNat, Option.bind_eq_bind, Option.bind_assoc, Option.map_eq_bind]
  rfl

theorem integer_pow_plain (h : exp.toInt = e) : integer_pow fpu to_int n [.int exp] = (pow_each n e 1).map .int := by
  have htoNat : exp.toInt.toNat = e := by omega
  have hpositive : ¬ exp < 0 := by
    rw [neg_iff_toInt]
    omega
  unfold integer_pow
  simp only [hpositive, if_false, htoNat, Option.bind_eq_bind, Option.map_eq_bind]
  rfl

theorem productsFitFrom_zero {b k : Int} : ProductsFitFrom b k e 0 ↔ ProductsFit b k e :=
  ⟨fun h i => h i (Nat.zero_le i), fun h i _ => h i⟩

/-- The law of `pow` with a modulus. -/
theorem residue_law_iff (hm : m ≠ 0) (h : exp.toInt = e) :
    (∃ r, integer_pow fpu to_int n [.int exp, .int m] = some (.int r) ∧ r.toInt ≡ n.toInt ^ e [ZMOD m.toInt] ∧
      (0 < m.toInt → 0 ≤ r.toInt ∧ r.toInt < m.toInt)) ↔
    ¬ (n = Int64.minValue ∧ m = -1) ∧ Fits (n.toInt.tmod m.toInt + m.toInt) ∧ ProductsFit n.toInt m.toInt e ∧
      ¬ (e = 0 ∧ m.toInt = 1) := by
  have hmi := toInt_ne_zero hm
  have hone : (1 : Int64).toInt = front n.toInt m.toInt (e % 2 ^ 0) := by
    rw [Nat.pow_zero, Nat.mod_one]
    rfl
  have hdigits : e / 2 ^ 0 = e := by rw [Nat.pow_zero, Nat.div_one]
  rw [integer_pow_mod fpu to_int hm h]
  constructor
  · rintro ⟨r, hrun, -, hrange⟩
    obtain ⟨base, hbase, hrun⟩ := Option.bind_eq_some_iff.mp hrun
    obtain ⟨r', hloop, hr'⟩ := Option.map_eq_some_iff.mp hrun
    obtain rfl : r' = r := by
      cases hr'
      rfl
    obtain ⟨hleast, hsum, hresidue⟩ := first_base_some hm hbase
    rw [← hdigits] at hloop
    obtain ⟨hvalue, hfitting⟩ := pow_mod_each_some rfl hmi hone hresidue hloop
    refine ⟨hleast, hsum, productsFitFrom_zero.mp hfitting, ?_⟩
    rintro ⟨rfl, hmone⟩
    have hlt := (hrange (by omega)).2
    rw [hvalue, hmone, front, if_pos rfl] at hlt
    exact lt_irrefl _ hlt
  · rintro ⟨hleast, hsum, hfitting, hempty⟩
    obtain ⟨base, hbase, hresidue⟩ := first_base_ok hm hleast hsum
    obtain ⟨r, hloop⟩ := pow_mod_each_ok rfl hmi hone hresidue (productsFitFrom_zero.mpr hfitting)
    have hvalue := (pow_mod_each_some rfl hmi hone hresidue hloop).1
    rw [hdigits] at hloop
    refine ⟨r, ?_, by rw [hvalue]; exact front_modEq _ _ _, fun hpos => ?_⟩
    · exact Option.bind_eq_some_iff.mpr ⟨base, hbase, by rw [hloop]; rfl⟩
    · rw [hvalue, front]
      split
      · omega
      · rw [residue_pos _ (by omega)]
        exact ⟨Int.emod_nonneg _ hmi, Int.emod_lt_of_pos _ hpos⟩

/-- Exactly when powers follow the law. -/
theorem power_law_iff (hfpu : fpu.Documented) (hm : m ≠ 0) (h : exp.toInt = e) :
    PowerLaw fpu rest to_int n m exp e ↔
      (¬ (n = Int64.minValue ∧ m = -1) ∧ Fits (n.toInt.tmod m.toInt + m.toInt) ∧ ProductsFit n.toInt m.toInt e ∧
        ¬ (e = 0 ∧ m.toInt = 1)) ∧
      (Fits (n.toInt ^ e) →
        Double.round (n.toInt ^ e) = n.toInt ^ e ∧ ¬ (n.toInt = -1 ∧ e % 2 = 1 ∧ 2 ^ 53 < e)) := by
  refine and_congr (residue_law_iff fpu to_int hm h) (forall_congr' fun hfits => ?_)
  rw [← hfpu.pow_eq_iff h hfits]
  have hevaluates := @evaluates_power fpu rest n exp e h
  constructor
  · rintro ⟨r, hr, -, hrun⟩
    have hsame := hevaluates.unique hrun
    cases hsame
    exact hr
  · intro heq
    have hzero : (1 : Int64).toInt = n.toInt ^ 0 := by rw [Int.pow_zero]; rfl
    obtain ⟨r, hr, hri⟩ := pow_each_ok hzero (i := 0) (e := e) (by rwa [Nat.zero_add])
    rw [Nat.zero_add] at hri
    have hsame : fpu.to_int (fpu.pow (.of_int n) (.of_int exp)) = r := Int64.toInt_inj.mp (heq.trans hri.symm)
    refine ⟨r, hri, ?_, hsame ▸ hevaluates⟩
    rw [integer_pow_plain fpu to_int h, hr]
    rfl

end law

/-- A processor whose powers of integers are exact. -/
def exact_fpu : Fpu :=
  { nan_fpu with
    pow x y := .of_int (Int64.ofInt (x.value.tdiv (2 ^ 1074) ^ (y.value.tdiv (2 ^ 1074)).toNat))
    to_int x := if x.nan = false ∧ Fits (x.value.tdiv (2 ^ 1074)) then Int64.ofInt (x.value.tdiv (2 ^ 1074)) else Int64.minValue }

theorem exact_fpu_documented : exact_fpu.Documented where
  to_int_fits x hnan hfits := by
    change (if x.nan = false ∧ Fits (x.value.tdiv (2 ^ 1074)) then _ else _ : Int64).toInt = _
    rw [if_pos ⟨hnan, hfits⟩, Int64.toInt_ofInt_of_le hfits.1 hfits.2]
  to_int_other x h := by
    refine if_neg ?_
    rintro ⟨hnan, hfits⟩
    rcases h with h | h
    · rw [hnan] at h
      cases h
    · exact h hfits
  pow_exact x y b k _ _ hx hy hfits hround := by
    have hne : (2 : Int) ^ 1074 ≠ 0 := by positivity
    have hpow : exact_fpu.pow x y = .of_int (Int64.ofInt (b ^ k)) := by
      change Double.of_int (Int64.ofInt (x.value.tdiv (2 ^ 1074) ^ (y.value.tdiv (2 ^ 1074)).toNat)) = _
      rw [hx, hy, Int.mul_tdiv_cancel _ hne, Int.mul_tdiv_cancel _ hne, Int.toNat_natCast]
    rw [hpow]
    refine ⟨Double.of_int_nan _, ?_⟩
    rw [Double.of_int_value_eq, Int64.toInt_ofInt_of_le hfits.1 hfits.2, hround]

/-- `3 ** 4` and `3.pow(4, 5)`. -/
theorem power_law_three : PowerLaw exact_fpu no_builtins (fun _ => 0) 3 5 4 4 := by
  refine (power_law_iff exact_fpu no_builtins (fun _ => 0) exact_fpu_documented (by decide) (by decide)).mpr ⟨⟨by decide, by decide, ?_, by decide⟩, ?_⟩
  · intro i hi
    have hsmall : i ≤ 2 := (Nat.pow_le_pow_iff_right (show 1 < 2 by decide)).mp hi
    interval_cases i <;> decide
  · intro _
    decide

/-- `3.pow(0, 1)` is 1. -/
theorem power_modulo_one : ¬ PowerLaw exact_fpu no_builtins (fun _ => 0) 3 1 0 0 := by
  rintro ⟨⟨r, hrun, -, hrange⟩, -⟩
  have hone : integer_pow exact_fpu (fun _ => 0) 3 [.int 0, .int 1] = some (.int 1) := by
    have hbase : (do rem (← add (← rem 3 1) 1) 1 : Option Int64) = some 0 := by decide
    have hloop : pow_mod_each 1 0 1 0 = some 1 := by
      unfold pow_mod_each
      exact if_pos rfl
    rw [integer_pow_mod exact_fpu (fun _ => 0) (e := 0) (by decide) (by decide), hbase, Option.bind_some, hloop]
    rfl
  cases hone.symm.trans hrun
  exact absurd (hrange (by decide)).2 (by decide)

end stoned
