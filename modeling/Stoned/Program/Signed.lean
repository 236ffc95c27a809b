import Mathlib.Tactic.Common
import Mathlib.Algebra.Order.Ring.Int

namespace stoned.program.signed

/-! Signed arithmetic of 64 bits, as C defines it: an operation whose result no
integer of that size is comes to nothing, and so does a division that the
machine would not do. -/

/-- The machine integer of a number, if there is one. -/
def fit (i : Int) : Option Int64 :=
  if Int64.minValue.toInt ≤ i ∧ i ≤ Int64.maxValue.toInt then some (.ofInt i) else none

def add (a b : Int64) : Option Int64 := fit (a.toInt + b.toInt)
def sub (a b : Int64) : Option Int64 := fit (a.toInt - b.toInt)
def mul (a b : Int64) : Option Int64 := fit (a.toInt * b.toInt)

def neg (a : Int64) : Option Int64 := fit (-a.toInt)

/-- The quotient rounded towards 0. -/
def div (a b : Int64) : Option Int64 := if b = 0 then none else fit (a.toInt.tdiv b.toInt)

/-- The remainder, which one instruction finds together with the quotient. -/
def rem (a b : Int64) : Option Int64 := (div a b).bind fun _ => fit (a.toInt.tmod b.toInt)

theorem toInt_bounds (a : Int64) : -2 ^ 63 ≤ a.toInt ∧ a.toInt < 2 ^ 63 := ⟨a.le_toInt, a.toInt_lt⟩

theorem fit_eq_some {i : Int} {n : Int64} : fit i = some n ↔ n.toInt = i := by
  have hmin : Int64.minValue.toInt = -2 ^ 63 := by decide
  have hmax : Int64.maxValue.toInt = 2 ^ 63 - 1 := by decide
  have hn := toInt_bounds n
  unfold fit
  rw [hmin, hmax]
  constructor
  · split
    · rintro ⟨⟩
      exact Int64.toInt_ofInt_of_le (by omega) (by omega)
    · rintro ⟨⟩
  · rintro rfl
    rw [if_pos (by omega), Int64.ofInt_toInt]

theorem exists_fit {i : Int} (h : -2 ^ 63 ≤ i) (h' : i < 2 ^ 63) : ∃ n : Int64, n.toInt = i :=
  ⟨.ofInt i, Int64.toInt_ofInt_of_le h h'⟩

/-- A machine integer holds the number. -/
def Fits (i : Int) : Prop := -2 ^ 63 ≤ i ∧ i < 2 ^ 63

instance (i : Int) : Decidable (Fits i) := inferInstanceAs (Decidable (_ ∧ _))

theorem exists_fit_eq {i : Int} (h : Fits i) : ∃ n, fit i = some n ∧ n.toInt = i := by
  obtain ⟨n, hn⟩ := exists_fit h.1 h.2
  exact ⟨n, fit_eq_some.mpr hn, hn⟩

theorem fits_of_fit {i : Int} {n : Int64} (h : fit i = some n) : Fits i := by
  rw [← fit_eq_some.mp h]
  exact toInt_bounds n

/-- A computation that comes to an integer. -/
def Yields (x : Option Int64) (i : Int) : Prop := ∃ n, x = some n ∧ n.toInt = i

theorem Yields.bind {α : Type} {x : Option Int64} {i : Int} {f : Int64 → Option α} {P : α → Prop} (hx : Yields x i)
    (hf : ∀ n : Int64, n.toInt = i → ∃ a, f n = some a ∧ P a) : ∃ a, x.bind f = some a ∧ P a := by
  obtain ⟨n, hn, hni⟩ := hx
  obtain ⟨a, ha, hp⟩ := hf n hni
  exact ⟨a, by rw [hn, Option.bind_some, ha], hp⟩

section yields
variable {a b : Int64} {i j : Int}

theorem add_yields (ha : a.toInt = i) (hb : b.toInt = j) (h : Fits (i + j)) : Yields (add a b) (i + j) := by
  rw [← ha, ← hb] at h ⊢
  exact exists_fit_eq h

theorem sub_yields (ha : a.toInt = i) (hb : b.toInt = j) (h : Fits (i - j)) : Yields (sub a b) (i - j) := by
  rw [← ha, ← hb] at h ⊢
  exact exists_fit_eq h

theorem mul_yields (ha : a.toInt = i) (hb : b.toInt = j) (h : Fits (i * j)) : Yields (mul a b) (i * j) := by
  rw [← ha, ← hb] at h ⊢
  exact exists_fit_eq h

end yields

theorem toInt_ne_zero {b : Int64} (h : b ≠ 0) : b.toInt ≠ 0 := by
  rwa [ne_eq, ← Int64.toInt_zero, Int64.toInt_inj]

theorem neg_iff_toInt {a : Int64} : a < 0 ↔ a.toInt < 0 := by rw [Int64.lt_iff_toInt_lt, Int64.toInt_zero]

/-- Only the least integer divided by -1 has no quotient. -/
theorem exists_div {a b : Int64} (hb : b ≠ 0) (h : ¬ (a = Int64.minValue ∧ b = -1)) :
    ∃ q, div a b = some q ∧ q.toInt = a.toInt.tdiv b.toInt := by
  have ha := toInt_bounds a
  have hb' := toInt_ne_zero hb
  have habs := Int.natAbs_tdiv_le_natAbs a.toInt b.toInt
  have hsmall : a.toInt.tdiv b.toInt < 2 ^ 63 := by
    by_contra hnot
    -- only the least integer has such a quotient, and only when it is negated
    have hleast : a.toInt = -2 ^ 63 := by omega
    have hquotient : a.toInt.tdiv b.toInt = 2 ^ 63 := by omega
    have hmod := Int.tmod_add_mul_tdiv a.toInt b.toInt
    have hrem := Int.natAbs_tmod a.toInt b.toInt
    have hone : b.toInt = -1 := by
      have hle : (a.toInt.tmod b.toInt).natAbs < b.toInt.natAbs := by
        rw [hrem]
        exact Nat.mod_lt _ (by omega)
      rw [hquotient] at hmod
      omega
    refine h ⟨Int64.toInt_inj.mp ?_, Int64.toInt_inj.mp ?_⟩
    · rw [hleast]
      decide
    · rw [hone]
      decide
  obtain ⟨q, hq⟩ := exists_fit (show -2 ^ 63 ≤ a.toInt.tdiv b.toInt by omega) hsmall
  refine ⟨q, ?_, hq⟩
  rw [div, if_neg hb]
  exact fit_eq_some.mpr hq

theorem toInt_of_div {a b q : Int64} (h : div a b = some q) : b ≠ 0 ∧ q.toInt = a.toInt.tdiv b.toInt := by
  unfold div at h
  split at h
  · cases h
  · exact ⟨‹_›, fit_eq_some.mp h⟩

theorem toInt_of_rem {a b r : Int64} (h : rem a b = some r) : r.toInt = a.toInt.tmod b.toInt := by
  obtain ⟨-, -, hfit⟩ := Option.bind_eq_some_iff.mp h
  exact fit_eq_some.mp hfit

/-- The remainder is defined where the quotient is. -/
theorem exists_rem {a b : Int64} (hb : b ≠ 0) (h : ¬ (a = Int64.minValue ∧ b = -1)) :
    ∃ r, rem a b = some r ∧ r.toInt = a.toInt.tmod b.toInt := by
  have hbound := toInt_bounds b
  have hb' := toInt_ne_zero hb
  obtain ⟨q, hq, -⟩ := exists_div hb h
  have hlt : (a.toInt.tmod b.toInt).natAbs < b.toInt.natAbs := by
    rw [Int.natAbs_tmod]
    exact Nat.mod_lt _ (by omega)
  obtain ⟨r, hr⟩ := exists_fit (show -2 ^ 63 ≤ a.toInt.tmod b.toInt by omega) (by omega)
  refine ⟨r, ?_, hr⟩
  rw [rem, hq]
  exact fit_eq_some.mpr hr

theorem sub_eq {a b n : Int64} (h : n.toInt = a.toInt - b.toInt) : sub a b = some n := fit_eq_some.mpr h

theorem add_eq {a b n : Int64} (h : n.toInt = a.toInt + b.toInt) : add a b = some n := fit_eq_some.mpr h

theorem mul_eq {a b n : Int64} (h : n.toInt = a.toInt * b.toInt) : mul a b = some n := fit_eq_some.mpr h

theorem bmod_of_toInt {n : Int64} {i : Int} (h : n.toInt = i) : i.bmod (2 ^ 64) = n.toInt := by
  have := toInt_bounds n
  rw [h]
  exact Int.bmod_eq_of_le (by omega) (by omega)

/-- Operations that wrap come to what is defined. -/
theorem add_wraps {a b n : Int64} (h : add a b = some n) : a + b = n :=
  Int64.toInt_inj.mp ((Int64.toInt_add a b).trans (bmod_of_toInt (fit_eq_some.mp h)))

theorem sub_wraps {a b n : Int64} (h : sub a b = some n) : a - b = n :=
  Int64.toInt_inj.mp ((Int64.toInt_sub a b).trans (bmod_of_toInt (fit_eq_some.mp h)))

theorem div_wraps {a b n : Int64} (h : div a b = some n) : a / b = n := by
  have hfit : fit (a.toInt.tdiv b.toInt) = some n := by
    unfold div at h
    split at h
    · cases h
    · exact h
  exact Int64.toInt_inj.mp ((Int64.toInt_div a b).trans (bmod_of_toInt (fit_eq_some.mp hfit)))

theorem rem_wraps {a b n : Int64} (h : rem a b = some n) : a % b = n := by
  obtain ⟨q, -, hfit⟩ := Option.bind_eq_some_iff.mp h
  exact Int64.toInt_inj.mp ((Int64.toInt_mod a b).trans (fit_eq_some.mp hfit).symm)

/-- The exclusive or is negative where the signs differ. -/
theorem xor_neg_iff {a b : Int64} : a ^^^ b < 0 ↔ ¬ (a < 0 ↔ b < 0) := by
  have hmsb : ∀ x : Int64, x < 0 ↔ x.toBitVec.msb = true := by
    intro x
    rw [Int64.lt_iff_toInt_lt, Int64.toInt_zero, BitVec.msb_eq_toInt, decide_eq_true_iff]
    rfl
  rw [hmsb, hmsb, hmsb, Int64.toBitVec_xor, BitVec.msb_xor]
  cases a.toBitVec.msb <;> cases b.toBitVec.msb <;> simp

theorem xor_pos_iff {a b : Int64} (h : a ≠ b) : 0 < a ^^^ b ↔ (a < 0 ↔ b < 0) := by
  have hne : a ^^^ b ≠ 0 := by
    rwa [ne_eq, Int64.xor_eq_zero_iff]
  have hne' := toInt_ne_zero hne
  have hnot : 0 < a ^^^ b ↔ ¬ a ^^^ b < 0 := by
    rw [neg_iff_toInt, Int64.lt_iff_toInt_lt, Int64.toInt_zero]
    omega
  rw [hnot, xor_neg_iff, not_not]

end stoned.program.signed
