import Mathlib.Data.Nat.Basic
import Mathlib.Algebra.Group.Nat.Defs

namespace stoned

/-! Numbers of double precision: 64 bits, of which the upper twelve are the sign
and the exponent. -/

structure Double where
  bits : UInt64
  deriving DecidableEq, Repr

namespace Double

def negative (x : Double) : Bool := 2 ^ 63 ≤ x.bits.toNat
def exponent (x : Double) : Nat := x.bits.toNat / 2 ^ 52 % 2 ^ 11
def fraction (x : Double) : Nat := x.bits.toNat % 2 ^ 52

def nan (x : Double) : Bool := x.exponent = 2047 ∧ x.fraction ≠ 0

/-- The absolute value in units of the least positive number. That of an
infinity is what the next exponent would stand for. -/
def magnitude (x : Double) : Nat :=
  if x.exponent = 0 then x.fraction else (2 ^ 52 + x.fraction) * 2 ^ (x.exponent - 1)

/-- The value in units of the least positive number. -/
def value (x : Double) : Int := if x.negative then -(x.magnitude : Int) else x.magnitude

/-- Comparison by value: the two zeros are equal, and a NaN equals nothing. -/
instance : BEq Double := ⟨fun x y => !x.nan && !y.nan && x.value == y.value⟩

def less (x y : Double) : Bool := !x.nan && !y.nan && x.value < y.value
def at_most (x y : Double) : Bool := !x.nan && !y.nan && x.value ≤ y.value

instance : Neg Double := ⟨fun x => ⟨x.bits ^^^ 0x8000000000000000⟩⟩

/-- The bits of the double nearest to a natural number, of two that are equally
near the one whose last bit is clear. -/
def nearest (n : Nat) : Nat :=
  let places := n.log2
  if n = 0 then 0
  -- the highest bit of the number is the one the exponent already stands for
  else if places ≤ 52 then (places + 1022) * 2 ^ 52 + n * 2 ^ (52 - places)
  else
    let dropped := places - 52
    let kept := n / 2 ^ dropped
    let rest := n % 2 ^ dropped
    let up := 2 ^ (dropped - 1) < rest ∨ (rest = 2 ^ (dropped - 1) ∧ kept % 2 = 1)
    (places + 1022) * 2 ^ 52 + kept + if up then 1 else 0

/-- The conversion of an integer. -/
def of_int (i : Int64) : Double :=
  ⟨.ofNat ((if i < 0 then 2 ^ 63 else 0) + nearest i.toInt.natAbs)⟩

example : of_int 1 = ⟨0x3ff0000000000000⟩ := by decide
example : of_int (-3) = ⟨0xc008000000000000⟩ := by decide
example : of_int 9007199254740993 = of_int 9007199254740992 := by decide
example : of_int 9223372036854775807 = ⟨0x43e0000000000000⟩ := by decide

theorem beq_iff {x y : Double} : (x == y) = true ↔ x.nan = false ∧ y.nan = false ∧ x.value = y.value := by
  simp [BEq.beq, and_assoc]

theorem beq_symm {x y : Double} (h : (x == y) = true) : (y == x) = true := by
  obtain ⟨hx, hy, hvalue⟩ := beq_iff.mp h
  exact beq_iff.mpr ⟨hy, hx, hvalue.symm⟩

theorem beq_trans {x y z : Double} (hxy : (x == y) = true) (hyz : (y == z) = true) : (x == z) = true := by
  obtain ⟨hx, _, hxy⟩ := beq_iff.mp hxy
  obtain ⟨_, hz, hyz⟩ := beq_iff.mp hyz
  exact beq_iff.mpr ⟨hx, hz, hxy.trans hyz⟩

theorem nearest_lt {n : Nat} (h : n < 2 ^ 64) : nearest n < 2047 * 2 ^ 52 := by
  rw [nearest]
  split
  · decide
  · have hlog : n.log2 < 64 := (Nat.log2_lt ‹_›).mpr h
    have hn : n < 2 ^ (n.log2 + 1) := Nat.lt_log2_self
    split
    · have : n * 2 ^ (52 - n.log2) < 2 ^ 53 := by
        calc n * 2 ^ (52 - n.log2) < 2 ^ (n.log2 + 1) * 2 ^ (52 - n.log2) :=
              Nat.mul_lt_mul_of_pos_right hn (Nat.two_pow_pos _)
          _ = 2 ^ 53 := by rw [← Nat.pow_add]; congr 1; omega
      omega
    · have : n / 2 ^ (n.log2 - 52) < 2 ^ 53 := by
        rw [Nat.div_lt_iff_lt_mul (Nat.two_pow_pos _), ← Nat.pow_add]
        exact lt_of_lt_of_eq hn (by congr 1; omega)
      dsimp only
      split <;> omega

/-- The double of an integer is a number. -/
theorem of_int_nan (i : Int64) : (of_int i).nan = false := by
  have hnear : nearest i.toInt.natAbs < 2047 * 2 ^ 52 := by
    have := i.toInt_lt
    have := i.le_toInt
    exact nearest_lt (by omega)
  have hexp : (of_int i).exponent ≠ 2047 := by
    rw [exponent, of_int, UInt64.toNat_ofNat']
    split <;> omega
  simp [nan, hexp]
end Double

end stoned
