import Mathlib.Tactic

namespace stoned.program

/-! Numbers as bytes, the least significant first. -/

/-- The lowest `w` bytes of a number. -/
def le_bytes : Nat → Nat → List UInt8
  | 0, _ => []
  | w + 1, n => UInt8.ofNat n :: le_bytes w (n / 256)

def of_le : List UInt8 → Nat
  | [] => 0
  | b :: bs => b.toNat + 256 * of_le bs

@[simp] theorem length_le_bytes (w n : Nat) : (le_bytes w n).length = w := by
  induction w generalizing n with
  | zero => rfl
  | succ w ih => rw [le_bytes, List.length_cons, ih]

/-- Reading the bytes back gives the number as far as there are bytes for it. -/
theorem of_le_le_bytes (w n : Nat) : of_le (le_bytes w n) = n % 256 ^ w := by
  induction w generalizing n with
  | zero => simp [le_bytes, of_le, Nat.mod_one]
  | succ w ih =>
    have hbyte : (UInt8.ofNat n).toNat = n % 256 := UInt8.toNat_ofNat'
    rw [le_bytes, of_le, ih, hbyte, pow_succ', Nat.mod_mul]

/-- The bits of two numbers do not meet. -/
theorem two_pow_mul_or {i b : Nat} (a : Nat) (hb : b < 2 ^ i) : 2 ^ i * a ||| b = 2 ^ i * a + b :=
  (Nat.two_pow_add_eq_or_of_lt hb a).symm

/-- A number put together from two bytes. -/
theorem or_two_bytes (b0 b1 : UInt8) : b1.toNat <<< 8 ||| b0.toNat = of_le [b0, b1] := by
  have h0 : b0.toNat < 2 ^ 8 := b0.toNat_lt
  rw [Nat.shiftLeft_eq, Nat.mul_comm, two_pow_mul_or _ h0]
  simp [of_le]
  omega

/-- A number put together from four bytes. -/
theorem or_four_bytes (b0 b1 b2 b3 : UInt8) :
    b3.toNat <<< 24 ||| b2.toNat <<< 16 ||| b1.toNat <<< 8 ||| b0.toNat = of_le [b0, b1, b2, b3] := by
  have h0 : b0.toNat < 2 ^ 8 := b0.toNat_lt
  have h1 : b1.toNat < 2 ^ 8 := b1.toNat_lt
  have h2 : b2.toNat < 2 ^ 8 := b2.toNat_lt
  have hupper : b3.toNat <<< 24 ||| b2.toNat <<< 16 = 2 ^ 16 * (2 ^ 8 * b3.toNat + b2.toNat) := by
    have hshift : b3.toNat <<< 24 = 2 ^ 24 * b3.toNat := by rw [Nat.shiftLeft_eq, Nat.mul_comm]
    rw [hshift, two_pow_mul_or _ (by rw [Nat.shiftLeft_eq]; omega), Nat.shiftLeft_eq]
    omega
  have hmiddle : 2 ^ 16 * (2 ^ 8 * b3.toNat + b2.toNat) ||| b1.toNat <<< 8 =
      2 ^ 8 * (2 ^ 8 * (2 ^ 8 * b3.toNat + b2.toNat) + b1.toNat) := by
    rw [two_pow_mul_or _ (by rw [Nat.shiftLeft_eq]; omega), Nat.shiftLeft_eq]
    omega
  rw [hupper, hmiddle, two_pow_mul_or _ h0]
  simp [of_le]
  omega

end stoned.program
