import Mathlib.Data.List.Basic
import Mathlib.Tactic.Common
import Mathlib.Tactic.Ring

namespace stoned.program.strtoll

/-! C's strtoll, as of C23: blanks and a sign, a prefix that the base lets pass,
and as many digits as there are. -/

/-- The value of a digit or of a letter. -/
def digit_value (c : Char) : Option Nat :=
  if '0' ≤ c ∧ c ≤ '9' then some (c.toNat - '0'.toNat)
  else if 'a' ≤ c ∧ c ≤ 'z' then some (c.toNat - 'a'.toNat + 10)
  else if 'A' ≤ c ∧ c ≤ 'Z' then some (c.toNat - 'A'.toNat + 10)
  else none

def is_digit (base : Nat) (c : Char) : Bool := (digit_value c).any (· < base)

/-- The number the digits stand for, the highest first. -/
def number (base : Nat) (digits : List Char) : Nat :=
  digits.foldl (fun value c => value * base + (digit_value c).getD 0) 0

def is_space (c : Char) : Bool := c = ' ' || ('\x09' ≤ c && c ≤ '\x0d')

/-- The sign, and what follows. -/
def sign : List Char → Bool × List Char
  | '-' :: rest => (true, rest)
  | '+' :: rest => (false, rest)
  | s => (false, s)

/-- The base, which is found from the prefix when it is given as 0, and what
follows the prefix. A prefix counts only in front of a digit. -/
def radix (base : Nat) (s : List Char) : Nat × List Char :=
  match s with
  | '0' :: mark :: d :: rest =>
    if (base = 0 ∨ base = 16) ∧ (mark = 'x' ∨ mark = 'X') ∧ is_digit 16 d then (16, d :: rest)
    else if (base = 0 ∨ base = 2) ∧ (mark = 'b' ∨ mark = 'B') ∧ is_digit 2 d then (2, d :: rest)
    else (if base = 0 then 8 else base, s)
  | '0' :: _ => (if base = 0 then 8 else base, s)
  | _ => (if base = 0 then 10 else base, s)

/-- The nearest number of 64 bits. -/
def saturate (i : Int) : Int64 :=
  if i < -2 ^ 63 then Int64.minValue else if 2 ^ 63 ≤ i then Int64.maxValue else .ofInt i

def convert (base : Nat) (s : List Char) : Int64 :=
  let (minus, s) := sign (s.dropWhile is_space)
  let (base, s) := radix base s
  let n := number base (s.takeWhile (is_digit base))
  saturate (if minus then -(n : Int) else n)

theorem is_digit_iff {base : Nat} {c : Char} :
    is_digit base c = true ↔
      48 ≤ c.toNat ∧ c.toNat ≤ 57 ∧ c.toNat < base + 48 ∨
      97 ≤ c.toNat ∧ c.toNat ≤ 122 ∧ c.toNat + 10 < base + 97 ∨
      65 ≤ c.toNat ∧ c.toNat ≤ 90 ∧ c.toNat + 10 < base + 65 := by
  have hle : ∀ a : Char, a ≤ c ↔ a.toNat ≤ c.toNat := fun _ => Iff.rfl
  have hge : ∀ a : Char, c ≤ a ↔ c.toNat ≤ a.toNat := fun _ => Iff.rfl
  unfold is_digit digit_value
  simp only [hle, hge, Char.reduceToNat]
  split_ifs <;> simp only [Option.any_some, Option.any_none, decide_eq_true_iff, Bool.false_eq_true, false_iff] <;> omega

theorem number_append (base : Nat) (digits digits' : List Char) :
    number base (digits ++ digits') = number base digits * base ^ digits'.length + number base digits' := by
  have hfrom : ∀ start, digits'.foldl (fun value c => value * base + (digit_value c).getD 0) start =
      start * base ^ digits'.length + number base digits' := by
    unfold number
    induction digits' with
    | nil => intro start; simp
    | cons c rest ih =>
      intro start
      rw [List.foldl_cons, List.foldl_cons, ih, ih (0 * base + _), List.length_cons, Nat.pow_succ]
      ring
  rw [number, List.foldl_append, hfrom]
  rfl

theorem number_le_append (base : Nat) (digits digits' : List Char) (hbase : 0 < base) :
    number base digits ≤ number base (digits ++ digits') := by
  rw [number_append]
  calc number base digits ≤ number base digits * base ^ digits'.length :=
        Nat.le_mul_of_pos_right _ (Nat.pow_pos hbase)
    _ ≤ _ := Nat.le_add_right ..

/-- Digits left out at the end change every number but 0. -/
theorem number_eq_append_iff {base : Nat} (digits : List Char) {digits' : List Char} (hbase : 2 ≤ base)
    (hne : digits' ≠ []) : number base digits = number base (digits ++ digits') ↔ number base (digits ++ digits') = 0 := by
  have hpow : 2 ≤ base ^ digits'.length := by
    calc 2 ≤ base := hbase
      _ = base ^ 1 := (pow_one base).symm
      _ ≤ base ^ digits'.length := Nat.pow_le_pow_right (by omega) (List.length_pos_iff.mpr hne)
  have hle := Nat.mul_le_mul_left (number base digits) hpow
  rw [number_append]
  constructor
  · intro h
    omega
  · intro h
    omega

/-- Digits in front of what is no digit. -/
theorem takeWhile_digits {base : Nat} {digits rest : List Char} (hdigits : ∀ c ∈ digits, is_digit base c = true)
    (hrest : ∀ c ∈ rest.head?, is_digit base c = false) :
    (digits ++ rest).takeWhile (is_digit base) = digits := by
  rw [List.takeWhile_append_of_pos hdigits]
  cases rest with
  | nil => simp
  | cons c rest => simp [hrest c rfl]

theorem saturate_nat {n : Nat} (h : n < 2 ^ 63) : saturate n = .ofInt n := by
  unfold saturate
  rw [if_neg (by omega), if_neg (by omega)]

/-- Behind a digit there are no blanks and no sign. -/
theorem sign_digit {c : Char} {s : List Char} (h : '0' ≤ c ∧ c ≤ '9') :
    sign ((c :: s).dropWhile is_space) = (false, c :: s) := by
  have hspace : is_space c = false := by
    have h0 : c ≠ ' ' := by rintro rfl; exact absurd h.1 (by decide)
    have h1 : ¬ c ≤ '\x0d' := fun hle => absurd (Char.le_trans h.1 hle) (by decide)
    simp [is_space, h0, h1]
  rw [List.dropWhile_cons_of_neg (by simp [hspace])]
  unfold sign
  split
  · rename_i heq
    cases heq
    exact absurd h.1 (by decide)
  · rename_i heq
    cases heq
    exact absurd h.1 (by decide)
  · rfl

/-- Digits in a base that has no prefix. -/
theorem convert_plain {base : Nat} (hbase : base = 8 ∨ base = 10) {c : Char} {digits rest : List Char}
    (hc : '0' ≤ c ∧ c ≤ '9') (hdigits : ∀ d ∈ c :: digits, is_digit base d = true)
    (hrest : ∀ d ∈ rest.head?, is_digit base d = false) (h : number base (c :: digits) < 2 ^ 63) :
    convert base (c :: digits ++ rest) = .ofInt (number base (c :: digits)) := by
  have hradix : radix base (c :: digits ++ rest) = (base, c :: digits ++ rest) := by
    unfold radix
    rcases hbase with rfl | rfl <;> split <;> simp
  unfold convert
  rw [List.cons_append, sign_digit hc]
  simp only
  rw [← List.cons_append, hradix]
  simp only
  rw [takeWhile_digits hdigits hrest]
  exact saturate_nat h

/-- Digits behind the prefix of their base. -/
theorem convert_prefixed {base : Nat} {mark : Char}
    (hmark : base = 16 ∧ (mark = 'x' ∨ mark = 'X') ∨ base = 2 ∧ (mark = 'b' ∨ mark = 'B')) {c : Char}
    {digits rest : List Char} (hdigits : ∀ d ∈ c :: digits, is_digit base d = true)
    (hrest : ∀ d ∈ rest.head?, is_digit base d = false) (h : number base (c :: digits) < 2 ^ 63) :
    convert 0 ('0' :: mark :: (c :: digits ++ rest)) = .ofInt (number base (c :: digits)) := by
  have hc := hdigits c List.mem_cons_self
  have hradix : radix 0 ('0' :: mark :: (c :: digits ++ rest)) = (base, c :: digits ++ rest) := by
    rcases hmark with ⟨rfl, rfl | rfl⟩ | ⟨rfl, rfl | rfl⟩ <;> simp [radix, hc]
  unfold convert
  rw [sign_digit (by decide)]
  simp only
  rw [hradix]
  simp only
  rw [takeWhile_digits hdigits hrest]
  exact saturate_nat h

end stoned.program.strtoll
