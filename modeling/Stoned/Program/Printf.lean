import Mathlib.Data.List.DropRight
import Mathlib.Data.Nat.Digits.Defs
import Mathlib.Data.Nat.Log

namespace stoned.program

/-! Conversions of C's formatted output. -/

def ascii (text : String) : List UInt8 := text.toList.map fun c => UInt8.ofNat c.toNat

/-- Printable bytes of ASCII. -/
def Plain (s : List UInt8) : Prop := ∀ b ∈ s, 0x20 ≤ b ∧ b < 0x7F

instance (s : List UInt8) : Decidable (Plain s) := List.decidableBAll _ s

@[simp] theorem plain_nil : Plain [] := by simp [Plain]

@[simp] theorem plain_append {s t : List UInt8} : Plain (s ++ t) ↔ Plain s ∧ Plain t :=
  List.forall_mem_append

theorem plain_replicate (n : Nat) {b : UInt8} (hb : 0x20 ≤ b ∧ b < 0x7F) : Plain (List.replicate n b) := by
  intro x hx
  rw [List.eq_of_mem_replicate hx]
  exact hb

namespace printf

def is_digit (b : UInt8) : Bool := 0x30 ≤ b && b ≤ 0x39

def is_flag (b : UInt8) : Bool := b ∈ ascii "-+0 #"

/-- The number that decimal digits write. -/
def number (digits : List UInt8) : Nat := digits.foldl (fun n d => n * 10 + (d.toNat - 0x30)) 0

/-- A conversion without its letter. -/
structure Conversion where
  minus : Bool
  plus : Bool
  blank : Bool
  zero : Bool
  alternate : Bool
  width : Nat
  precision : Option Nat

/-- What stands between the `%` and the letter. -/
def conversion (spec : List UInt8) : Conversion :=
  let flags := spec.takeWhile is_flag
  let behind := spec.dropWhile is_flag
  let point := behind.dropWhile is_digit
  { minus := '-'.toUInt8 ∈ flags
    plus := '+'.toUInt8 ∈ flags
    blank := ' '.toUInt8 ∈ flags
    zero := '0'.toUInt8 ∈ flags
    alternate := '#'.toUInt8 ∈ flags
    width := number (behind.takeWhile is_digit)
    precision := if point.head? = some '.'.toUInt8 then some (number (point.tail.takeWhile is_digit)) else none }

/-- A digit in a base up to 16. -/
def digit (upper : Bool) (d : Nat) : UInt8 :=
  .ofNat (if d < 10 then 0x30 + d else if upper then 0x37 + d else 0x57 + d)

/-- The digits of a number, after zeros up to a least count. -/
def digits (base : Nat) (upper : Bool) (least n : Nat) : List UInt8 :=
  let written := (Nat.digits base n).reverse.map (digit upper)
  List.replicate (least - written.length) 0x30 ++ written

/-- The natural number nearest to a fraction, of two that are equally near the
even one. -/
def rounded (num den : Nat) : Nat :=
  let q := num / den
  let r := num % den
  if den < 2 * r ∨ (2 * r = den ∧ q % 2 = 1) then q + 1 else q

/-- The first digits of a fraction, one and `places` more, as a number, and the
exponent of the first. -/
def leading (places num den : Nat) : Nat × Int :=
  let e : Int := if den ≤ num then Nat.log 10 (num / den) else -Nat.clog 10 ((den + num - 1) / num)
  let n :=
    if e ≤ places then rounded (num * 10 ^ (places - e).toNat) den else rounded num (den * 10 ^ (e - places).toNat)
  if num = 0 then (0, 0) else if n = 10 ^ (places + 1) then (10 ^ places, e + 1) else (n, e)

namespace Conversion

variable (c : Conversion)

/-- Widths and precisions are numbers of type `int`. -/
def InRange : Prop := c.width < 2 ^ 31 ∧ ∀ p ∈ c.precision, p < 2 ^ 31

instance : Decidable c.InRange := inferInstanceAs (Decidable (_ ∧ ∀ p ∈ c.precision, p < 2 ^ 31))

/-- The padding to the width. -/
def pad (s : List UInt8) : List UInt8 :=
  let blanks := List.replicate (c.width - s.length) 0x20
  if c.minus then s ++ blanks else blanks ++ s

/-- The padding of a number, with zeros behind its sign if there is the flag. -/
def pad_number (zeros : Bool) (front written : List UInt8) : List UInt8 :=
  if zeros && c.zero && !c.minus then
    front ++ List.replicate (c.width - (front.length + written.length)) 0x30 ++ written
  else c.pad (front ++ written)

def sign (negative : Bool) : List UInt8 :=
  if negative then ascii "-" else if c.plus then ascii "+" else if c.blank then ascii " " else []

/-- %s -/
def string (text : List UInt8) : List UInt8 :=
  c.pad (match c.precision with | some p => text.take p | none => text)

/-- %c -/
def char (b : UInt8) : List UInt8 := c.pad [b]

/-- The digits of an integer. The flag for zeros is of no effect with a
precision. -/
def integer (front : List UInt8) (base : Nat) (upper : Bool) (n : Nat) : List UInt8 :=
  c.pad_number c.precision.isNone front (digits base upper (c.precision.getD 1) n)

/-- %d -/
def signed (n : Int) : List UInt8 := c.integer (c.sign (n < 0)) 10 false n.natAbs

/-- %u -/
def unsigned (n : Nat) : List UInt8 := c.integer [] 10 false n

/-- %x, %X -/
def hex (upper : Bool) (n : Nat) : List UInt8 :=
  c.integer (if c.alternate && n != 0 then ascii (if upper then "0X" else "0x") else []) 16 upper n

/-- %o -/
def octal (n : Nat) : List UInt8 :=
  let written := digits 8 false (c.precision.getD 1) n
  let front := if c.alternate && written.head? != some 0x30 then [0x30] else []
  c.pad_number c.precision.isNone [] (front ++ written)

/-- The digits behind the point, and the point if one is written. -/
def point (written : List UInt8) : List UInt8 :=
  if written = [] ∧ ¬ c.alternate then [] else ascii "." ++ written

def fraction (trimmed : Bool) (written : List UInt8) : List UInt8 :=
  c.point (if trimmed then written.rdropWhile (· = 0x30) else written)

def fixed (trimmed : Bool) (places num den : Nat) : List UInt8 :=
  let n := rounded (num * 10 ^ places) den
  digits 10 false 1 (n / 10 ^ places) ++ c.fraction trimmed (digits 10 false places (n % 10 ^ places))

def scientific (trimmed upper : Bool) (places num den : Nat) : List UInt8 :=
  let (n, e) := leading places num den
  digits 10 false 1 (n / 10 ^ places) ++ c.fraction trimmed (digits 10 false places (n % 10 ^ places)) ++
    (ascii (if upper then "E" else "e") ++ ascii (if e < 0 then "-" else "+") ++ digits 10 false 2 e.natAbs)

/-- %g: the shorter of the two ways to write a number. -/
def general (upper : Bool) (num den : Nat) : List UInt8 :=
  let p := max 1 (c.precision.getD 6)
  let (_, e) := leading (p - 1) num den
  if -4 ≤ e ∧ e < p then c.fixed (!c.alternate) (p - 1 - e).toNat num den
  else c.scientific (!c.alternate) upper (p - 1) num den

end Conversion

section plain
variable (c : Conversion)

theorem plain_ofNat {n : Nat} (h : 0x20 ≤ n ∧ n < 0x7F) : 0x20 ≤ UInt8.ofNat n ∧ UInt8.ofNat n < 0x7F := by
  have hn : (UInt8.ofNat n).toNat = n := UInt8.toNat_ofNat_of_lt (show n < 256 by omega)
  rw [UInt8.le_iff_toNat_le, UInt8.lt_iff_toNat_lt, hn]
  exact h

theorem plain_digits {base : Nat} (hbase : 2 ≤ base ∧ base ≤ 16) (upper : Bool) (least n : Nat) :
    Plain (digits base upper least n) := by
  refine plain_append.mpr ⟨plain_replicate _ (by decide), ?_⟩
  intro b hb
  obtain ⟨d, hd, rfl⟩ := List.mem_map.mp hb
  have hlt : d < base := Nat.digits_lt_base hbase.1 (List.mem_reverse.mp hd)
  rw [digit]
  refine plain_ofNat ?_
  split
  · omega
  · split <;> omega

theorem plain_pad {s : List UInt8} (hs : Plain s) : Plain (c.pad s) := by
  have hblanks : Plain (List.replicate (c.width - s.length) 0x20) := plain_replicate _ (by decide)
  rw [Conversion.pad]
  split
  · exact plain_append.mpr ⟨hs, hblanks⟩
  · exact plain_append.mpr ⟨hblanks, hs⟩

theorem plain_pad_number (zeros : Bool) {front written : List UInt8} (hfront : Plain front) (hwritten : Plain written) :
    Plain (c.pad_number zeros front written) := by
  rw [Conversion.pad_number]
  split
  · exact plain_append.mpr ⟨plain_append.mpr ⟨hfront, plain_replicate _ (by decide)⟩, hwritten⟩
  · exact plain_pad c (plain_append.mpr ⟨hfront, hwritten⟩)

theorem plain_sign (negative : Bool) : Plain (c.sign negative) := by
  rw [Conversion.sign]
  split
  · decide
  · split
    · decide
    · split <;> decide

theorem plain_integer {front : List UInt8} (hfront : Plain front) {base : Nat} (hbase : 2 ≤ base ∧ base ≤ 16)
    (upper : Bool) (n : Nat) : Plain (c.integer front base upper n) :=
  plain_pad_number c _ hfront (plain_digits hbase upper _ n)

theorem plain_signed (n : Int) : Plain (c.signed n) := plain_integer c (plain_sign c _) (by decide) _ _

theorem plain_unsigned (n : Nat) : Plain (c.unsigned n) := plain_integer c plain_nil (by decide) _ _

theorem plain_hex (upper : Bool) (n : Nat) : Plain (c.hex upper n) := by
  refine plain_integer c ?_ (by decide) _ _
  split
  · cases upper <;> decide
  · exact plain_nil

theorem plain_octal (n : Nat) : Plain (c.octal n) := by
  refine plain_pad_number c _ plain_nil (plain_append.mpr ⟨?_, plain_digits (by decide) _ _ _⟩)
  split <;> decide

theorem plain_point {written : List UInt8} (h : Plain written) : Plain (c.point written) := by
  rw [Conversion.point]
  split
  · exact plain_nil
  · exact plain_append.mpr ⟨by decide, h⟩

theorem plain_fraction (trimmed : Bool) {written : List UInt8} (h : Plain written) :
    Plain (c.fraction trimmed written) := by
  refine plain_point c ?_
  split
  · intro b hb
    exact h b ((List.rdropWhile_prefix _ written).subset hb)
  · exact h

theorem plain_fixed (trimmed : Bool) (places num den : Nat) : Plain (c.fixed trimmed places num den) :=
  plain_append.mpr ⟨plain_digits (by decide) _ _ _, plain_fraction c _ (plain_digits (by decide) _ _ _)⟩

theorem plain_scientific (trimmed upper : Bool) (places num den : Nat) :
    Plain (c.scientific trimmed upper places num den) := by
  have hletter : Plain (ascii (if upper then "E" else "e")) := by cases upper <;> decide
  have hsign : ∀ e : Int, Plain (ascii (if e < 0 then "-" else "+")) := fun e => by split <;> decide
  refine plain_append.mpr ⟨?_, plain_append.mpr ⟨plain_append.mpr ⟨hletter, hsign _⟩, plain_digits (by decide) _ _ _⟩⟩
  exact plain_append.mpr ⟨plain_digits (by decide) _ _ _, plain_fraction c _ (plain_digits (by decide) _ _ _)⟩

theorem plain_general (upper : Bool) (num den : Nat) : Plain (c.general upper num den) := by
  simp only [Conversion.general]
  split
  · exact plain_fixed c _ _ _ _
  · exact plain_scientific c _ _ _ _ _

end plain

end printf

end stoned.program
