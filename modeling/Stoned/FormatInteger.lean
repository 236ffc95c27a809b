import Stoned.FormatLaw
import Stoned.Program.Numeral

namespace stoned.format

open program printf

/-! Integers in the bases 2, 8 and 16 (eval_support.c, eval_format_string). -/

inductive IntegerType where
  | b | o | x
  deriving DecidableEq

namespace IntegerType

def letter : IntegerType → UInt8
  | b => 'b'.toUInt8
  | o => 'o'.toUInt8
  | x => 'x'.toUInt8

def base : IntegerType → Nat
  | b => 2
  | o => 8
  | x => 16

/-- What `#` puts in front of a number other than 0. -/
def mark : IntegerType → List UInt8
  | b => ascii "0b"
  | o => ascii "0"
  | x => ascii "0x"

theorem two_le_base (type : IntegerType) : 2 ≤ type.base := by cases type <;> decide

end IntegerType

def minus_flag : UInt8 := '-'.toUInt8
def zero_flag : UInt8 := '0'.toUInt8
def mark_flag : UInt8 := '#'.toUInt8

/-- A directive for an integer: flags in any order, and a width, which begins with
no 0. -/
structure IntegerDirective where
  type : IntegerType
  flags : List UInt8
  width : List UInt8
  flags_only : ∀ f ∈ flags, is_flag f = true
  width_digits : ∀ d ∈ width, is_digit d = true
  width_begins : width.head? ≠ some zero_flag

namespace IntegerDirective
variable (d : IntegerDirective) (n : Nat)

def text : List UInt8 := '%'.toUInt8 :: (d.flags ++ (d.width ++ [d.type.letter]))

def size : Nat := number d.width

/-- The prefix. -/
def front : List UInt8 := if mark_flag ∈ d.flags ∧ n ≠ 0 then d.type.mark else []

/-- The law: a numeral of the number behind its prefix, padded to the width with blanks
behind it, or else zeros behind the prefix, or else blanks in front. -/
def Rendered (out : List UInt8) : Prop :=
  ∃ written, Numeral d.type.base n written ∧
    out = padded (minus_flag ∈ d.flags) (zero_flag ∈ d.flags) d.size (d.front n) written ∧
    out.length = max d.size ((d.front n).length + written.length)

/-- The digits, as many as the number has. -/
def written : List UInt8 := digits d.type.base false 1 n

/-- The flags that %b reads before the first zero, and what follows this. -/
def is_sign (b : UInt8) : Bool := b ∈ ascii "-+# "

/-- A flag other than 0 stands behind the first zero. -/
def SignBehindZero : Prop := ∃ f ∈ d.flags.dropWhile is_sign, f ≠ zero_flag

instance : Decidable d.SignBehindZero :=
  decidable_of_iff ((d.flags.dropWhile is_sign).any (· ≠ zero_flag) = true) (by simp [SignBehindZero])

/-- The flags and the width have room in the array, where at most flags that make no
difference are cut; the text has room in the buffer; and %b finds its flags and its width,
or needs no padding. -/
structure Sound : Prop where
  room : (d.flags.take 62).length + d.width.length ≤ 62
  marked : mark_flag ∈ d.flags → n ≠ 0 → mark_flag ∈ d.flags.take 62
  short : d.size < 4096
  found : d.type = .b → d.SignBehindZero → d.size ≤ (d.front n).length + (d.written n).length

end IntegerDirective

/-! ### Reading the directive -/

section reading
variable {d : IntegerDirective} {rest : List UInt8}

theorem digit_not_flag {b : UInt8} (h : is_digit b = true) (hzero : b ≠ zero_flag) : is_flag b = false := by
  rw [Bool.eq_false_iff]
  intro hflag
  have hmem : b ∈ ascii "-+0 #" := of_decide_eq_true hflag
  have hlist : ascii "-+0 #" = [0x2d, 0x2b, 0x30, 0x20, 0x23] := by decide
  rw [hlist] at hmem
  simp only [List.mem_cons, List.not_mem_nil, or_false] at hmem
  rcases hmem with rfl | rfl | rfl | rfl | rfl
  · exact absurd h (by decide)
  · exact absurd h (by decide)
  · exact hzero rfl
  · exact absurd h (by decide)
  · exact absurd h (by decide)

theorem letter_plain (type : IntegerType) :
    is_flag type.letter = false ∧ is_digit type.letter = false ∧ type.letter ≠ '$'.toUInt8 ∧
      type.letter ≠ '%'.toUInt8 ∧ type.letter ≠ '{'.toUInt8 ∧ type.letter ≠ '<'.toUInt8 ∧
      type.letter ≠ '*'.toUInt8 ∧ type.letter ≠ '.'.toUInt8 := by
  cases type <;> decide

theorem digit_plain {b : UInt8} (h : is_digit b = true ∨ is_flag b = true) :
    b ≠ '$'.toUInt8 ∧ b ≠ '%'.toUInt8 ∧ b ≠ '{'.toUInt8 ∧ b ≠ '<'.toUInt8 ∧ b ≠ '*'.toUInt8 ∧ b ≠ '.'.toUInt8 := by
  refine ⟨?_, ?_, ?_, ?_, ?_, ?_⟩ <;> rintro rfl <;> exact absurd h (by decide)

theorem ok_bind {ε α β : Type} (a : α) (f : α → Except ε β) : (Except.ok a >>= f) = f a := rfl

/-- A text that stops being of a kind where another one begins. -/
theorem span_append {p : UInt8 → Bool} {s t : List UInt8} (hs : ∀ b ∈ s, p b = true)
    (ht : ∀ b, t.head? = some b → p b = false) : (s ++ t).takeWhile p = s ∧ (s ++ t).dropWhile p = t := by
  rw [List.takeWhile_append_of_pos hs, List.dropWhile_append_of_pos hs]
  cases t with
  | nil => exact ⟨List.append_nil s, rfl⟩
  | cons b t =>
    have hb : ¬ p b = true := by
      rw [ht b rfl]
      decide
    rw [List.takeWhile_cons_of_neg hb, List.dropWhile_cons_of_neg hb]
    exact ⟨List.append_nil s, rfl⟩

theorem headD_of_forall {P : UInt8 → Prop} (hzero : P 0) {s : List UInt8} (h : ∀ b ∈ s, P b) : P (s.headD 0) := by
  cases s with
  | nil => exact hzero
  | cons b s => exact h b List.mem_cons_self

end reading

namespace IntegerDirective
variable (d : IntegerDirective)

/-- What stands behind the flags. -/
def tail : List UInt8 := d.width ++ [d.type.letter]

/-- The flags that are copied. -/
def copied : List UInt8 := d.flags.take 62

/-- What of the width is not copied. -/
def cut : List UInt8 := d.width.drop (62 - d.copied.length) ++ [d.type.letter]

theorem width_not_flag {b : UInt8} (h : d.tail.head? = some b) : is_flag b = false := by
  have hbegins := d.width_begins
  have hdigits := d.width_digits
  rw [tail] at h
  cases hwidth : d.width with
  | nil =>
    rw [hwidth] at h
    cases h
    exact (letter_plain d.type).1
  | cons c width =>
    rw [hwidth] at h hbegins hdigits
    cases h
    exact digit_not_flag (hdigits b List.mem_cons_self) fun hzero => hbegins (congrArg some hzero)

theorem takeWhile_flags : (d.flags ++ d.tail).takeWhile is_flag = d.flags :=
  (span_append d.flags_only fun _ => d.width_not_flag).1

theorem dropWhile_flags : (d.flags ++ d.tail).dropWhile is_flag = d.tail :=
  (span_append d.flags_only fun _ => d.width_not_flag).2

theorem takeWhile_digits : d.tail.takeWhile is_digit = d.width := by
  rw [tail, List.takeWhile_append_of_pos d.width_digits]
  have hletter : is_digit d.type.letter = false := (letter_plain d.type).2.1
  rw [List.takeWhile_cons_of_neg (by simp [hletter]), List.append_nil]

/-- No byte behind the % begins anything else. -/
theorem bytes_plain {b : UInt8} (h : b ∈ d.flags ++ d.tail) :
    b ≠ '$'.toUInt8 ∧ b ≠ '%'.toUInt8 ∧ b ≠ '{'.toUInt8 ∧ b ≠ '<'.toUInt8 ∧ b ≠ '*'.toUInt8 ∧ b ≠ '.'.toUInt8 := by
  rw [tail, List.mem_append, List.mem_append, List.mem_singleton] at h
  obtain hflag | hdigit | rfl := h
  · exact digit_plain (.inr (d.flags_only b hflag))
  · exact digit_plain (.inl (d.width_digits b hdigit))
  · exact (letter_plain d.type).2.2

theorem positional_eq : positional (d.flags ++ d.tail) = (-1, d.flags ++ d.tail) := by
  have hbehind : ((d.flags ++ d.tail).dropWhile is_digit).headD 0 ≠ '$'.toUInt8 :=
    headD_of_forall (P := (· ≠ '$'.toUInt8)) (by decide) fun b hb =>
      (d.bytes_plain ((List.dropWhile_suffix _).subset hb)).1
  rw [positional]
  exact if_neg fun h => hbehind h.2

theorem copy_width (room : Nat) :
    copy_digits room d.tail = (d.width.take room, d.width.drop room ++ [d.type.letter]) := by
  rw [copy_digits, d.takeWhile_digits, tail]
  obtain hroom | hroom := Nat.le_total room d.width.length
  · rw [List.length_take_of_le hroom, List.drop_append_of_le_length hroom]
  · rw [List.take_of_length_le hroom, List.drop_left, List.drop_of_length_le hroom, List.nil_append]

variable {d} (host : Host) (n : Int64)

/-- The directive as it is read, with as much of it as there is room for. -/
theorem read_text :
    read_item host [.int n] 0 (d.flags ++ d.tail) =
      ((Directive.mk (d.copied ++ d.width.take (62 - d.copied.length)) (d.cut.headD 0) (.int n)).piece host).map
        fun p => (.piece p, 1, d.cut.tail) := by
  have hhead : ∀ c : UInt8, c ≠ 0 → (∀ b ∈ d.flags ++ d.tail, b ≠ c) → (d.flags ++ d.tail).headD 0 ≠ c := by
    intro c hc h
    exact headD_of_forall (P := (· ≠ c)) hc.symm h
  have hstar : d.tail.headD 0 ≠ '*'.toUInt8 :=
    headD_of_forall (P := (· ≠ '*'.toUInt8)) (by decide) fun b hb =>
      (d.bytes_plain (List.mem_append_right _ hb)).2.2.2.2.1
  have hpoint : d.cut.headD 0 ≠ '.'.toUInt8 := by
    refine headD_of_forall (P := (· ≠ '.'.toUInt8)) (by decide) fun b hb => ?_
    refine (d.bytes_plain (List.mem_append_right _ ?_)).2.2.2.2.2
    rw [cut, List.mem_append] at hb
    exact List.mem_append.mpr (hb.imp_left List.mem_of_mem_drop)
  have hlength : ¬ 62 < (d.copied ++ d.width.take (62 - d.copied.length)).length := by
    rw [List.length_append, List.length_take, copied, List.length_take]
    omega
  have hwidth : format.width [.int n] 0 d.copied d.tail =
      .ok (d.copied ++ d.width.take (62 - d.copied.length), 0, d.cut) := by
    rw [format.width, if_neg hstar, d.copy_width]
    rfl
  have hprecision : precision [.int n] 0 (d.copied ++ d.width.take (62 - d.copied.length)) d.cut =
      .ok (d.copied ++ d.width.take (62 - d.copied.length), 0, d.cut) := by
    rw [precision, if_neg hpoint]
    rfl
  have hdirective : directive [.int n] 0 (d.flags ++ d.tail) =
      .ok (⟨d.copied ++ d.width.take (62 - d.copied.length), d.cut.headD 0, .int n⟩, 1, d.cut.tail) := by
    unfold directive
    rw [d.positional_eq]
    dsimp only
    rw [d.takeWhile_flags, d.dropWhile_flags, ← copied, hwidth, ok_bind, hprecision, ok_bind]
    dsimp only
    rw [if_neg hlength]
    rfl
  rw [read_item, if_neg (hhead _ (by decide) fun b hb => (d.bytes_plain hb).2.1),
    if_neg (hhead _ (by decide) fun b hb => (d.bytes_plain hb).2.2.1),
    if_neg (hhead _ (by decide) fun b hb => (d.bytes_plain hb).2.2.2.1), hdirective]
  change (Directive.piece host _ >>= fun p => pure (Item.piece p, 1, d.cut.tail)) = _
  generalize Directive.piece host _ = piece
  cases piece with
  | error stop => rfl
  | ok p => rfl

end IntegerDirective

/-! ### The flags of %b -/

section binary
open IntegerDirective
variable {flags width : List UInt8}

theorem number_zeros {s : List UInt8} (h : ∀ b ∈ s, b = zero_flag) (t : List UInt8) : number (s ++ t) = number t := by
  induction s with
  | nil => rfl
  | cons b s ih =>
    obtain ⟨rfl, hs⟩ := List.forall_mem_cons.mp h
    have hdigit : 0 * 10 + (zero_flag.toNat - 0x30) = 0 := by decide
    rw [List.cons_append, number, List.foldl_cons, hdigit]
    exact ih hs

/-- The width is the number of its digits, in an `int`. -/
theorem binary_width_eq (s : List UInt8) : binary_width s = to_int (number (s.takeWhile is_digit)) := by
  have hwraps : ∀ (digits : List UInt8) (w : Nat),
      digits.foldl (fun (width : Int) d => to_int (width * 10 + (d.toNat - 0x30 : Nat))) (to_int w) =
        to_int ((digits.foldl (fun n d => n * 10 + (d.toNat - 0x30)) w : Nat) : Int) := by
    intro digits
    induction digits with
    | nil =>
      intro w
      rw [List.foldl_nil, List.foldl_nil]
    | cons d digits ih =>
      intro w
      have hstep : to_int (to_int w * 10 + (d.toNat - 0x30 : Nat)) = to_int ((w * 10 + (d.toNat - 0x30) : Nat) : Int) := by
        unfold to_int
        rw [← Int.bmod_add_bmod, Int.bmod_mul_bmod, Int.bmod_add_bmod, Int.natCast_add, Int.natCast_mul]
        rfl
      rw [List.foldl_cons, List.foldl_cons, hstep]
      exact ih _
  exact hwraps _ 0

theorem to_int_small {n : Nat} (h : n < 4096) : to_int n = n := by
  refine Int.bmod_eq_of_le ?_ ?_
  · omega
  · omega

/-- A flag that %b takes for the first zero is one. -/
theorem sign_or_zero {f : UInt8} (h : is_flag f = true) (hsign : is_sign f = false) : f = zero_flag := by
  have hmem : f ∈ ascii "-+0 #" := of_decide_eq_true h
  have hnot : f ∉ ascii "-+# " := of_decide_eq_false hsign
  have hlist : ascii "-+0 #" = [0x2d, 0x2b, 0x30, 0x20, 0x23] := by decide
  rw [hlist] at hmem
  simp only [List.mem_cons, List.not_mem_nil, or_false] at hmem
  rcases hmem with rfl | rfl | rfl | rfl | rfl
  · exact absurd (by decide) hnot
  · exact absurd (by decide) hnot
  · rfl
  · exact absurd (by decide) hnot
  · exact absurd (by decide) hnot

theorem digit_not_sign {b : UInt8} (h : is_digit b = true) : is_sign b = false := by
  rw [Bool.eq_false_iff]
  intro hsign
  have hmem : b ∈ ascii "-+# " := of_decide_eq_true hsign
  have hlist : ascii "-+# " = [0x2d, 0x2b, 0x23, 0x20] := by decide
  rw [hlist] at hmem
  simp only [List.mem_cons, List.not_mem_nil, or_false] at hmem
  rcases hmem with rfl | rfl | rfl | rfl <;> exact absurd h (by decide)

/-- %b with the flags and the width it finds. -/
theorem binary_eq (spec : List UInt8) (n : UInt64) :
    binary spec false n =
      padded (minus_flag ∈ spec.takeWhile is_sign) ((spec.dropWhile is_sign).headD 0 = zero_flag)
        (binary_width (if (spec.dropWhile is_sign).headD 0 = zero_flag then (spec.dropWhile is_sign).tail
          else spec.dropWhile is_sign)).toNat (binary_front spec false n) (digits 2 false 1 n.toNat) := by
  have hpad : ∀ (w : Int) (k : Nat), (w - k).toNat = w.toNat - k := by omega
  unfold binary padded
  dsimp only
  rw [hpad]
  simp only [decide_eq_true_eq]
  rfl

section spec
variable (hflags : ∀ f ∈ flags, is_flag f = true) (hdigits : ∀ d ∈ width, is_digit d = true)
include hdigits

theorem not_sign_behind (flags : List UInt8) : ∀ b, (flags.dropWhile is_sign ++ width).head? = some b → is_sign b = false := by
  intro b hb
  cases hrest : flags.dropWhile is_sign with
  | nil =>
    rw [hrest, List.nil_append] at hb
    exact digit_not_sign (hdigits b (List.mem_of_head? hb))
  | cons c more =>
    have hnot := List.head?_dropWhile_not is_sign flags
    rw [hrest] at hb hnot
    cases hb
    simpa using hnot

theorem split_at_sign :
    (flags ++ width).takeWhile is_sign = flags.takeWhile is_sign ∧
      (flags ++ width).dropWhile is_sign = flags.dropWhile is_sign ++ width := by
  have hspan := span_append (s := flags.takeWhile is_sign) (fun b => List.mem_takeWhile_imp)
    (not_sign_behind hdigits flags)
  rw [← List.append_assoc, List.takeWhile_append_dropWhile] at hspan
  exact hspan

include hflags

/-- The first byte behind the signs is a zero if it is a flag. -/
theorem zero_behind {c : UInt8} {more : List UInt8} (h : flags.dropWhile is_sign = c :: more) : c = zero_flag := by
  refine sign_or_zero (hflags c ?_) (not_sign_behind hdigits flags c ?_)
  · exact (List.dropWhile_suffix is_sign).subset (h ▸ List.mem_cons_self)
  · rw [h]
    rfl

/-- %b finds its flags and its width if only zeros follow the first zero. -/
theorem binary_finds (hbegins : width.head? ≠ some zero_flag) (hzeros : ∀ f ∈ flags.dropWhile is_sign, f = zero_flag)
    (n : UInt64) :
    binary (flags ++ width) false n =
      padded (minus_flag ∈ flags) (zero_flag ∈ flags) (to_int (number width)).toNat
        (binary_front (flags ++ width) false n) (digits 2 false 1 n.toNat) := by
  obtain ⟨htake, hdrop⟩ := split_at_sign hdigits
  have hminus : minus_flag ∈ flags.takeWhile is_sign ↔ minus_flag ∈ flags := by
    refine ⟨fun h => (List.takeWhile_prefix _).subset h, fun h => ?_⟩
    rw [← List.takeWhile_append_dropWhile (p := is_sign) (l := flags), List.mem_append] at h
    exact h.resolve_right fun hrest => absurd (hzeros _ hrest) (by decide)
  have hall : width.takeWhile is_digit = width := List.takeWhile_eq_self_iff.mpr hdigits
  rw [binary_eq, htake, hdrop, binary_width_eq]
  simp only [hminus]
  cases hrest : flags.dropWhile is_sign with
  | nil =>
    have hhead : ¬ width.headD 0 = zero_flag := by
      cases width with
      | nil => decide
      | cons c width => exact fun h => hbegins (congrArg some h)
    have hnone : ¬ zero_flag ∈ flags := by
      intro h
      have hsigns := List.dropWhile_eq_nil_iff.mp hrest zero_flag h
      exact absurd hsigns (by decide)
    simp only [List.nil_append, hhead, hnone, if_false, hall]
  | cons c more =>
    have hc : c = zero_flag := zero_behind hflags hdigits hrest
    have hsome : zero_flag ∈ flags := (List.dropWhile_suffix is_sign).subset (hrest ▸ hc ▸ List.mem_cons_self)
    have hmore : ∀ f ∈ more, f = zero_flag := fun f hf => hzeros f (hrest ▸ List.mem_cons_of_mem c hf)
    have hdigit : ∀ f ∈ more, is_digit f = true := fun f hf => by
      rw [hmore f hf]
      decide
    simp only [List.cons_append, List.headD_cons, List.tail_cons, hc, hsome, if_true,
      List.takeWhile_append_of_pos hdigit, hall, number_zeros hmore]

/-- Where a flag follows the first zero, %b finds no width. -/
theorem binary_loses (hother : ∃ f ∈ flags.dropWhile is_sign, f ≠ zero_flag) (n : UInt64) :
    binary (flags ++ width) false n = binary_front (flags ++ width) false n ++ digits 2 false 1 n.toNat := by
  obtain ⟨f, hf, hne⟩ := hother
  obtain ⟨htake, hdrop⟩ := split_at_sign hdigits
  rw [binary_eq, htake, hdrop, binary_width_eq]
  cases hrest : flags.dropWhile is_sign with
  | nil =>
    rw [hrest] at hf
    cases hf
  | cons c more =>
    have hc : c = zero_flag := zero_behind hflags hdigits hrest
    have hmem : ∀ f ∈ more, is_flag f = true := fun f hf =>
      hflags f ((List.dropWhile_suffix is_sign).subset (hrest ▸ List.mem_cons_of_mem c hf))
    have hzero : ∀ f ∈ more, is_digit f = true → f = zero_flag := fun f hf hdigit => by
      by_contra hnot
      exact absurd ((digit_not_flag hdigit hnot).symm.trans (hmem f hf)) (by decide)
    rw [hrest] at hf
    have hfmore : f ∈ more := (List.mem_cons.mp hf).resolve_left fun heq => hne (heq.trans hc)
    have hshort : ¬ (more.takeWhile is_digit).length = more.length := fun hlength => by
      have hself := List.takeWhile_eq_self_iff.mp ((List.takeWhile_prefix _).eq_of_length hlength) f hfmore
      exact hne (hzero f hfmore hself)
    have hnumber : number ((more ++ width).takeWhile is_digit) = 0 := by
      rw [List.takeWhile_append, if_neg hshort]
      have h := number_zeros (s := more.takeWhile is_digit)
        (fun b hb => hzero b ((List.takeWhile_prefix _).subset hb) (List.mem_takeWhile_imp hb)) []
      rw [List.append_nil] at h
      exact h
    simp only [List.cons_append, List.headD_cons, List.tail_cons, hc, if_true, hnumber]
    exact padded_of_le (Nat.zero_le _) _ _

end spec

end binary

/-! ### What is written -/

namespace IntegerDirective
variable (d : IntegerDirective) (n : UInt64)

/-- What is given to printf. -/
def spec : List UInt8 := d.copied ++ d.width

/-- The part of the text. -/
def piece : Piece :=
  match d.type with
  | .b => .binary ⟨binary d.spec false n, plain_binary _ _ _⟩
  | .o => .number (conversion d.spec) ⟨(conversion d.spec).octal n.toNat, plain_octal _ _⟩
  | .x => .number (conversion d.spec) ⟨(conversion d.spec).hex false n.toNat, plain_hex _ _ _⟩

/-- The prefix for the flags that are copied. -/
def copied_front (n : Nat) : List UInt8 := if mark_flag ∈ d.copied ∧ n ≠ 0 then d.type.mark else []

/-- The width that is found. -/
def found_size : Nat := if d.type = .b ∧ d.SignBehindZero then 0 else d.size

variable {d}

theorem copied_only {f : UInt8} (hf : f ∈ d.copied) : is_flag f = true := d.flags_only f (List.mem_of_mem_take hf)

theorem width_begins_plain {b : UInt8} (h : d.width.head? = some b) : is_flag b = false :=
  digit_not_flag (d.width_digits b (List.mem_of_head? h)) fun hzero => d.width_begins (hzero ▸ h)

/-- Where flags are cut there is no room for a width. -/
theorem copied_or_empty (hroom : d.copied.length + d.width.length ≤ 62) : d.copied = d.flags ∨ d.width = [] := by
  obtain hlt | hle := Nat.lt_or_ge 62 d.flags.length
  · rw [copied, List.length_take, Nat.min_eq_left (Nat.le_of_lt hlt)] at hroom
    exact .inr (List.length_eq_zero_iff.mp (by omega))
  · exact .inl (List.take_of_length_le hle)

theorem conversion_spec :
    (conversion d.spec).minus = decide (minus_flag ∈ d.copied) ∧
      (conversion d.spec).zero = decide (zero_flag ∈ d.copied) ∧
      (conversion d.spec).alternate = decide (mark_flag ∈ d.copied) ∧
      (conversion d.spec).width = d.size ∧ (conversion d.spec).precision = none := by
  obtain ⟨htake, hdrop⟩ := span_append (s := d.copied) (fun _ => copied_only) fun _ => d.width_begins_plain
  have hall : d.width.takeWhile is_digit = d.width := List.takeWhile_eq_self_iff.mpr d.width_digits
  have hnone : d.width.dropWhile is_digit = [] := List.dropWhile_eq_nil_iff.mpr d.width_digits
  unfold conversion
  simp only [spec, htake, hdrop, hall, hnone]
  exact ⟨rfl, rfl, rfl, rfl, rfl⟩

theorem octal_bytes (m : Nat) (htype : d.type = .o) :
    (conversion d.spec).octal m =
      padded (minus_flag ∈ d.copied) (zero_flag ∈ d.copied) d.size (d.copied_front m) (d.written m) := by
  obtain ⟨hminus, hzero, halternate, hwidth, hprecision⟩ := d.conversion_spec
  have hfront : (if (conversion d.spec).alternate && (digits 8 false 1 m).head? != some 0x30 then [0x30] else []) =
      d.copied_front m := by
    rw [copied_front, htype, halternate]
    by_cases hm : m = 0
    · subst hm
      rw [digits_zero]
      simp
    · have hhead := digits_head (show 2 ≤ 8 by decide) (by decide) hm
      have hmark : IntegerType.o.mark = [0x30] := by decide
      simp [hm, hhead, hmark]
  rw [Conversion.octal, hprecision]
  dsimp only [Option.getD_none, Option.isNone_none]
  rw [hfront, pad_number_eq, hminus, hzero, hwidth, written, htype]
  have hcases : d.copied_front m = [] ∨ d.copied_front m = [0x30] := by
    rw [copied_front, htype]
    split
    · exact .inr (by decide)
    · exact .inl rfl
  obtain hnil | hmark := hcases
  · rw [hnil]
    rfl
  · rw [hmark]
    exact padded_zero _ _ _ _

theorem hex_bytes (m : Nat) (htype : d.type = .x) :
    (conversion d.spec).hex false m =
      padded (minus_flag ∈ d.copied) (zero_flag ∈ d.copied) d.size (d.copied_front m) (d.written m) := by
  obtain ⟨hminus, hzero, halternate, hwidth, hprecision⟩ := d.conversion_spec
  have hfront : (if (conversion d.spec).alternate && m != 0 then ascii (if false = true then "0X" else "0x") else []) =
      d.copied_front m := by
    rw [copied_front, htype, halternate]
    by_cases hm : m = 0
    · simp [hm]
    · simp [hm, IntegerType.mark]
  rw [Conversion.hex, Conversion.integer, hfront, hprecision]
  dsimp only [Option.getD_none, Option.isNone_none]
  rw [pad_number_eq, hminus, hzero, hwidth, written, htype]
  rfl

theorem toUInt64_toNat {n : Int64} (hn : 0 ≤ n) : n.toUInt64.toNat = n.toInt.toNat := Int64.toNat_toUInt64_of_le hn

theorem mark_copied : '#'.toUInt8 ∈ d.spec ↔ mark_flag ∈ d.copied := by
  refine List.mem_append.trans ⟨fun h => h.resolve_right fun hwidth => ?_, .inl⟩
  exact absurd (d.width_digits _ hwidth) (by decide)

theorem binary_front_eq (htype : d.type = .b) (n : UInt64) : binary_front d.spec false n = d.copied_front n.toNat := by
  have hzero : n ≠ 0 ↔ n.toNat ≠ 0 := not_congr UInt64.toNat_inj.symm
  rw [binary_front, copied_front, htype]
  simp only [mark_copied, hzero]
  rfl

/-- %b without room for it to differ. -/
theorem binary_bytes (hroom : d.copied.length + d.width.length ≤ 62) (hshort : d.size < 4096) (n : UInt64)
    (htype : d.type = .b) :
    binary d.spec false n =
      padded (minus_flag ∈ d.flags) (zero_flag ∈ d.flags) d.found_size (d.copied_front n.toNat) (d.written n.toNat) := by
  have hsmall : (to_int (number d.width)).toNat = d.size := by
    rw [to_int_small (show number d.width < 4096 from hshort)]
    exact Int.toNat_natCast _
  have hwritten : digits 2 false 1 n.toNat = d.written n.toNat := by
    rw [written, htype]
    rfl
  have hfinds := fun hzeros => binary_finds (fun _ => d.copied_only) d.width_digits d.width_begins hzeros n
  have hloses := fun hother => binary_loses (fun _ => d.copied_only) d.width_digits hother n
  rw [← spec, hsmall, binary_front_eq htype, hwritten] at hfinds
  rw [← spec, binary_front_eq htype, hwritten] at hloses
  have hfound : d.SignBehindZero → d.found_size = 0 := fun h => if_pos ⟨htype, h⟩
  have hsize : ¬ d.SignBehindZero → d.found_size = d.size := fun h => if_neg fun hboth => h hboth.2
  obtain hcopied | hempty := copied_or_empty hroom
  · rw [hcopied] at hfinds hloses
    by_cases hsign : d.SignBehindZero
    · rw [hloses hsign, hfound hsign, padded_of_le (Nat.zero_le _)]
    · have hzeros : ∀ f ∈ d.flags.dropWhile is_sign, f = zero_flag := by
        simpa [SignBehindZero] using hsign
      rw [hfinds hzeros, hsize hsign]
  · have hzero : d.size = 0 := by rw [size, hempty]; rfl
    have hnothing : d.found_size = 0 := by rw [found_size, hzero, ite_self]
    rw [hnothing, padded_of_le (Nat.zero_le _)]
    by_cases hother : ∃ f ∈ d.copied.dropWhile is_sign, f ≠ zero_flag
    · exact hloses hother
    · rw [hfinds (by simpa using hother), hzero, padded_of_le (Nat.zero_le _)]

/-- What is written for a number, if there is room for the directive. -/
theorem piece_bytes (hroom : d.copied.length + d.width.length ≤ 62) (hshort : d.size < 4096) (n : UInt64) :
    (d.piece n).bytes =
      padded (minus_flag ∈ d.flags) (zero_flag ∈ d.flags) d.found_size (d.copied_front n.toNat) (d.written n.toNat) := by
  have hprinted : ∀ m : Nat, padded (minus_flag ∈ d.copied) (zero_flag ∈ d.copied) d.size (d.copied_front m) (d.written m) =
      padded (minus_flag ∈ d.flags) (zero_flag ∈ d.flags) d.size (d.copied_front m) (d.written m) := by
    intro m
    obtain hcopied | hempty := copied_or_empty hroom
    · rw [hcopied]
    · have hzero : d.size = 0 := by rw [size, hempty]; rfl
      rw [hzero, padded_of_le (Nat.zero_le _), padded_of_le (Nat.zero_le _)]
  unfold piece
  split
  case h_1 htype => exact binary_bytes hroom hshort n htype
  case h_2 htype =>
    have hsize : d.found_size = d.size := by simp [found_size, htype]
    rw [hsize, ← hprinted]
    exact octal_bytes _ htype
  case h_3 htype =>
    have hsize : d.found_size = d.size := by simp [found_size, htype]
    rw [hsize, ← hprinted]
    exact hex_bytes _ htype

end IntegerDirective

/-! ### The law -/

namespace IntegerDirective
variable (host : Host) {d : IntegerDirective} {n : Int64} {out : List UInt8}

theorem not_last_byte {b : UInt8} (h : is_digit b = true) : b ∉ last_bytes := by
  have hall : last_bytes.all (fun b => !is_digit b) = true := by decide
  intro hmem
  have hnot := List.all_eq_true.mp hall b hmem
  rw [h] at hnot
  exact absurd hnot (by decide)

/-- With room for it, the directive asks for one part. -/
theorem read_room (hroom : d.copied.length + d.width.length ≤ 62) (n : Int64) :
    read_item host [.int n] 0 (d.flags ++ d.tail) = .ok (.piece (d.piece n.toUInt64), 1, []) := by
  have htake : d.width.take (62 - d.copied.length) = d.width := List.take_of_length_le (by omega)
  have hcut : d.cut = [d.type.letter] := by
    rw [cut, List.drop_of_length_le (by omega)]
    rfl
  have hpiece : Directive.piece host ⟨d.spec, d.type.letter, .int n⟩ = .ok (d.piece n.toUInt64) := by
    unfold piece
    cases d.type with
    | b => rfl
    | o => rfl
    | x => rfl
  rw [read_text, htake, hcut, ← spec]
  exact congrArg (Except.map _) hpiece

/-- Without room for it, what is read ends in a digit, and this is refused. -/
theorem read_no_room (hroom : 62 < d.copied.length + d.width.length) (n : Int64) :
    ∃ stop, read_item host [.int n] 0 (d.flags ++ d.tail) = .error stop := by
  have hlt : 62 - d.copied.length < d.width.length := by
    have hcopied : d.copied.length ≤ 62 := List.length_take_le _ _
    omega
  have hdigit : is_digit (d.cut.headD 0) = true := by
    rw [cut, List.drop_eq_getElem_cons hlt]
    exact d.width_digits _ (List.getElem_mem hlt)
  rw [read_text]
  cases hpiece : Directive.piece host ⟨d.copied ++ d.width.take (62 - d.copied.length), d.cut.headD 0, .int n⟩ with
  | error stop => exact ⟨stop, rfl⟩
  | ok p => exact absurd (type_of_piece hpiece) (not_last_byte hdigit)

theorem piece_plain (n : UInt64) : Plain (d.piece n).bytes := by
  unfold piece
  cases d.type with
  | b => exact plain_binary _ _ _
  | o => exact plain_octal _ _
  | x => exact plain_hex _ _ _

/-- A written number is shorter than the buffer. -/
theorem append_printed_short (c : Conversion) (written : List UInt8) :
    (c_str ((append_printed c written).getD [])).length < 4096 := by
  rw [append_printed]
  split
  case isTrue => exact Nat.zero_lt_succ 4095
  case isFalse =>
    split
    case isFalse => exact Nat.zero_lt_succ 4095
    case isTrue hlength =>
      rw [Option.getD_some, List.take_append]
      have hcut := length_c_str_append_le ((written.take 4095).take written.length)
        (List.take (written.length - (written.take 4095).length) [0])
      have hfront := length_c_str_le ((written.take 4095).take written.length)
      have hnul : (c_str (List.take (written.length - (written.take 4095).length) [0])).length = 0 := by
        cases written.length - (written.take 4095).length <;> rfl
      rw [List.length_take, List.length_take] at hfront
      omega

theorem piece_kept (n : UInt64) : (d.piece n).kept < 4096 := by
  unfold piece Piece.kept Piece.appended
  cases d.type with
  | b =>
    dsimp only
    split
    case isTrue hlength => exact Nat.lt_of_le_of_lt (length_c_str_le _) hlength
    case isFalse => exact Nat.zero_lt_succ 4095
  | o => exact append_printed_short _ _
  | x => exact append_printed_short _ _

theorem length_front_le (m : Nat) : (d.copied_front m).length ≤ (d.front m).length ∧ (d.front m).length ≤ 2 := by
  have hmark : d.type.mark.length ≤ 2 := by cases d.type <;> decide
  rw [copied_front, front]
  by_cases hflag : mark_flag ∈ d.flags ∧ m ≠ 0
  · rw [if_pos hflag]
    refine ⟨?_, hmark⟩
    split
    · exact Nat.le_refl _
    · exact Nat.zero_le _
  · rw [if_neg hflag, if_neg fun h => hflag ⟨List.mem_of_mem_take h.1, h.2⟩]
    exact ⟨Nat.le_refl _, Nat.zero_le 2⟩

theorem length_written_le {m : Nat} (hm : m < 2 ^ 64) : (d.written m).length ≤ 64 := by
  rw [written]
  by_cases hzero : m = 0
  · rw [hzero, digits_zero]
    decide
  · rw [digits_pos hzero, List.length_map, List.length_reverse, Nat.digits_length_le_iff d.type.two_le_base]
    exact Nat.lt_of_lt_of_le hm (Nat.pow_le_pow_left d.type.two_le_base 64)

theorem format_loop_stops {args : List Value} {argi : Nat} {s buf : List UInt8} {stop : Stop}
    (h : read_item host args argi s = .error stop) :
    format_loop host args argi buf ('%'.toUInt8 :: s) = .error stop := by
  rw [format_loop, if_neg (by decide), if_neg (by decide)]
  split
  all_goals rename_i hread; cases h.symm.trans hread
  rfl

/-- What has a text has room for its directive. -/
theorem room_of_text (h : eval_format_string host d.text [.int n] = .ok out) :
    d.copied.length + d.width.length ≤ 62 := by
  by_contra hno
  obtain ⟨stop, hread⟩ := read_no_room host (Nat.lt_of_not_le hno) n
  have hstops : eval_format_string host d.text [.int n] = .error stop := format_loop_stops host hread
  rw [hstops] at h
  cases h

/-- It is no longer than what is kept of the part. -/
theorem length_of_text (h : eval_format_string host d.text [.int n] = .ok out) :
    out.length ≤ (d.piece n.toUInt64).kept := by
  have hasks := asks_of_parts (parts_single host (read_room host (room_of_text host h) n))
  have hlength := (format_loop_length hasks h).2
  simpa [c_str] using hlength

theorem text_of_fits (hroom : d.copied.length + d.width.length ≤ 62) (hfits : (d.piece n.toUInt64).Fits) :
    eval_format_string host d.text [.int n] = .ok (d.piece n.toUInt64).bytes := by
  have hasks := asks_of_parts (parts_single host (read_room host hroom n))
  have hrun := format_loop_fits hasks (List.forall_mem_singleton.mpr hfits) []
  rw [List.nil_append, List.flatMap_singleton, c_str_eq (plain_no_nul (piece_plain n.toUInt64))] at hrun
  exact hrun

theorem piece_fits (hshort : d.size < 4096) {n : UInt64} (hlength : (d.piece n).bytes.length < 4096) :
    (d.piece n).Fits := by
  have hplain := plain_no_nul (d.piece_plain n)
  obtain ⟨-, -, -, hwidth, hprecision⟩ := d.conversion_spec
  have hrange : (conversion d.spec).InRange := by
    refine ⟨?_, ?_⟩
    · rw [hwidth]
      omega
    · rw [hprecision]
      exact fun _ h => absurd h (Option.not_mem_none _)
  revert hlength hplain
  unfold piece
  cases d.type with
  | b => exact fun hlength _ => hlength
  | o => exact fun hlength hplain => ⟨hplain, hlength, .inl hrange⟩
  | x => exact fun hlength hplain => ⟨hplain, hlength, .inl hrange⟩

/-- What is written by a sound directive. -/
theorem sound_bytes {n : UInt64} (h : d.Sound n.toNat) :
    (d.piece n).bytes =
      padded (minus_flag ∈ d.flags) (zero_flag ∈ d.flags) d.size (d.front n.toNat) (d.written n.toNat) := by
  have hfront : d.copied_front n.toNat = d.front n.toNat := by
    rw [copied_front, front]
    refine if_congr ?_ rfl rfl
    exact ⟨fun hflag => ⟨List.mem_of_mem_take hflag.1, hflag.2⟩, fun hflag => ⟨h.marked hflag.1 hflag.2, hflag.2⟩⟩
  rw [piece_bytes h.room h.short, hfront, found_size]
  split
  case isTrue hsign => rw [padded_of_le (Nat.zero_le _), padded_of_le (h.found hsign.1 hsign.2)]
  case isFalse => rfl

/-- A text as long as it should be shows that the directive is sound. -/
theorem sound_of_length {n : UInt64} (hroom : d.copied.length + d.width.length ≤ 62)
    (hlength : max d.size ((d.front n.toNat).length + (d.written n.toNat).length) ≤ (d.piece n).kept) :
    d.Sound n.toNat := by
  have hbound := piece_kept (d := d) n
  have hshort : d.size < 4096 := by omega
  have hkept := (Piece.kept_le (plain_no_nul (d.piece_plain n))).1
  rw [piece_bytes hroom hshort, length_padded] at hkept
  have hfront := d.length_front_le n.toNat
  refine ⟨hroom, fun hflag hn => ?_, hshort, fun htype hsign => ?_⟩
  · by_contra hcut
    have hempty : d.width = [] := (copied_or_empty hroom).resolve_left fun heq => hcut (by
      rw [← copied, heq]
      exact hflag)
    have hsize : d.size = 0 := by rw [size, hempty]; rfl
    have hfound : d.found_size = 0 := by rw [found_size, hsize, ite_self]
    have hnone : d.copied_front n.toNat = [] := if_neg fun h => hcut h.1
    have hmark : d.front n.toNat = d.type.mark := if_pos ⟨hflag, hn⟩
    have hpos : 0 < d.type.mark.length := by cases d.type <;> decide
    rw [hfound, hnone, List.length_nil] at hkept
    rw [hmark] at hlength
    omega
  · have hfound : d.found_size = 0 := if_pos ⟨htype, hsign⟩
    rw [hfound] at hkept
    omega

end IntegerDirective

section law
open IntegerDirective
variable {d : IntegerDirective} {n : Int64}

theorem sound_of_rendered {host : Host} {out : List UInt8} (hn : 0 ≤ n)
    (hrun : eval_format_string host d.text [.int n] = .ok out) (h : d.Rendered n.toInt.toNat out) :
    d.Sound n.toInt.toNat := by
  obtain ⟨written, hnumeral, -, hlength⟩ := h
  rw [← toUInt64_toNat hn] at hnumeral hlength ⊢
  have hdigits : (d.written n.toUInt64.toNat).length ≤ written.length := hnumeral.length_le d.type.two_le_base
  have hkept := length_of_text host hrun
  exact sound_of_length (room_of_text host hrun) (by omega)

theorem rendered_of_sound (host : Host) (hn : 0 ≤ n) (hsound : d.Sound n.toInt.toNat) :
    ∃ out, eval_format_string host d.text [.int n] = .ok out ∧ d.Rendered n.toInt.toNat out := by
  rw [← toUInt64_toNat hn] at hsound ⊢
  have hbytes := sound_bytes hsound
  have hlength : (d.piece n.toUInt64).bytes.length < 4096 := by
    have hfront := d.length_front_le n.toUInt64.toNat
    have hwritten := d.length_written_le n.toUInt64.toNat_lt
    have hshort := hsound.short
    rw [hbytes, length_padded]
    omega
  refine ⟨_, text_of_fits host hsound.room (piece_fits hsound.short hlength), _,
    numeral_digits d.type.two_le_base _, hbytes, ?_⟩
  rw [hbytes, length_padded]
  rfl

/-- A number is formatted as the law says exactly if the directive is sound for it. -/
theorem rendered_iff (host : Host) (d : IntegerDirective) (n : Int64) (hn : 0 ≤ n) :
    (∃ out, eval_format_string host d.text [.int n] = .ok out ∧ d.Rendered n.toInt.toNat out) ↔
      d.Sound n.toInt.toNat :=
  ⟨fun ⟨_, hrun, hrendered⟩ => sound_of_rendered hn hrun hrendered, rendered_of_sound host hn⟩

/-- `%#010x` -/
def marked_hex : IntegerDirective where
  type := .x
  flags := ascii "#0"
  width := ascii "10"
  flags_only := List.all_eq_true.mp (by decide)
  width_digits := List.all_eq_true.mp (by decide)
  width_begins := by decide

theorem rendered_marked_hex :
    ∃ out, eval_format_string bare (ascii "%#010x") [.int 255] = .ok out ∧ marked_hex.Rendered 255 out :=
  (rendered_iff bare marked_hex 255 (by decide)).mpr
    ⟨by decide, fun _ _ => by decide, by decide, fun h => absurd h (by decide)⟩

/-- `%0-8b` -/
def minus_behind_zero : IntegerDirective where
  type := .b
  flags := ascii "0-"
  width := ascii "8"
  flags_only := List.all_eq_true.mp (by decide)
  width_digits := List.all_eq_true.mp (by decide)
  width_begins := by decide

/-- %b does not find the width behind a flag that follows a zero. -/
theorem minus_behind_zero_not_padded :
    ¬ ∃ out, eval_format_string bare (ascii "%0-8b") [.int 5] = .ok out ∧ minus_behind_zero.Rendered 5 out := by
  rintro ⟨out, hrun, hrendered⟩
  have hsound := sound_of_rendered (d := minus_behind_zero) (n := 5) (by decide) hrun hrendered
  have hfound := hsound.found rfl ⟨'-'.toUInt8, by decide, by decide⟩
  have hwritten : minus_behind_zero.written 5 = ascii "101" := by
    have hfive : (5 : Nat) ≠ 0 := by decide
    rw [written, digits_pos hfive]
    simp
    decide
  have hfront : minus_behind_zero.front 5 = [] := if_neg fun h => absurd h.1 (by decide)
  change minus_behind_zero.size ≤ (minus_behind_zero.front 5).length + (minus_behind_zero.written 5).length at hfound
  rw [hwritten, hfront] at hfound
  exact absurd hfound (by decide)

end law

end stoned.format
