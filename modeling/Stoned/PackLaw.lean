import Mathlib.Data.List.TakeWhile
import Stoned.Pack

namespace stoned

open program

/-! Packing integers and unpacking them again. -/

/-- The directives for integers. -/
inductive IntDirective where
  | C | c | S | s | L | l | Q | q | N | n | V | v
  deriving DecidableEq

namespace IntDirective

def letter : IntDirective → Char
  | C => 'C' | c => 'c' | S => 'S' | s => 's' | L => 'L' | l => 'l' | Q => 'Q' | q => 'q'
  | N => 'N' | n => 'n' | V => 'V' | v => 'v'

def width : IntDirective → Nat
  | C | c => 1
  | S | s | n | v => 2
  | L | l | N | V => 4
  | Q | q => 8

def is_signed : IntDirective → Bool
  | c | s | l | Q | q => true
  | _ => false

def big_endian : IntDirective → Bool
  | N | n => true
  | _ => false

/-- The integers a directive can stand for. -/
def InRange (d : IntDirective) (x : Int64) : Prop :=
  if d.is_signed then -(256 ^ d.width) ≤ 2 * x.toInt ∧ 2 * x.toInt < 256 ^ d.width
  else 0 ≤ x.toInt ∧ x.toInt < 256 ^ d.width

instance (d : IntDirective) (x : Int64) : Decidable (d.InRange x) := by unfold InRange; infer_instance

/-- The bytes an integer is packed as. -/
def bytes (d : IntDirective) (x : Int64) : List UInt8 :=
  let b := le_bytes d.width x.toUInt64.toNat
  if d.big_endian then b.reverse else b

/-- The integer the source makes of some bytes. -/
def read (d : IntDirective) (b : List UInt8) : Int64 :=
  let n := of_le (if d.big_endian then b.reverse else b)
  if d.is_signed ∧ d ≠ l then .ofInt (signed d.width n) else .ofNat n

@[simp] theorem length_bytes (d : IntDirective) (x : Int64) : (d.bytes x).length = d.width := by
  rw [bytes]
  split <;> simp

theorem width_pos (d : IntDirective) : 0 < d.width := by cases d <;> decide

theorem ofNat_congr {a b : Nat} (h : a % 256 = b % 256) : UInt8.ofNat a = UInt8.ofNat b := by
  rw [← UInt8.ofNat_mod_size, ← UInt8.ofNat_mod_size (x := b)]
  exact congrArg UInt8.ofNat h

theorem two_bytes (n : Nat) :
    le_bytes 2 n = [UInt8.ofNat (n % 2 ^ 16), UInt8.ofNat ((n % 2 ^ 16) >>> 8)] := by
  have h0 : UInt8.ofNat (n % 2 ^ 16) = UInt8.ofNat n := ofNat_congr (by omega)
  have h1 : UInt8.ofNat ((n % 2 ^ 16) >>> 8) = UInt8.ofNat (n / 256) :=
    ofNat_congr (by rw [Nat.shiftRight_eq_div_pow]; omega)
  rw [h0, h1]
  rfl

theorem four_bytes (n : Nat) :
    le_bytes 4 n = [UInt8.ofNat (n % 2 ^ 32), UInt8.ofNat ((n % 2 ^ 32) >>> 8), UInt8.ofNat ((n % 2 ^ 32) >>> 16),
      UInt8.ofNat ((n % 2 ^ 32) >>> 24)] := by
  have h0 : UInt8.ofNat (n % 2 ^ 32) = UInt8.ofNat n := ofNat_congr (by omega)
  have h1 : UInt8.ofNat ((n % 2 ^ 32) >>> 8) = UInt8.ofNat (n / 256) :=
    ofNat_congr (by rw [Nat.shiftRight_eq_div_pow]; omega)
  have h2 : UInt8.ofNat ((n % 2 ^ 32) >>> 16) = UInt8.ofNat (n / 256 / 256) :=
    ofNat_congr (by rw [Nat.shiftRight_eq_div_pow]; omega)
  have h3 : UInt8.ofNat ((n % 2 ^ 32) >>> 24) = UInt8.ofNat (n / 256 / 256 / 256) :=
    ofNat_congr (by rw [Nat.shiftRight_eq_div_pow]; omega)
  rw [h0, h1, h2, h3]
  rfl

theorem pack_value_int (singles : Singles) (d : IntDirective) (x : Int64) (b : PackBuffer) :
    pack_value singles d.letter (.int x) b = b.put (d.bytes x) := by
  cases d with
  | N | V =>
    simp only [bytes, width, four_bytes]
    rfl
  | n | v =>
    simp only [bytes, width, two_bytes]
    rfl
  | _ => rfl

/-- Four bytes are put together in either order. -/
theorem byte_at_four {b : List UInt8} (h : b.length = 4) :
    (byte_at b 0 <<< 24 ||| byte_at b 1 <<< 16 ||| byte_at b 2 <<< 8 ||| byte_at b 3) = of_le b.reverse ∧
      (byte_at b 0 ||| byte_at b 1 <<< 8 ||| byte_at b 2 <<< 16 ||| byte_at b 3 <<< 24) = of_le b := by
  obtain ⟨b0, b1, b2, b3, rfl⟩ : ∃ b0 b1 b2 b3, b = [b0, b1, b2, b3] := List.length_eq_four.mp h
  refine ⟨or_four_bytes b3 b2 b1 b0, ?_⟩
  rw [← or_four_bytes b0 b1 b2 b3]
  simp only [byte_at, List.getD_cons_zero, List.getD_cons_succ]
  rw [Nat.or_comm _ (b3.toNat <<< 24), Nat.or_assoc b0.toNat, Nat.or_comm b0.toNat, Nat.or_comm (b1.toNat <<< 8),
    ← Nat.or_assoc, ← Nat.or_assoc]

theorem byte_at_two {b : List UInt8} (h : b.length = 2) :
    (byte_at b 0 <<< 8 ||| byte_at b 1) = of_le b.reverse ∧ (byte_at b 0 ||| byte_at b 1 <<< 8) = of_le b := by
  obtain ⟨b0, b1, rfl⟩ : ∃ b0 b1, b = [b0, b1] := List.length_eq_two.mp h
  refine ⟨or_two_bytes b1 b0, ?_⟩
  rw [← or_two_bytes b0 b1, Nat.or_comm]
  rfl

theorem unpack_bytes_enough {w : Nat} {s : List UInt8} (h : w ≤ s.length) (value : List UInt8 → Value) :
    unpack_bytes w s value = ([value (s.take w)], s.drop w) := if_pos h

theorem unpack_bytes_short {w : Nat} {s : List UInt8} (h : ¬ w ≤ s.length) (value : List UInt8 → Value) :
    unpack_bytes w s value = ([], s) := if_neg h

theorem unpack_value_enough (singles : Singles) (d : IntDirective) {s : List UInt8} (h : d.width ≤ s.length) :
    unpack_value singles d.letter s = ([.int (d.read (s.take d.width))], s.drop d.width) := by
  have hlength : (s.take d.width).length = d.width := List.length_take_of_le h
  cases d with
  | C | c =>
    obtain ⟨b, rest, rfl⟩ := List.exists_cons_of_length_pos (Nat.lt_of_lt_of_le (by decide) h)
    rfl
  | N | V =>
    simp only [letter, unpack_value]
    refine (unpack_bytes_enough h _).trans ?_
    simp only [byte_at_four hlength]
    rfl
  | n | v =>
    simp only [letter, unpack_value]
    refine (unpack_bytes_enough h _).trans ?_
    simp only [byte_at_two hlength]
    rfl
  | _ =>
    simp only [letter, unpack_value]
    exact unpack_bytes_enough h _

theorem unpack_value_short (singles : Singles) (d : IntDirective) {s : List UInt8} (hs : s ≠ [])
    (h : s.length < d.width) : unpack_value singles d.letter s = ([], s) := by
  have hpos := List.length_pos_iff.mpr hs
  cases d with
  | C | c => exact absurd h (Nat.not_lt_of_le hpos)
  | _ =>
    simp only [letter, unpack_value]
    exact unpack_bytes_short (Nat.not_le_of_lt h) _

theorem ofNat_eq {m : Nat} {x : Int64} (h : (m : Int) = x.toInt) : Int64.ofNat m = x := by
  rw [← Int64.ofInt_eq_ofNat, h, Int64.ofInt_toInt]

theorem ofInt_eq {i : Int} {x : Int64} (h : i = x.toInt) : Int64.ofInt i = x := by
  rw [h, Int64.ofInt_toInt]

/-- An integer in range is read back, unless its sign is lost. -/
theorem read_bytes (d : IntDirective) {x : Int64} (hx : d.InRange x) :
    d.read (d.bytes x) = if d = l ∧ x.toInt < 0 then .ofInt (x.toInt + 2 ^ 32) else x := by
  have hread : of_le (if d.big_endian then (d.bytes x).reverse else d.bytes x) = x.toUInt64.toNat % 256 ^ d.width := by
    rw [← of_le_le_bytes, bytes]
    cases d.big_endian with
    | true => simp
    | false => simp
  have hbits : x.toInt = if 2 * x.toUInt64.toNat < 2 ^ 64 then (x.toUInt64.toNat : Int) else x.toUInt64.toNat - (2 ^ 64 : Nat) :=
    BitVec.toInt_eq_toNat_cond x.toBitVec
  have hlt : x.toUInt64.toNat < 2 ^ 64 := x.toUInt64.toNat_lt
  rw [read, hread]
  generalize x.toUInt64.toNat = n at hbits hlt
  cases d with
  | C | S | L | N | n | V | v =>
    refine (ofNat_eq ?_).trans (if_neg (by simp)).symm
    simp only [InRange, is_signed, width, Bool.false_eq_true, if_false] at hx ⊢
    omega
  | c | s | Q | q =>
    refine (ofInt_eq ?_).trans (if_neg (by simp)).symm
    simp only [InRange, is_signed, width, if_true, signed] at hx ⊢
    omega
  | l =>
    simp only [InRange, is_signed, width, if_true, ne_eq, not_true_eq_false, and_false, if_false, true_and] at hx ⊢
    by_cases hneg : x.toInt < 0
    · rw [if_pos hneg, ← Int64.ofInt_eq_ofNat]
      exact congrArg Int64.ofInt (by omega)
    · rw [if_neg hneg]
      exact ofNat_eq (by omega)

theorem read_bytes_iff (d : IntDirective) {x : Int64} (hx : d.InRange x) :
    d.read (d.bytes x) = x ↔ (d = l → 0 ≤ x.toInt) := by
  rw [d.read_bytes hx]
  by_cases hneg : d = l ∧ x.toInt < 0
  · rw [if_pos hneg]
    refine iff_of_false (fun heq => ?_) (fun h => absurd (h hneg.1) (by omega))
    have hint := congrArg Int64.toInt heq
    have hlow := x.minValue_le_toInt
    rw [Int64.toInt_ofInt_of_le (by simp [InRange, hneg.1, is_signed, width] at hx; omega) (by omega)] at hint
    omega
  · rw [if_neg hneg]
    exact iff_of_true rfl fun h => Int.not_lt.mp fun hlt => hneg ⟨h, hlt⟩

end IntDirective

namespace PackBuffer

/-- The buffer is large enough to grow in time. -/
structure Fits (b : PackBuffer) : Prop where
  room : b.bytes.length ≤ b.cap
  large : 8 ≤ b.cap

theorem Fits.put {b : PackBuffer} (h : b.Fits) {bytes : List UInt8} (hlength : bytes.length ≤ 8) :
    ∃ b', b.grow_once.put bytes = some b' ∧ b'.Fits ∧ b'.bytes = b.bytes ++ bytes := by
  obtain ⟨hroom, hlarge⟩ := h
  have hgrown : b.grow_once.bytes = b.bytes ∧ b.bytes.length + 8 ≤ b.grow_once.cap ∧ 8 ≤ b.grow_once.cap := by
    rw [grow_once]
    split
    · exact ⟨rfl, by simp only; omega, by simp only; omega⟩
    · exact ⟨rfl, by omega, hlarge⟩
  obtain ⟨hbytes, hcap, hlarge⟩ := hgrown
  refine ⟨{ b.grow_once with bytes := b.bytes ++ bytes }, ?_, ⟨?_, hlarge⟩, rfl⟩
  · rw [PackBuffer.put, hbytes, if_pos (by omega)]
  · simp only [List.length_append]
    omega

end PackBuffer

section
variable (singles : Singles)

/-- The bytes of some integers. -/
def IntDirective.all_bytes (d : IntDirective) (xs : List Int64) : List UInt8 := xs.flatMap d.bytes

theorem IntDirective.length_all_bytes (d : IntDirective) (xs : List Int64) :
    (d.all_bytes xs).length = xs.length * d.width := by
  induction xs with
  | nil => simp [all_bytes]
  | cons x xs ih =>
    rw [all_bytes, List.flatMap_cons, List.length_append, d.length_bytes, ← all_bytes, ih, List.length_cons, Nat.succ_mul,
      Nat.add_comm]

/-- A directive packs as many integers as its count says and there are. -/
theorem pack_times_ints (d : IntDirective) (count : Nat) (xs : List Int64) {b : PackBuffer} (hb : b.Fits) :
    ∃ b', pack_times singles d.letter count (xs.map .int) b = some ((xs.drop count).map .int, b') ∧ b'.Fits ∧
      b'.bytes = b.bytes ++ d.all_bytes (xs.take count) := by
  induction count generalizing xs b with
  | zero => exact ⟨b, rfl, hb, by simp [IntDirective.all_bytes]⟩
  | succ count ih =>
    cases xs with
    | nil => exact ⟨b, rfl, hb, by simp [IntDirective.all_bytes]⟩
    | cons x xs =>
      have hwidth : d.width ≤ 8 := by cases d <;> decide
      obtain ⟨b₁, hput, hb₁, hbytes₁⟩ := @PackBuffer.Fits.put _ hb (d.bytes x) (by rwa [d.length_bytes])
      obtain ⟨b₂, hrest, hb₂, hbytes₂⟩ := ih xs hb₁
      refine ⟨b₂, ?_, hb₂, ?_⟩
      · rw [List.map_cons, pack_times, d.pack_value_int, hput]
        exact hrest
      · rw [hbytes₂, hbytes₁, List.append_assoc]
        rfl

theorem unpack_times_succ (dir : Char) (count : Nat) {s : List UInt8} (hs : s ≠ []) :
    unpack_times singles dir (count + 1) s =
      ((unpack_value singles dir s).1 ++ (unpack_times singles dir count (unpack_value singles dir s).2).1,
        (unpack_times singles dir count (unpack_value singles dir s).2).2) := by
  cases s with
  | nil => exact absurd rfl hs
  | cons first rest => rfl

/-- What is unpacked: one integer for every so many bytes, as often as the count says. -/
theorem unpack_times_length (d : IntDirective) (count : Nat) (s : List UInt8) :
    (unpack_times singles d.letter count s).1.length ≤ count ∧
      (unpack_times singles d.letter count s).1.length * d.width + (unpack_times singles d.letter count s).2.length =
        s.length := by
  induction count generalizing s with
  | zero => simp [unpack_times]
  | succ count ih =>
    by_cases hs : s = []
    · simp [hs, unpack_times]
    · rw [unpack_times_succ singles _ _ hs]
      by_cases hlength : d.width ≤ s.length
      · obtain ⟨hcount, hbytes⟩ := ih (s.drop d.width)
        rw [d.unpack_value_enough singles hlength]
        simp only [List.length_append, List.length_singleton, List.length_drop] at hcount hbytes ⊢
        refine ⟨by omega, ?_⟩
        rw [Nat.add_mul, Nat.one_mul]
        omega
      · obtain ⟨hcount, hbytes⟩ := ih s
        rw [d.unpack_value_short singles hs (by omega)]
        exact ⟨Nat.le_succ_of_le hcount, hbytes⟩

/-- Bytes of integers are unpacked as far as the count goes. -/
theorem unpack_times_ints (d : IntDirective) {count : Nat} {xs : List Int64} {rest : List UInt8}
    (h : count ≤ xs.length ∨ rest = []) :
    unpack_times singles d.letter count (d.all_bytes xs ++ rest) =
      ((xs.take count).map fun x => .int (d.read (d.bytes x)), d.all_bytes (xs.drop count) ++ rest) := by
  induction count generalizing xs with
  | zero => simp [unpack_times]
  | succ count ih =>
    cases xs with
    | nil =>
      have hrest : rest = [] := h.resolve_left (Nat.not_succ_le_zero count)
      simp [hrest, IntDirective.all_bytes, unpack_times]
    | cons x xs =>
      have hbytes : d.all_bytes (x :: xs) ++ rest = d.bytes x ++ (d.all_bytes xs ++ rest) := by
        rw [← List.append_assoc]
        rfl
      have hlength : d.width ≤ (d.bytes x ++ (d.all_bytes xs ++ rest)).length := by
        rw [List.length_append, d.length_bytes]
        omega
      have hne : d.bytes x ++ (d.all_bytes xs ++ rest) ≠ [] :=
        List.length_pos_iff.mp (Nat.lt_of_lt_of_le d.width_pos hlength)
      have hrest : count ≤ xs.length ∨ rest = [] := h.imp_left Nat.le_of_succ_le_succ
      rw [hbytes, unpack_times_succ singles _ _ hne, d.unpack_value_enough singles hlength,
        List.take_left' (d.length_bytes x), List.drop_left' (d.length_bytes x), ih hrest]
      rfl

theorem unpack_times_nil (dir : Char) (count : Nat) : unpack_times singles dir count [] = ([], []) := by
  cases count with
  | zero => rfl
  | succ => rfl

theorem unpack_all_nil (ds : List (Char × Count)) : unpack_all singles ds [] = [] := by
  cases ds with
  | nil => rfl
  | cons => rfl

theorem letter_ne_hex (d : IntDirective) : ¬ (d.letter = 'H' ∨ d.letter = 'h') := by cases d <;> decide

theorem unpack_all_star (d : IntDirective) (s : List UInt8) :
    unpack_all singles [(d.letter, .star)] s = unpack_vals singles d.letter (to_int s.length).toNat s := by
  by_cases hs : s = []
  · generalize (to_int s.length).toNat = count
    rw [hs, unpack_vals, unpack_times_nil, unpack_all_nil]
  · rw [unpack_all, if_neg (by simpa using hs), if_neg (letter_ne_hex d)]

theorem unpack_all_times (d : IntDirective) (count : Int) (ds : List (Char × Count)) (s : List UInt8) :
    unpack_all singles ((d.letter, .times count) :: ds) s =
      (unpack_times singles d.letter count.toNat s).1 ++
        unpack_all singles ds (unpack_times singles d.letter count.toNat s).2 := by
  by_cases hs : s = []
  · rw [hs, unpack_times_nil, unpack_all_nil, unpack_all_nil, List.append_nil]
  · rw [unpack_all, if_neg (by simpa using hs), if_neg (letter_ne_hex d)]

end

/-- An array survives being packed and unpacked with a template. -/
def RoundTrips (singles : Singles) (tmpl : List Char) (xs : List Int64) : Prop :=
  ∃ s, dispatch_pack singles (xs.map .int) [val_string (String.ofList tmpl)] = some (.ok s) ∧
    dispatch_unpack singles s [val_string (String.ofList tmpl)] = xs.map .int

theorem bytes_of_text (bytes : List UInt8) : bytes_of (text_of_bytes bytes) = bytes := by
  have hbyte (b : UInt8) : UInt8.ofNat (char_of b).toNat = b := by rw [char_of_toNat, UInt8.ofNat_toNat]
  rw [bytes_of, text_of_bytes, String.toList_ofList, List.map_map]
  exact (List.map_congr_left fun b _ => hbyte b).trans (List.map_id bytes)

theorem c_bytes_text (bytes : List UInt8) : c_bytes (text_of_bytes bytes) = bytes.takeWhile (· ≠ 0) := by
  rw [c_bytes, bytes_of_text]

/-- What is unpacked is what stands before the first NUL byte. -/
theorem roundTrips_iff {singles : Singles} {tmpl : List Char} (htmpl : ∀ c ∈ tmpl, c ≠ '\x00') (xs : List Int64) :
    RoundTrips singles tmpl xs ↔ ∃ bytes, pack singles (xs.map .int) tmpl = some bytes ∧
      unpack singles (bytes.takeWhile (· ≠ 0)) tmpl = xs.map .int := by
  have hc : (c_string (String.ofList tmpl)).toList = tmpl := by
    rw [c_string, String.toList_ofList, String.toList_ofList]
    exact List.takeWhile_eq_self_iff.mpr (by simpa using htmpl)
  simp only [RoundTrips, dispatch_pack, dispatch_unpack, val_string, hc, Option.map_eq_some_iff, Except.ok.injEq]
  constructor
  · rintro ⟨s, ⟨bytes, hpack, rfl⟩, hunpack⟩
    exact ⟨bytes, hpack, by rwa [c_bytes_text] at hunpack⟩
  · rintro ⟨bytes, hpack, hunpack⟩
    exact ⟨text_of_bytes bytes, ⟨bytes, hpack, rfl⟩, by rwa [c_bytes_text]⟩

/-- Nothing is cut off where no byte is NUL. -/
theorem takeWhile_length_iff (bytes : List UInt8) :
    bytes.length ≤ (bytes.takeWhile (· ≠ 0)).length ↔ ∀ b ∈ bytes, b ≠ 0 := by
  have hprefix := List.takeWhile_prefix (fun b : UInt8 => decide (b ≠ 0)) (l := bytes)
  constructor
  · intro hlength
    have hall := hprefix.eq_of_length_le hlength
    simpa using List.takeWhile_eq_self_iff.mp hall
  · intro hall
    rw [List.takeWhile_eq_self_iff.mpr (by simpa using hall)]

theorem to_int_toNat_le (n : Nat) : (to_int n).toNat ≤ n := by
  rw [to_int, Int.bmod]
  split <;> omega

theorem to_int_of_lt {n : Nat} (h : n < 2 ^ 31) : (to_int n).toNat = n := by
  rw [to_int, Int.bmod]
  split <;> omega

theorem le_to_int {n m : Nat} (h : n ≤ (to_int (n * m : Nat)).toNat) : (n : Int) ≤ to_int (n * m : Nat) := by
  cases n with
  | zero =>
    rw [to_int, Int.bmod, Nat.zero_mul]
    decide
  | succ n => omega

theorem lt_of_le_to_int {n : Nat} {m : Int} (h : (n : Int) ≤ to_int m) : n < 2 ^ 31 := by
  rw [to_int, Int.bmod] at h
  split at h <;> omega

/-- Each integer is read back as it was, so far as no sign is lost. -/
theorem map_read_iff (d : IntDirective) {xs : List Int64} (hxs : ∀ x ∈ xs, d.InRange x) :
    xs.map (fun x => Value.int (d.read (d.bytes x))) = xs.map .int ↔ ∀ x ∈ xs, d = .l → 0 ≤ x.toInt := by
  rw [List.map_inj_left]
  refine forall₂_congr fun x hx => ?_
  rw [Value.int.injEq]
  exact d.read_bytes_iff (hxs x hx)

/-- The bytes the integers are packed as are no NUL bytes. -/
def NulFree (d : IntDirective) (xs : List Int64) : Prop := ∀ x ∈ xs, ∀ b ∈ d.bytes x, b ≠ 0

/-- No integer is negative where the sign is lost. -/
def SignKept (d : IntDirective) (xs : List Int64) : Prop := ∀ x ∈ xs, d = .l → 0 ≤ x.toInt

instance (d : IntDirective) (xs : List Int64) : Decidable (NulFree d xs) :=
  @List.decidableBAll _ _ (fun x => List.decidableBAll _ (d.bytes x)) xs

instance (d : IntDirective) (xs : List Int64) : Decidable (SignKept d xs) := List.decidableBAll _ xs

theorem nulFree_iff (d : IntDirective) (xs : List Int64) : NulFree d xs ↔ ∀ b ∈ d.all_bytes xs, b ≠ 0 := by
  simp only [NulFree, IntDirective.all_bytes, List.mem_flatMap, forall_exists_index, and_imp]
  exact ⟨fun h b x hx hb => h x hx b hb, fun h x hx b hb => h b x hx hb⟩

theorem pack_fits (n : Nat) : ({ cap := n + 16, bytes := [] } : PackBuffer).Fits where
  room := Nat.zero_le _
  large := by simp only; omega

theorem pack_star (singles : Singles) (d : IntDirective) {xs : List Int64} {count : Nat}
    (h : (to_int xs.length).toNat = count) :
    pack singles (xs.map .int) [d.letter, '*'] = some (d.all_bytes (xs.take count)) := by
  have hdirectives : directives [d.letter, '*'] = [(d.letter, .star)] := rfl
  obtain ⟨b, hpack, -, hbytes⟩ := pack_times_ints singles d count xs (pack_fits xs.length)
  rw [pack, hdirectives, pack_all, pack_rest, List.length_map, h, hpack]
  exact congrArg some hbytes

/-- A directive for all integers. -/
theorem star_roundTrips_iff (singles : Singles) (d : IntDirective) {xs : List Int64} (hxs : ∀ x ∈ xs, d.InRange x) :
    RoundTrips singles [d.letter, '*'] xs ↔
      NulFree d xs ∧ SignKept d xs ∧ (xs.length : Int) ≤ to_int (xs.length * d.width : Nat) := by
  have hletter : d.letter ≠ '\x00' := by cases d <;> decide
  have htmpl : ∀ c ∈ [d.letter, '*'], c ≠ '\x00' :=
    List.forall_mem_cons.mpr ⟨hletter, List.forall_mem_singleton.mpr (by decide)⟩
  have hdirectives : directives [d.letter, '*'] = [(d.letter, .star)] := rfl
  have hpos := d.width_pos
  simp only [roundTrips_iff htmpl, unpack, hdirectives, unpack_all_star]
  constructor
  · rintro ⟨packed, hpack, hunpack⟩
    generalize hcount : (to_int xs.length).toNat = count at *
    rw [pack_star singles d hcount, Option.some.injEq] at hpack
    subst hpack
    generalize hturns : (to_int ((d.all_bytes (xs.take count)).takeWhile (· ≠ 0)).length).toNat = turns at hunpack
    rw [unpack_vals] at hunpack
    obtain ⟨hmany, hbytes⟩ := unpack_times_length singles d turns ((d.all_bytes (xs.take count)).takeWhile (· ≠ 0))
    rw [hunpack, List.length_map] at hmany hbytes
    -- as many integers take all the bytes, so that none were lost on the way
    have hlength := d.length_all_bytes (xs.take count)
    have hcut := (List.takeWhile_prefix (fun b : UInt8 => decide (b ≠ 0)) (l := d.all_bytes (xs.take count))).length_le
    have htaken : xs.length * d.width ≤ (xs.take count).length * d.width := by omega
    have hall : xs.take count = xs := by
      refine List.take_of_length_le ?_
      have hle := Nat.le_of_mul_le_mul_right htaken hpos
      rw [List.length_take] at hle
      omega
    rw [hall] at hunpack hturns hlength hbytes hcut
    have hnul : ∀ b ∈ d.all_bytes xs, b ≠ 0 := (takeWhile_length_iff _).mp (by omega)
    rw [List.takeWhile_eq_self_iff.mpr (by simpa using hnul), ← List.append_nil (d.all_bytes xs),
      unpack_times_ints singles d (.inr rfl), List.take_of_length_le hmany] at hunpack
    refine ⟨(nulFree_iff d xs).mpr hnul, (map_read_iff d hxs).mp hunpack, ?_⟩
    rw [List.takeWhile_eq_self_iff.mpr (by simpa using hnul), hlength] at hturns
    exact le_to_int (by omega)
  · rintro ⟨hnul, hsign, hlength⟩
    have hshort := lt_of_le_to_int hlength
    refine ⟨_, pack_star singles d (to_int_of_lt hshort), ?_⟩
    rw [List.take_length, List.takeWhile_eq_self_iff.mpr (by simpa using (nulFree_iff d xs).mp hnul),
      d.length_all_bytes]
    generalize to_int (xs.length * d.width : Nat) = turns at hlength
    rw [unpack_vals, ← List.append_nil (d.all_bytes xs), unpack_times_ints singles d (.inr rfl),
      List.take_of_length_le (by omega)]
    exact (map_read_iff d hxs).mpr hsign

/-- The number a row of digits stands for. -/
def decimal (digits : List Char) : Nat := digits.foldl (fun n c => n * 10 + (c.toNat - '0'.toNat)) 0

/-- A counted directive with the integers it is for. -/
structure Chunk where
  directive : IntDirective
  digits : List Char
  ints : List Int64
  counted : digits ≠ [] ∧ ∀ c ∈ digits, c.isDigit = true
  counts : decimal digits = ints.length
  in_range : ∀ x ∈ ints, directive.InRange x

def Chunk.text (chunk : Chunk) : List Char := chunk.directive.letter :: chunk.digits

theorem to_int_step (n : Int) (digit : Int) : to_int (to_int n * 10 + digit) = to_int (n * 10 + digit) := by
  rw [to_int, to_int, to_int, ← Int.bmod_add_bmod, Int.bmod_mul_bmod, Int.bmod_add_bmod]

theorem scan_digit (dir : Char) (k : Int) {c : Char} (hc : c.isDigit = true) (rest : List Char) :
    scan_template (some (dir, some k)) (c :: rest) =
      scan_template (some (dir, some (to_int (k * 10 + (c.toNat - '0'.toNat))))) rest := by
  rw [scan_template, if_neg (by simp), if_pos hc, Option.getD_some]

/-- A count ends where no digit follows. -/
theorem scan_counted (dir : Char) (k : Int) {rest : List Char} (hrest : ∀ c ∈ rest.head?, c.isDigit = false) :
    scan_template (some (dir, some k)) rest = (dir, .times k) :: scan_template none rest := by
  cases rest with
  | nil => rfl
  | cons c rest => simp [scan_template, hrest c rfl]

theorem digit_value {c : Char} (hc : c.isDigit = true) (n : Nat) :
    ((n * 10 + (c.toNat - '0'.toNat) : Nat) : Int) = n * 10 + (c.toNat - '0'.toNat) := by
  simp only [Char.isDigit, Bool.and_eq_true, decide_eq_true_eq] at hc
  have hlow : '0'.toNat ≤ c.toNat := hc.1
  omega

/-- Digits are counted up, as far as the counter goes. -/
theorem scan_digits (dir : Char) {digits rest : List Char} (hdigits : ∀ c ∈ digits, c.isDigit = true)
    (hrest : ∀ c ∈ rest.head?, c.isDigit = false) {n : Nat} {k count : Int} (hk : k = to_int n)
    (hcount : count = to_int (digits.foldl (fun n c => n * 10 + (c.toNat - '0'.toNat)) n : Nat)) :
    scan_template (some (dir, some k)) (digits ++ rest) = (dir, .times count) :: scan_template none rest := by
  induction digits generalizing n k with
  | nil =>
    obtain rfl : k = count := hk.trans hcount.symm
    exact scan_counted dir k hrest
  | cons c digits ih =>
    have hc : c.isDigit = true := hdigits c (List.mem_cons_self ..)
    rw [List.cons_append, scan_digit dir k hc]
    refine ih (fun other h => hdigits other (List.mem_cons_of_mem _ h)) ?_ hcount
    rw [hk, to_int_step, digit_value hc]

theorem letter_not_digit (d : IntDirective) : d.letter.isDigit = false := by cases d <;> decide

theorem scan_chunk (chunk : Chunk) {rest : List Char} (hrest : ∀ c ∈ rest.head?, c.isDigit = false) :
    directives (chunk.text ++ rest) =
      (chunk.directive.letter, .times (to_int chunk.ints.length)) :: directives rest := by
  obtain ⟨hne, hdigits⟩ := chunk.counted
  obtain ⟨c, digits, hcons⟩ := List.exists_cons_of_ne_nil hne
  have hc : c.isDigit = true := hdigits c (by rw [hcons]; exact List.mem_cons_self ..)
  have hstar : ¬ (c = '*' ∧ (none : Option Int) = none) := by
    rintro ⟨rfl, -⟩
    revert hc
    decide
  have hzero : (none : Option Int).getD 0 * 10 + (c.toNat - '0'.toNat) = ((0 * 10 + (c.toNat - '0'.toNat) : Nat) : Int) :=
    (digit_value hc 0).symm
  have hvalue : to_int chunk.ints.length =
      to_int (digits.foldl (fun n c => n * 10 + (c.toNat - '0'.toNat)) (0 * 10 + (c.toNat - '0'.toNat)) : Nat) := by
    rw [← chunk.counts, decimal, hcons, List.foldl_cons]
  rw [directives, Chunk.text, List.cons_append, scan_template, hcons, List.cons_append, scan_template, if_neg hstar,
    if_pos hc, directives]
  exact scan_digits _ (fun other h => hdigits other (by rw [hcons]; exact List.mem_cons_of_mem _ h)) hrest
    (congrArg to_int hzero) hvalue

/-- The template of some counted directives, and the integers they are for. -/
def template (chunks : List Chunk) : List Char := chunks.flatMap Chunk.text
def all_ints (chunks : List Chunk) : List Int64 := chunks.flatMap Chunk.ints

theorem directives_template (chunks : List Chunk) :
    directives (template chunks) =
      chunks.map fun chunk => (chunk.directive.letter, .times (to_int chunk.ints.length)) := by
  induction chunks with
  | nil => rfl
  | cons chunk chunks ih =>
    have hrest : ∀ c ∈ (template chunks).head?, c.isDigit = false := by
      cases chunks with
      | nil => exact nofun
      | cons other chunks =>
        rintro c ⟨⟩
        exact letter_not_digit other.directive
    rw [template, List.flatMap_cons, ← template, scan_chunk chunk hrest, ih, List.map_cons]

theorem lt_of_le_turns {n : Nat} (h : n ≤ (to_int n).toNat) : n < 2 ^ 31 := by
  by_cases hzero : n = 0
  · omega
  · exact lt_of_le_to_int (m := n) (by omega)

section
variable (singles : Singles)

/-- The directives of some chunks. -/
def counted (chunks : List Chunk) : List (Char × Count) :=
  chunks.map fun chunk => (chunk.directive.letter, .times (to_int chunk.ints.length))

/-- The bytes of all chunks. -/
def packed (chunks : List Chunk) : List UInt8 := chunks.flatMap fun chunk => chunk.directive.all_bytes chunk.ints

/-- The counters of a template hold its counts. -/
def Countable (chunks : List Chunk) : Prop := ∀ chunk ∈ chunks, chunk.ints.length < 2 ^ 31

theorem counted_cons (chunk : Chunk) (chunks : List Chunk) :
    counted (chunk :: chunks) = (chunk.directive.letter, .times (to_int chunk.ints.length)) :: counted chunks := by
  rw [counted, List.map_cons, ← counted]

/-- From too few bytes, or with counters that wrap, fewer integers are unpacked than were packed. -/
theorem unpack_counted_length (chunks : List Chunk) (s : List UInt8) :
    (unpack_all singles (counted chunks) s).length ≤ (all_ints chunks).length ∧
      ((unpack_all singles (counted chunks) s).length = (all_ints chunks).length →
        Countable chunks ∧ (packed chunks).length ≤ s.length) := by
  induction chunks generalizing s with
  | nil => exact ⟨Nat.le_refl 0, fun _ => ⟨nofun, Nat.zero_le _⟩⟩
  | cons chunk chunks ih =>
    have hturns := to_int_toNat_le chunk.ints.length
    have hwrap := lt_of_le_turns (n := chunk.ints.length)
    rw [counted_cons, unpack_all_times]
    generalize (to_int chunk.ints.length).toNat = turns at hturns hwrap
    obtain ⟨hmany, hbytes⟩ := unpack_times_length singles chunk.directive turns s
    obtain ⟨hrest, hall⟩ := ih (unpack_times singles chunk.directive.letter turns s).2
    have hints : (all_ints (chunk :: chunks)).length = chunk.ints.length + (all_ints chunks).length := by
      rw [all_ints, List.flatMap_cons, List.length_append, ← all_ints]
    rw [List.length_append, hints]
    refine ⟨by omega, fun hlength => ?_⟩
    obtain ⟨hcountable, hpacked⟩ := hall (by omega)
    constructor
    · intro other hother
      rcases List.mem_cons.mp hother with rfl | hother
      · exact hwrap (by omega)
      · exact hcountable other hother
    · have htaken : (unpack_times singles chunk.directive.letter turns s).1.length = chunk.ints.length := by omega
      rw [htaken] at hbytes
      rw [packed, List.flatMap_cons, List.length_append, ← packed, chunk.directive.length_all_bytes]
      omega

theorem pack_counted {chunks : List Chunk} (h : Countable chunks) {b : PackBuffer} (hb : b.Fits) :
    ∃ b', pack_all singles (counted chunks) ((all_ints chunks).map .int) b = some b' ∧ b'.bytes = b.bytes ++ packed chunks := by
  induction chunks generalizing b with
  | nil => exact ⟨b, rfl, (List.append_nil _).symm⟩
  | cons chunk chunks ih =>
    have hturns := to_int_of_lt (h chunk (List.mem_cons_self ..))
    have hints : all_ints (chunk :: chunks) = chunk.ints ++ all_ints chunks := List.flatMap_cons
    obtain ⟨b₁, hfirst, hb₁, hbytes₁⟩ :=
      pack_times_ints singles chunk.directive chunk.ints.length (chunk.ints ++ all_ints chunks) hb
    rw [List.drop_left] at hfirst
    rw [List.take_left] at hbytes₁
    obtain ⟨b₂, hrest, hbytes₂⟩ := ih (fun other hother => h other (List.mem_cons_of_mem _ hother)) hb₁
    refine ⟨b₂, ?_, ?_⟩
    · rw [counted_cons, pack_all, hturns, hints, hfirst]
      exact hrest
    · rw [hbytes₂, hbytes₁, List.append_assoc, packed, packed, List.flatMap_cons]

theorem unpack_counted {chunks : List Chunk} (h : Countable chunks) :
    unpack_all singles (counted chunks) (packed chunks) =
      chunks.flatMap fun chunk => chunk.ints.map fun x => .int (chunk.directive.read (chunk.directive.bytes x)) := by
  induction chunks with
  | nil => rfl
  | cons chunk chunks ih =>
    have hturns := to_int_of_lt (h chunk (List.mem_cons_self ..))
    rw [counted_cons, unpack_all_times, hturns, packed, List.flatMap_cons, ← packed,
      unpack_times_ints singles chunk.directive (.inl (Nat.le_refl _)), List.take_length, List.drop_length,
      List.flatMap_cons]
    exact congrArg _ (ih fun other hother => h other (List.mem_cons_of_mem _ hother))

end

/-- A list that is a concatenation of as long parts is equal part by part. -/
theorem flatMap_eq_iff {α β : Type} {f g : α → List β} (xs : List α) (hlength : ∀ x ∈ xs, (f x).length = (g x).length) :
    xs.flatMap f = xs.flatMap g ↔ ∀ x ∈ xs, f x = g x := by
  induction xs with
  | nil => simp
  | cons x xs ih =>
    rw [List.flatMap_cons, List.flatMap_cons, List.forall_mem_cons,
      ← ih fun y hy => hlength y (List.mem_cons_of_mem _ hy)]
    exact ⟨fun h => List.append_inj h (hlength x (List.mem_cons_self ..)), fun ⟨hx, hxs⟩ => by rw [hx, hxs]⟩

theorem template_text {chunks : List Chunk} : ∀ c ∈ template chunks, c ≠ '\x00' := by
  intro c hc
  obtain ⟨chunk, -, hc⟩ := List.mem_flatMap.mp hc
  rcases List.mem_cons.mp hc with rfl | hc
  · cases chunk.directive <;> decide
  · rintro rfl
    exact absurd (chunk.counted.2 _ hc) (by decide)

/-- Counted directives for all integers. -/
theorem counted_roundTrips_iff (singles : Singles) (chunks : List Chunk) :
    RoundTrips singles (template chunks) (all_ints chunks) ↔
      ∀ chunk ∈ chunks, NulFree chunk.directive chunk.ints ∧ SignKept chunk.directive chunk.ints ∧
        chunk.ints.length < 2 ^ 31 := by
  have hpack (hcountable : Countable chunks) :
      pack singles ((all_ints chunks).map .int) (template chunks) = some (packed chunks) := by
    obtain ⟨b, hpack, hbytes⟩ := pack_counted singles hcountable (pack_fits (all_ints chunks).length)
    rw [pack, directives_template, List.length_map, ← counted, hpack]
    exact congrArg some hbytes
  have hnul : (∀ b ∈ packed chunks, b ≠ 0) ↔ ∀ chunk ∈ chunks, NulFree chunk.directive chunk.ints := by
    simp only [nulFree_iff, packed, List.mem_flatMap, forall_exists_index, and_imp]
    exact ⟨fun h chunk hchunk b hb => h b chunk hchunk hb, fun h b chunk hchunk hb => h chunk hchunk b hb⟩
  have hvals : (chunks.flatMap fun chunk =>
      chunk.ints.map fun x => Value.int (chunk.directive.read (chunk.directive.bytes x))) = (all_ints chunks).map .int ↔
        ∀ chunk ∈ chunks, SignKept chunk.directive chunk.ints := by
    rw [all_ints, List.map_flatMap, flatMap_eq_iff _ fun chunk _ => by rw [List.length_map, List.length_map]]
    exact forall₂_congr fun chunk _ => map_read_iff _ chunk.in_range
  rw [roundTrips_iff template_text]
  constructor
  · rintro ⟨bytes, hbytes, hunpack⟩
    rw [unpack, directives_template, ← counted] at hunpack
    have hlength := unpack_counted_length singles chunks (bytes.takeWhile (· ≠ 0))
    rw [hunpack, List.length_map] at hlength
    obtain ⟨hcountable, henough⟩ := hlength.2 rfl
    rw [hpack hcountable, Option.some.injEq] at hbytes
    subst hbytes
    have hnone := (takeWhile_length_iff _).mp henough
    rw [List.takeWhile_eq_self_iff.mpr (by simpa using hnone), unpack_counted singles hcountable] at hunpack
    exact fun chunk hchunk => ⟨hnul.mp hnone chunk hchunk, hvals.mp hunpack chunk hchunk, hcountable chunk hchunk⟩
  · intro h
    have hcountable : Countable chunks := fun chunk hchunk => (h chunk hchunk).2.2
    refine ⟨packed chunks, hpack hcountable, ?_⟩
    rw [unpack, directives_template, ← counted, List.takeWhile_eq_self_iff.mpr (by
      simpa using hnul.mpr fun chunk hchunk => (h chunk hchunk).1), unpack_counted singles hcountable]
    exact hvals.mpr fun chunk hchunk => (h chunk hchunk).2.1

/-- Arrays of integers survive packing exactly when no NUL byte is written, no
sign is lost, and the counters hold the counts. -/
theorem pack_roundTrips_iff (singles : Singles) :
    (∀ (d : IntDirective) (xs : List Int64), (∀ x ∈ xs, d.InRange x) →
      (RoundTrips singles [d.letter, '*'] xs ↔
        NulFree d xs ∧ SignKept d xs ∧ (xs.length : Int) ≤ to_int (xs.length * d.width : Nat))) ∧
    ∀ chunks : List Chunk, RoundTrips singles (template chunks) (all_ints chunks) ↔
      ∀ chunk ∈ chunks, NulFree chunk.directive chunk.ints ∧ SignKept chunk.directive chunk.ints ∧
        chunk.ints.length < 2 ^ 31 :=
  ⟨fun d _ hxs => star_roundTrips_iff singles d hxs, counted_roundTrips_iff singles⟩

def no_singles : Singles where
  narrow _ := 0
  widen _ := .of_int 0

/-- Two bytes that are not NUL survive. -/
theorem pack_roundTrips_two : RoundTrips no_singles ['S', '*'] [513, 258] :=
  ((pack_roundTrips_iff no_singles).1 .S [513, 258]
    (List.forall_mem_cons.mpr ⟨by decide, List.forall_mem_singleton.mpr (by decide)⟩)).mpr (by decide)

/-- `[5, 0, 7].pack("C*").unpack("C*")` is `[5]`, and `[-1].pack("l*").unpack("l*")` is `[4294967295]`. -/
theorem nul_ends_packed_text :
    ¬ RoundTrips no_singles ['C', '*'] [5, 0, 7] ∧ ¬ RoundTrips no_singles ['l', '*'] [-1] := by
  constructor
  · intro h
    have hrange : ∀ x ∈ ([5, 0, 7] : List Int64), IntDirective.C.InRange x :=
      List.forall_mem_cons.mpr ⟨by decide, List.forall_mem_cons.mpr ⟨by decide, List.forall_mem_singleton.mpr (by decide)⟩⟩
    exact absurd ((star_roundTrips_iff no_singles .C hrange).mp h).1 (by decide)
  · intro h
    have hrange : ∀ x ∈ ([-1] : List Int64), IntDirective.l.InRange x := List.forall_mem_singleton.mpr (by decide)
    exact absurd ((star_roundTrips_iff no_singles .l hrange).mp h).2.1 (by decide)

end stoned
