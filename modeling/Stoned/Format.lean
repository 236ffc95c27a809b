import Stoned.Numbers
import Stoned.Pack
import Stoned.Program.Printf

namespace stoned.format

open program printf

/-! Format strings (eval_support.c, eval_format_string). The end of a list of
bytes stands for the NUL behind a C string. -/

/-- How formatting ends without a text. -/
inductive Stop where
  | argument_error (message : String)
  | out_of_bounds
  deriving DecidableEq

/-- What formatting reads outside its arguments: the texts of values of the
heap and of doubles, the entries of hashes and the processor. -/
structure Host where
  to_s : Value → List UInt8
  hash_get : Ref → Value → Option Value
  fpu : Fpu

/-- The bytes that the C string functions see. -/
def c_str (s : List UInt8) : List UInt8 := s.takeWhile (· ≠ 0)

/-- The bytes of characters that stand for bytes. -/
def char_bytes (s : List Char) : List UInt8 := s.map fun c => UInt8.ofNat c.toNat

variable (host : Host)

def val_to_s : Value → List UInt8
  | .nil => []
  | .bool bval => ascii (if bval then "true" else "false")
  | .int ival => (conversion []).signed ival.toInt
  | .string sval .. | .symbol sval => bytes_of sval
  | .method .. => ascii "#<Method>"
  | .block .. => ascii "#<Proc>"
  | .float f => host.to_s (.float f)
  | .array a => host.to_s (.array a)
  | .hash h => host.to_s (.hash h)
  | .range b e exclusive => host.to_s (.range b e exclusive)
  | .klass k => host.to_s (.klass k)
  | .object o => host.to_s (.object o)
  | _ => ascii "#<?>"

def val_inspect : Value → List UInt8
  | .nil => ascii "nil"
  | .string sval _ encoding =>
    char_bytes (val_inspect_string (encoding = .ascii_8bit) (bytes_of sval))
  | .symbol sval => ascii ":" ++ bytes_of sval
  | v => val_to_s host v

/-! ### What is appended -/

/-- A part of the text. -/
inductive Piece where
  | literal (b : UInt8)
  | named (text : List UInt8)
  | string (c : Conversion) (text : List UInt8)
  | number (c : Conversion) (written : { s : List UInt8 // Plain s })
  | binary (written : { s : List UInt8 // Plain s })
  | char (c : Conversion) (b : UInt8)

/-- The bytes that are appended after a call of snprintf for `tmp`, which has
room for 4096 and keeps one for the NUL: as many as the call says there would
have been, from a position on that is outside if they are more than 4096. -/
def append_printed (c : Conversion) (written : List UInt8) : Option (List UInt8) :=
  let tmp := written.take 4095 ++ [0]
  -- snprintf fails: a negative number counts as none
  if ¬ c.InRange ∨ 2 ^ 31 ≤ written.length then some []
  else if written.length ≤ tmp.length then some (tmp.take written.length)
  else none

/-- The bytes that are appended for a part; nothing outside of a buffer. -/
def Piece.appended : Piece → Option (List UInt8)
  | .literal b => some [b]
  | .named text => some (c_str text)
  | .string c text => append_printed c (c.string (c_str text))
  | .number c written => append_printed c written
  -- written to `tmp` without a look at its size
  | .binary written => if written.val.length < 4096 then some written else none
  | .char c b => append_printed c (c.char b)

def integer_argument : Value → Int64
  | .int ival => ival
  | .float fval => host.fpu.to_int fval
  | _ => 0

def unsigned_argument : Value → UInt64
  | .int ival => ival.toUInt64
  | _ => 0

/-- The digits of %f, %e, %E, %g and %G. -/
def finite_double (c : Conversion) (type : Char) (x : Double) : List UInt8 :=
  let places := c.precision.getD 6
  match type with
  | 'f' => c.fixed false places x.magnitude (2 ^ 1074)
  | 'e' => c.scientific false false places x.magnitude (2 ^ 1074)
  | 'E' => c.scientific false true places x.magnitude (2 ^ 1074)
  | 'g' => c.general false x.magnitude (2 ^ 1074)
  | _ => c.general true x.magnitude (2 ^ 1074)

def double (c : Conversion) (type : Char) (x : Double) : List UInt8 :=
  let front := c.sign x.negative
  let name :=
    if type = 'E' || type = 'G' then if x.nan then "NAN" else "INF" else if x.nan then "nan" else "inf"
  if x.exponent = 2047 then c.pad_number false front (ascii name)
  else c.pad_number true front (finite_double c type x)

def binary_front (spec : List UInt8) (upper : Bool) (n : UInt64) : List UInt8 :=
  if '#'.toUInt8 ∈ spec ∧ n ≠ 0 then ascii (if upper then "0B" else "0b") else []

/-- The width at the beginning of a text, in an `int`. -/
def binary_width (s : List UInt8) : Int :=
  (s.takeWhile is_digit).foldl (fun width d => to_int (width * 10 + (d.toNat - 0x30 : Nat))) 0

/-- %b and %B, which have a reading of their own of the flags and the width. -/
def binary (spec : List UInt8) (upper : Bool) (n : UInt64) : List UInt8 :=
  let is_sign (b : UInt8) : Bool := b ∈ ascii "-+# "
  let left_align : Bool := '-'.toUInt8 ∈ spec.takeWhile is_sign
  let sp := spec.dropWhile is_sign
  let zeros := sp.headD 0 = '0'.toUInt8
  let width := binary_width (if zeros then sp.tail else sp)
  let front := binary_front spec upper n
  let bits := digits 2 false 1 n.toNat
  let pad := (width - (front.length + bits.length : Nat)).toNat
  if left_align then front ++ bits ++ List.replicate pad 0x20
  else if zeros then front ++ List.replicate pad 0x30 ++ bits
  else List.replicate pad 0x20 ++ front ++ bits

theorem plain_double (c : Conversion) (type : Char) (x : Double) : Plain (double c type x) := by
  have hfinite : Plain (finite_double c type x) := by
    unfold finite_double
    split
    · exact plain_fixed c _ _ _ _
    · exact plain_scientific c _ _ _ _ _
    · exact plain_scientific c _ _ _ _ _
    · exact plain_general c _ _ _
    · exact plain_general c _ _ _
  rw [double]
  split
  · refine plain_pad_number c _ (plain_sign c _) ?_
    split
    · split <;> decide
    · split <;> decide
  · exact plain_pad_number c _ (plain_sign c _) hfinite

theorem plain_binary (spec : List UInt8) (upper : Bool) (n : UInt64) : Plain (binary spec upper n) := by
  have hfront : Plain (binary_front spec upper n) := by
    rw [binary_front]
    split
    · cases upper <;> decide
    · exact plain_nil
  have hbits : Plain (digits 2 false 1 n.toNat) := plain_digits (by decide) _ _ _
  have hpad : ∀ n, Plain (List.replicate n 0x20) ∧ Plain (List.replicate n 0x30) := fun n =>
    ⟨plain_replicate n (by decide), plain_replicate n (by decide)⟩
  simp only [binary]
  split
  · simp only [plain_append, hfront, hbits, hpad, and_self]
  · split <;> simp only [plain_append, hfront, hbits, hpad, and_self]

/-- A directive: what stands between its `%` and its letter, as it is given to
printf, the letter and the argument. -/
structure Directive where
  spec : List UInt8
  type : UInt8
  value : Value

def Directive.unsupported (d : Directive) : Stop :=
  .argument_error (c_string ("unsupported format specifier '" ++ String.ofList [char_of d.type] ++ "'"))

def Directive.piece (d : Directive) : Except Stop Piece :=
  let c := conversion d.spec
  let unsigned := (unsigned_argument d.value).toNat
  let type := char_of d.type
  match type with
  | 's' => .ok (.string c (val_to_s host d.value))
  | 'p' => .ok (.string c (val_inspect host d.value))
  | 'd' | 'i' => .ok (.number c ⟨c.signed (integer_argument host d.value).toInt, plain_signed c _⟩)
  | 'u' => .ok (.number c ⟨c.unsigned unsigned, plain_unsigned c _⟩)
  | 'f' | 'e' | 'E' | 'g' | 'G' =>
    .ok (.number c ⟨double c type (double_operand d.value), plain_double c type _⟩)
  | 'x' => .ok (.number c ⟨c.hex false unsigned, plain_hex c _ _⟩)
  | 'X' => .ok (.number c ⟨c.hex true unsigned, plain_hex c _ _⟩)
  | 'o' => .ok (.number c ⟨c.octal unsigned, plain_octal c _⟩)
  | 'b' => .ok (.binary ⟨binary d.spec false (unsigned_argument d.value), plain_binary _ _ _⟩)
  | 'B' => .ok (.binary ⟨binary d.spec true (unsigned_argument d.value), plain_binary _ _ _⟩)
  | 'c' => .ok (.char c (.ofNat (unsigned % 256)))
  | _ => .error d.unsupported

/-! ### Reading a directive -/

/-- Digits as far as there is room for them, and what stands behind. -/
def copy_digits (room : Nat) (s : List UInt8) : List UInt8 × List UInt8 :=
  let copied := (s.takeWhile is_digit).take room
  (copied, s.drop copied.length)

/-- The key up to the byte that closes it, as far as there is room for it, and
what stands behind, unless the text ends before. -/
def reference (close : UInt8) (s : List UInt8) : Option (List UInt8 × List UInt8) :=
  let inside (b : UInt8) : Bool := b ≠ close ∧ b ≠ 0
  let kend := s.dropWhile inside
  if kend.headD 0 = close then some ((s.takeWhile inside).take 255, kend.tail) else none

/-- The value under a key of the single argument, if that is a hash. -/
def named_value (args : List Value) (key : List UInt8) : Value :=
  match args with
  | [.hash h] =>
    let sym_key := Value.symbol (text_of_bytes key)
    let str_key := Value.string (text_of_bytes key) false .utf8
    (host.hash_get h sym_key <|> host.hash_get h str_key).getD .nil
  | _ => .nil

/-- The flags, the width and the precision of a reference with a type, of which
65 bytes are kept, and what stands behind. -/
def mini_spec (s : List UInt8) : List UInt8 × List UInt8 :=
  let flags := (s.takeWhile is_flag).take 65
  let (width, s) := copy_digits (65 - flags.length) (s.dropWhile is_flag)
  let spec := flags ++ width
  if s.headD 0 = '.'.toUInt8 ∧ spec.length < 65 then
    let (precision, s) := copy_digits (64 - spec.length) s.tail
    (spec ++ '.'.toUInt8 :: precision, s)
  else (spec, s)

/-- `N$`: an index, or a negative number. The digits of a width are looked at
too. -/
def positional (s : List UInt8) : Int × List UInt8 :=
  let pos := (s.takeWhile is_digit).foldl (fun pos d => to_int (pos * 10 + (d.toNat - 0x30 : Nat))) 0
  let behind := s.dropWhile is_digit
  if is_digit (s.headD 0) ∧ behind.headD 0 = '$'.toUInt8 then (to_int (pos - 1), behind.tail) else (-1, s)

section arguments
variable (args : List Value)

def too_few : Stop := .argument_error "too few arguments for format string"

/-- The argument that a `*` stands for. -/
def star (argi : Nat) : Except Stop Int :=
  match args[argi]? with
  | some (.int ival) => .ok (to_int ival.toInt)
  | _ => .error too_few

def decimal (n : Int) : List UInt8 := (conversion []).signed n

-- `spec` is what stands behind the `%` in the array of 64, and goes on where
-- snprintf has cut a number: then the array is written outside of

def width (argi : Nat) (spec s : List UInt8) : Except Stop (List UInt8 × Nat × List UInt8) :=
  if s.headD 0 = '*'.toUInt8 then do
    let wv ← star args argi
    let spec := spec ++ decimal (if wv < 0 then to_int (-wv) else wv)
    return (if wv < 0 ∧ spec.length < 62 then '-'.toUInt8 :: spec else spec, argi + 1, s.tail)
  else
    let (digits, s) := copy_digits (62 - spec.length) s
    return (spec ++ digits, argi, s)

def precision (argi : Nat) (spec s : List UInt8) : Except Stop (List UInt8 × Nat × List UInt8) :=
  if s.headD 0 = '.'.toUInt8 then
    let spec := if spec.length < 62 then spec ++ ascii "." else spec
    if s.tail.headD 0 = '*'.toUInt8 then do
      let pv ← star args argi
      return (spec ++ decimal (max pv 0), argi + 1, s.tail.tail)
    else
      let (digits, s) := copy_digits (62 - spec.length) s.tail
      return (spec ++ digits, argi, s)
  else return (spec, argi, s)

/-- The argument at an index, or the next one. -/
def argument (value_arg_index : Int) (argi : Nat) : Except Stop (Value × Nat) :=
  if 0 ≤ value_arg_index then
    match args[value_arg_index.toNat]? with
    | some v => .ok (v, argi)
    | none => .error too_few
  else
    match args[argi]? with
    | some v => .ok (v, argi + 1)
    | none => .error too_few

def directive (argi : Nat) (s : List UInt8) : Except Stop (Directive × Nat × List UInt8) := do
  let (value_arg_index, s) := positional s
  let (spec, argi, s) ← width args argi ((s.takeWhile is_flag).take 62) (s.dropWhile is_flag)
  let (spec, argi, s) ← precision args argi spec s
  if 62 < spec.length then throw .out_of_bounds
  let (value, argi) ← argument args value_arg_index argi
  return ({ spec, type := s.headD 0, value }, argi, s.tail)

/-- What a `%` begins: a part, or a format string of its own for the value of a
reference with a type. -/
inductive Item where
  | piece (p : Piece)
  | typed (mini_fmt : List UInt8) (val : Value)

/-- The reading behind a `%`: the item, the next argument and the rest. -/
def read_item (argi : Nat) (s : List UInt8) : Except Stop (Item × Nat × List UInt8) := do
  if s.headD 0 = '%'.toUInt8 then return (.piece (.literal '%'.toUInt8), argi, s.tail)
  else if s.headD 0 = '{'.toUInt8 then
    match reference '}'.toUInt8 s.tail with
    | none => throw (.argument_error "malformed named reference: unclosed '\x7b'")
    | some (key, s) => return (.piece (.named (val_to_s host (named_value host args key))), argi, s)
  else if s.headD 0 = '<'.toUInt8 then
    match reference '>'.toUInt8 s.tail with
    | none => throw (.argument_error "malformed named reference: unclosed '<'")
    | some (key, s) =>
      let (spec, s) := mini_spec s
      if s.headD 0 = 0 then throw (.argument_error "malformed named reference: missing type")
      return (.typed ('%'.toUInt8 :: (spec ++ [s.headD 0])) (named_value host args key), argi, s.tail)
  else
    let (d, argi, s) ← directive args argi s
    return (.piece (← d.piece host), argi, s)

/-! What is read is in front of the rest. -/

theorem ok_of_bind {α β : Type} {x : Except Stop α} {f : α → Except Stop β} {b : β} (h : (x >>= f) = .ok b) :
    ∃ a, x = .ok a ∧ f a = .ok b := by
  cases x with
  | error e => cases h
  | ok a => exact ⟨a, rfl, h⟩

theorem eq_headD_tail {s : List UInt8} {b : UInt8} (h : s.headD 0 = b) (hb : b ≠ 0) : s = b :: s.tail := by
  cases s with
  | nil => exact absurd h.symm hb
  | cons c s => exact congrArg (· :: s) h

theorem copy_digits_append (room : Nat) (s : List UInt8) : (copy_digits room s).1 ++ (copy_digits room s).2 = s :=
  List.prefix_iff_eq_append.mp ((List.take_prefix _ _).trans (List.takeWhile_prefix _))

theorem copy_digits_suffix (room : Nat) (s : List UInt8) : (copy_digits room s).2 <:+ s :=
  ⟨_, copy_digits_append room s⟩

theorem copy_digits_digits {room : Nat} {s : List UInt8} {b : UInt8} (hb : b ∈ (copy_digits room s).1) :
    is_digit b = true :=
  List.mem_takeWhile_imp (List.mem_of_mem_take hb)

theorem reference_append {close : UInt8} {s key rest : List UInt8} (hclose : close ≠ 0)
    (h : reference close s = some (key, rest)) : ∃ front, s = front ++ close :: rest := by
  obtain ⟨hkend, h⟩ := Option.ite_none_right_eq_some.mp h
  obtain ⟨_, rfl⟩ := Prod.mk.inj (Option.some.inj h)
  exact ⟨_, List.takeWhile_append_dropWhile.symm.trans (congrArg _ (eq_headD_tail hkend hclose))⟩

/-- A byte of a width or a precision. -/
def SpecByte (b : UInt8) : Prop := is_flag b = true ∨ is_digit b = true ∨ b = '.'.toUInt8

theorem mini_spec_append (s : List UInt8) :
    ∃ front, s = front ++ (mini_spec s).2 ∧ (mini_spec s).1.length ≤ front.length ∧
      ∀ b ∈ (mini_spec s).1, SpecByte b := by
  have hflags : ∀ b ∈ (s.takeWhile is_flag).take 65, SpecByte b := fun b hb =>
    .inl (List.mem_takeWhile_imp (List.mem_of_mem_take hb))
  have hlength : ((s.takeWhile is_flag).take 65).length ≤ (s.takeWhile is_flag).length := List.length_take_le' _ _
  have hs : s = s.takeWhile is_flag ++ s.dropWhile is_flag := List.takeWhile_append_dropWhile.symm
  simp only [mini_spec]
  generalize s.takeWhile is_flag = taken at *
  generalize taken.take 65 = flags at *
  generalize s.dropWhile is_flag = behind at *
  have hwidth := copy_digits_append (65 - flags.length) behind
  have hdigits := @copy_digits_digits (65 - flags.length) behind
  generalize copy_digits (65 - flags.length) behind = width at *
  split
  case isTrue hpoint =>
    have hprecision := copy_digits_append (64 - (flags ++ width.1).length) width.2.tail
    have hmore := @copy_digits_digits (64 - (flags ++ width.1).length) width.2.tail
    generalize copy_digits (64 - (flags ++ width.1).length) width.2.tail = precision at *
    refine ⟨taken ++ width.1 ++ '.'.toUInt8 :: precision.1, ?_, ?_, ?_⟩
    · rw [List.append_assoc, List.cons_append, hprecision, ← eq_headD_tail hpoint.1 (by decide), List.append_assoc,
        hwidth, hs]
    · simp only [List.length_append, List.length_cons]
      omega
    · intro b hb
      simp only [List.mem_append, List.mem_cons] at hb
      obtain (hb | hb) | hb | hb := hb
      · exact hflags b hb
      · exact .inr (.inl (hdigits hb))
      · exact .inr (.inr hb)
      · exact .inr (.inl (hmore hb))
  case isFalse =>
    refine ⟨taken ++ width.1, ?_, ?_, ?_⟩
    · rw [List.append_assoc, hwidth, hs]
    · simp only [List.length_append]
      omega
    · intro b hb
      obtain hb | hb := List.mem_append.mp hb
      · exact hflags b hb
      · exact .inr (.inl (hdigits hb))

theorem width_suffix {args : List Value} {argi argi' : Nat} {spec spec' s rest : List UInt8}
    (h : width args argi spec s = .ok (spec', argi', rest)) : rest <:+ s := by
  rw [width] at h
  split at h
  · obtain ⟨_, _, h⟩ := ok_of_bind h
    cases h
    exact List.tail_suffix s
  · cases h
    exact copy_digits_suffix _ s

theorem precision_suffix {args : List Value} {argi argi' : Nat} {spec spec' s rest : List UInt8}
    (h : precision args argi spec s = .ok (spec', argi', rest)) : rest <:+ s := by
  simp only [precision] at h
  split at h
  · split at h
    · obtain ⟨_, _, h⟩ := ok_of_bind h
      cases h
      exact (List.tail_suffix _).trans (List.tail_suffix s)
    · cases h
      exact (copy_digits_suffix _ _).trans (List.tail_suffix s)
  · cases h
    exact List.suffix_rfl

theorem positional_suffix (s : List UInt8) : (positional s).2 <:+ s := by
  simp only [positional]
  split
  · exact (List.tail_suffix _).trans (List.dropWhile_suffix _)
  · exact List.suffix_rfl

/-- The letter of a directive is behind what else is read of it. -/
theorem directive_suffix {args : List Value} {argi argi' : Nat} {s rest : List UInt8} {d : Directive}
    (h : directive args argi s = .ok (d, argi', rest)) : ∃ t, t <:+ s ∧ d.type = t.headD 0 ∧ rest = t.tail := by
  obtain ⟨⟨spec, argi₁, s₁⟩, hwidth, h⟩ := ok_of_bind h
  obtain ⟨⟨spec', argi₂, s₂⟩, hprecision, h⟩ := ok_of_bind h
  have hs₂ : s₂ <:+ s :=
    (precision_suffix hprecision).trans ((width_suffix hwidth).trans ((List.dropWhile_suffix _).trans (positional_suffix s)))
  dsimp only at h
  split at h
  · cases h
  · obtain ⟨⟨value, argi₃⟩, _, h⟩ := ok_of_bind h
    cases h
    exact ⟨s₂, hs₂, rfl, rfl⟩

/-- The letters of directives, and the bytes that end what is no directive. -/
def last_bytes : List UInt8 := ascii "spdiufeEgGxXobBc%\x7d"

theorem last_bytes_ascii {b : UInt8} (hb : b ∈ last_bytes) : b ≠ 0 ∧ b < 0x80 := by
  have hall : last_bytes.all (fun b => b ≠ 0 && b < 0x80) = true := by decide
  simpa using List.all_eq_true.mp hall b hb

theorem type_of_piece {host : Host} {d : Directive} {p : Piece} (h : d.piece host = .ok p) : d.type ∈ last_bytes := by
  have htype : d.type = UInt8.ofNat (char_of d.type).toNat := by rw [char_of_toNat, UInt8.ofNat_toNat]
  simp only [Directive.piece] at h
  rw [htype]
  split at h
  all_goals first | (rename_i hchar; rw [hchar]; decide) | cases h

/-- How an item is written behind the `%`, the last byte apart. -/
inductive WrittenAs : Item → List UInt8 → UInt8 → Prop where
  | piece (p : Piece) (front : List UInt8) {last : UInt8} (mem : last ∈ last_bytes) : WrittenAs (.piece p) front last
  | typed {spec : List UInt8} (val : Value) {front : List UInt8} (type : UInt8) (longer : spec.length ≤ front.length)
      (bytes : ∀ b ∈ spec, SpecByte b) :
    WrittenAs (.typed ('%'.toUInt8 :: (spec ++ [type])) val) ('<'.toUInt8 :: front) type

theorem read_item_written {host : Host} {args : List Value} {argi argi' : Nat} {s rest : List UInt8} {item : Item}
    (h : read_item host args argi s = .ok (item, argi', rest)) :
    ∃ front last, s = front ++ last :: rest ∧ WrittenAs item front last := by
  rw [read_item] at h
  split at h
  case isTrue hhead =>
    cases h
    exact ⟨[], _, eq_headD_tail hhead (by decide), .piece _ _ (by decide)⟩
  split at h
  case isTrue hhead =>
    split at h
    case h_1 => cases h
    case h_2 key rest' hkey =>
      cases h
      obtain ⟨front, hfront⟩ := reference_append (by decide) hkey
      refine ⟨'{'.toUInt8 :: front, _, ?_, .piece _ _ (show '}'.toUInt8 ∈ last_bytes by decide)⟩
      rw [eq_headD_tail hhead (by decide), hfront]
      rfl
  split at h
  case isTrue hhead =>
    split at h
    case h_1 => cases h
    case h_2 key s' hkey =>
      obtain ⟨front, hfront⟩ := reference_append (by decide) hkey
      obtain ⟨more, hmore, hlength, hbytes⟩ := mini_spec_append s'
      simp only at h
      split at h
      case isTrue => cases h
      case isFalse htype =>
        cases h
        have hlonger : (mini_spec s').1.length ≤ (front ++ '>'.toUInt8 :: more).length := by
          simp only [List.length_cons, List.length_append]
          omega
        refine ⟨'<'.toUInt8 :: (front ++ '>'.toUInt8 :: more), _, ?_, .typed _ _ hlonger hbytes⟩
        rw [eq_headD_tail hhead (by decide), hfront]
        conv_lhs => rw [hmore, eq_headD_tail rfl htype]
        simp
  · obtain ⟨⟨d, argi₁, s₁⟩, hdirective, h⟩ := ok_of_bind h
    obtain ⟨p, hpiece, h⟩ := ok_of_bind h
    cases h
    obtain ⟨t, ⟨front, rfl⟩, htype, rfl⟩ := directive_suffix hdirective
    have hletter := type_of_piece hpiece
    refine ⟨front, d.type, ?_, .piece _ _ hletter⟩
    rw [htype, ← eq_headD_tail rfl (htype ▸ (last_bytes_ascii hletter).1)]

theorem read_item_rest {host : Host} {args : List Value} {argi argi' : Nat} {s rest : List UInt8} {item : Item}
    (h : read_item host args argi s = .ok (item, argi', rest)) : rest.length < s.length := by
  obtain ⟨front, last, rfl, _⟩ := read_item_written h
  simp only [List.length_append, List.length_cons]
  omega

theorem read_item_mini {host : Host} {args : List Value} {argi argi' : Nat} {s mini_fmt rest : List UInt8} {val : Value}
    (h : read_item host args argi s = .ok (.typed mini_fmt val, argi', rest)) : mini_fmt.length < s.length + 1 := by
  obtain ⟨front, last, rfl, hwritten⟩ := read_item_written h
  cases hwritten
  simp only [List.length_append, List.length_cons, List.length_nil]
  omega

end arguments

/-- The loop over the format string, with what is in the buffer, which becomes a
string at its first NUL. -/
def format_loop (args : List Value) (argi : Nat) (buf : List UInt8) : List UInt8 → Except Stop (List UInt8)
  | [] => .ok (c_str buf)
  | b :: s =>
    if b = 0 then .ok (c_str buf)
    else if b ≠ '%'.toUInt8 then format_loop args argi (buf ++ [b]) s
    else
      match _h : read_item host args argi s with
      | .error stop => .error stop
      | .ok (.piece p, argi, rest) =>
        match p.appended with
        | none => .error .out_of_bounds
        | some bytes => format_loop args argi (buf ++ bytes) rest
      | .ok (.typed mini_fmt val, argi, rest) =>
        match format_loop [val] 0 [] mini_fmt with
        | .error stop => .error stop
        | .ok sv => format_loop args argi (buf ++ sv) rest
termination_by s => s.length
decreasing_by
  · exact Nat.lt_succ_self _
  · exact Nat.lt_succ_of_lt (read_item_rest _h)
  · exact read_item_mini _h
  · exact Nat.lt_succ_of_lt (read_item_rest _h)

def eval_format_string (fmt : List UInt8) (args : List Value) : Except Stop (List UInt8) :=
  format_loop host args 0 [] fmt

end stoned.format
