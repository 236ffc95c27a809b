import Stoned.Inspect
import Stoned.Value
import Stoned.Program.Bytes

namespace stoned

open program

/-! Array#pack and String#unpack (eval_dispatch_collections.c, eval_dispatch_primitives.c). -/

/-- Conversions between numbers of double and of single precision, these as their bits. -/
structure Singles where
  narrow : Double → UInt32
  widen : UInt32 → Double

/-- What follows a directive: `*`, or how many times it is applied. -/
inductive Count where
  | star
  | times (count : Int)

/-- The conversion to `int`, which wraps. -/
def to_int (n : Int) : Int := n.bmod (2 ^ 32)

/-- The directives of a template, read character by character. A directive that
has been read waits for its count. -/
def scan_template : Option (Char × Option Int) → List Char → List (Char × Count)
  | none, [] => []
  | none, dir :: tmpl => scan_template (some (dir, none)) tmpl
  | some (dir, count), [] => [(dir, .times (count.getD 1))]
  | some (dir, count), c :: tmpl =>
    if c = '*' ∧ count = none then (dir, .star) :: scan_template none tmpl
    else if c.isDigit then
      scan_template (some (dir, some (to_int (count.getD 0 * 10 + (c.toNat - '0'.toNat))))) tmpl
    else (dir, .times (count.getD 1)) :: scan_template (some (c, none)) tmpl

def directives (tmpl : List Char) : List (Char × Count) := scan_template none tmpl

/-- The bytes of a text; those the C string functions see end at the first NUL. -/
def bytes_of (s : String) : List UInt8 := s.toList.map fun c => UInt8.ofNat c.toNat
def c_bytes (s : String) : List UInt8 := (bytes_of s).takeWhile (· ≠ 0)
def text_of_bytes (s : List UInt8) : String := String.ofList (s.map char_of)

/-- The buffer a packed text is written to. -/
structure PackBuffer where
  cap : Nat
  bytes : List UInt8

namespace PackBuffer

/-- Fails outside the buffer. -/
def put (b : PackBuffer) (bytes : List UInt8) : Option PackBuffer :=
  if b.bytes.length + bytes.length ≤ b.cap then some { b with bytes := b.bytes ++ bytes } else none

def grow_once (b : PackBuffer) : PackBuffer :=
  if b.cap < b.bytes.length + 8 then { b with cap := b.cap * 2 } else b

/-- A capacity doubled until it is as large as needed. -/
def doubled (need cap : Nat) : Nat :=
  if 0 < cap ∧ cap < need then doubled need (cap * 2) else cap
termination_by need - cap

def grow_for (b : PackBuffer) (size : Nat) : PackBuffer := { b with cap := doubled (b.bytes.length + size) b.cap }

end PackBuffer

def int_of : Value → Int64
  | .int ival => ival
  | _ => 0

/-- The bits of an integer as an unsigned number. -/
def bits_of (v : Value) : Nat := (int_of v).toUInt64.toNat

def float_of : Value → Double
  | .float fval => fval
  | .int ival => .of_int ival
  | _ => .of_int 0

def packed_text : Value → List UInt8
  | .string sval .. => c_bytes sval
  | _ => []

section
variable (singles : Singles)

/-- Writes one value. A number copied from memory has its lowest byte first. -/
def pack_value (dir : Char) (v : Value) (b : PackBuffer) : Option PackBuffer :=
  match dir with
  | 'C' | 'c' => b.put [UInt8.ofNat (bits_of v)]
  | 'S' | 's' => b.put (le_bytes 2 (bits_of v))
  | 'L' | 'l' => b.put (le_bytes 4 (bits_of v))
  | 'Q' | 'q' => b.put (le_bytes 8 (bits_of v))
  | 'N' =>
    let n4 := bits_of v % 2 ^ 32
    b.put [UInt8.ofNat (n4 >>> 24), UInt8.ofNat (n4 >>> 16), UInt8.ofNat (n4 >>> 8), UInt8.ofNat n4]
  | 'n' =>
    let n2 := bits_of v % 2 ^ 16
    b.put [UInt8.ofNat (n2 >>> 8), UInt8.ofNat n2]
  | 'V' =>
    let n4 := bits_of v % 2 ^ 32
    b.put [UInt8.ofNat n4, UInt8.ofNat (n4 >>> 8), UInt8.ofNat (n4 >>> 16), UInt8.ofNat (n4 >>> 24)]
  | 'v' =>
    let n2 := bits_of v % 2 ^ 16
    b.put [UInt8.ofNat n2, UInt8.ofNat (n2 >>> 8)]
  | 'f' => b.put (le_bytes 4 (singles.narrow (float_of v)).toNat)
  | 'd' | 'D' => b.put (le_bytes 8 (float_of v).bits.toNat)
  | 'G' => b.put (le_bytes 8 (float_of v).bits.toNat).reverse
  | 'g' => b.put (le_bytes 4 (singles.narrow (float_of v)).toNat).reverse
  | 'A' | 'a' => (b.grow_for ((packed_text v).length + 2)).put (packed_text v)
  | 'Z' => (b.grow_for ((packed_text v).length + 2)).put (packed_text v ++ [0])
  | _ => some b

/-- Applies a directive to some of the values that are left. -/
def pack_times (dir : Char) : Nat → List Value → PackBuffer → Option (List Value × PackBuffer)
  | 0, elems, b => some (elems, b)
  | _ + 1, [], b => some ([], b)
  | count + 1, v :: elems, b => do
    let b ← pack_value singles dir v b.grow_once
    pack_times dir count elems b

/-- Applies a directive to all values that are left. -/
def pack_rest (dir : Char) (elems : List Value) (b : PackBuffer) : Option PackBuffer :=
  (pack_times singles dir (to_int elems.length).toNat elems b).map Prod.snd

def pack_all : List (Char × Count) → List Value → PackBuffer → Option PackBuffer
  | [], _, b => some b
  | (dir, .star) :: _, elems, b => pack_rest singles dir elems b
  | (dir, .times count) :: rest, elems, b => do
    let (elems, b) ← pack_times singles dir count.toNat elems b
    pack_all rest elems b

def pack (elems : List Value) (tmpl : List Char) : Option (List UInt8) := do
  let b ← pack_all singles (directives tmpl) elems { cap := elems.length + 16, bytes := [] }
  return b.bytes

/-- A number of `w` bytes as a signed one. -/
def signed (w n : Nat) : Int := if 2 * n < 256 ^ w then n else n - 256 ^ w

def hexchars : List Char := ['0', '1', '2', '3', '4', '5', '6', '7', '8', '9', 'a', 'b', 'c', 'd', 'e', 'f']

def hex_byte (b : UInt8) : List Char := [hexchars.getD (b.toNat / 16) '0', hexchars.getD (b.toNat % 16) '0']

/-- The bytes of a number of `w` bytes, if there are as many, and what is behind them. -/
def unpack_bytes (w : Nat) (s : List UInt8) (value : List UInt8 → Value) : List Value × List UInt8 :=
  if w ≤ s.length then ([value (s.take w)], s.drop w) else ([], s)

def byte_at (s : List UInt8) (i : Nat) : Nat := (s.getD i 0).toNat

/-- Reads one value off the front of the bytes. Both arms of the conditional for
`l` and `L` are converted to `uint32_t`, so that the sign is lost. -/
def unpack_value (dir : Char) (s : List UInt8) : List Value × List UInt8 :=
  match dir with
  | 'C' => ([.int (.ofNat (byte_at s 0))], s.drop 1)
  | 'c' => ([.int (.ofInt (signed 1 (byte_at s 0)))], s.drop 1)
  | 'S' => unpack_bytes 2 s fun b => .int (.ofNat (of_le b))
  | 's' => unpack_bytes 2 s fun b => .int (.ofInt (signed 2 (of_le b)))
  | 'L' | 'l' => unpack_bytes 4 s fun b => .int (.ofNat (of_le b))
  | 'Q' | 'q' => unpack_bytes 8 s fun b => .int (.ofInt (signed 8 (of_le b)))
  | 'N' => unpack_bytes 4 s fun b =>
    .int (.ofNat (byte_at b 0 <<< 24 ||| byte_at b 1 <<< 16 ||| byte_at b 2 <<< 8 ||| byte_at b 3))
  | 'n' => unpack_bytes 2 s fun b => .int (.ofNat (byte_at b 0 <<< 8 ||| byte_at b 1))
  | 'V' => unpack_bytes 4 s fun b =>
    .int (.ofNat (byte_at b 0 ||| byte_at b 1 <<< 8 ||| byte_at b 2 <<< 16 ||| byte_at b 3 <<< 24))
  | 'v' => unpack_bytes 2 s fun b => .int (.ofNat (byte_at b 0 ||| byte_at b 1 <<< 8))
  | 'f' => unpack_bytes 4 s fun b => .float (singles.widen (.ofNat (of_le b)))
  | 'd' | 'D' => unpack_bytes 8 s fun b => .float ⟨.ofNat (of_le b)⟩
  | 'G' => unpack_bytes 8 s fun b => .float ⟨.ofNat (of_le b.reverse)⟩
  | 'g' => unpack_bytes 4 s fun b => .float (singles.widen (.ofNat (of_le b.reverse)))
  | 'A' | 'a' | 'Z' =>
    let text := s.takeWhile (· ≠ 0)
    ([val_string (text_of_bytes text)], s.drop (text.length + 1))
  | _ => ([], s.drop 1)

/-- Applies a directive as long as there are bytes. -/
def unpack_times (dir : Char) : Nat → List UInt8 → List Value × List UInt8
  | 0, s => ([], s)
  | _ + 1, [] => ([], [])
  | count + 1, s =>
    let (first, s) := unpack_value singles dir s
    let (rest, s) := unpack_times dir count s
    (first ++ rest, s)

/-- The values a directive reads. -/
def unpack_vals (dir : Char) (count : Nat) (s : List UInt8) : List Value := (unpack_times singles dir count s).1

def unpack_all : List (Char × Count) → List UInt8 → List Value
  | [], _ => []
  | (dir, count) :: rest, s =>
    if s.isEmpty then []
    else if dir = 'H' ∨ dir = 'h' then
      let nbytes := match count with
        | .star => s.length
        | .times count => min count.toNat s.length
      val_string (String.ofList ((s.take nbytes).flatMap hex_byte)) :: unpack_all rest (s.drop nbytes)
    else match count with
      | .star => unpack_vals singles dir (to_int s.length).toNat s
      | .times count =>
        let (vals, s) := unpack_times singles dir count.toNat s
        vals ++ unpack_all rest s

def unpack (s : List UInt8) (tmpl : List Char) : List Value := unpack_all singles (directives tmpl) s

/-- `elems.pack(args)`: a text, or the class and message of an exception. -/
def dispatch_pack (elems : List Value) : List Value → Option (Except (String × String) String)
  | .string tmpl .. :: _ => (pack singles elems (c_string tmpl).toList).map fun bytes => .ok (text_of_bytes bytes)
  | _ => some (.error ("ArgumentError", "Array#pack requires a template string"))

/-- `recv.unpack(args)`. -/
def dispatch_unpack (recv : String) : List Value → List Value
  | .string tmpl .. :: _ => unpack singles (c_bytes recv) (c_string tmpl).toList
  | _ => []

def dispatch_unpack1 (recv : String) (args : List Value) : Value := (dispatch_unpack singles recv args).headD .nil

end
end stoned
