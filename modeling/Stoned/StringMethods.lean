import Stoned.Matches
import Stoned.Utf8Index
import Stoned.Evaluator

namespace stoned.strings

open program format

/-! The methods of strings that have a second form, with a bang
(eval_dispatch_primitives.c, dispatch_string). -/

/-! ### Characters -/

def utf8_simple_upcase (cp : UInt32) : UInt32 :=
  if 97 ≤ cp ∧ cp ≤ 122 then cp - 32
  else if 0xE0 ≤ cp ∧ cp ≤ 0xF6 then cp - 0x20
  else if 0xF8 ≤ cp ∧ cp ≤ 0xFE then cp - 0x20
  else cp

def utf8_simple_downcase (cp : UInt32) : UInt32 :=
  if 65 ≤ cp ∧ cp ≤ 90 then cp + 32
  else if 0xC0 ≤ cp ∧ cp ≤ 0xD6 then cp + 0x20
  else if 0xD8 ≤ cp ∧ cp ≤ 0xDE then cp + 0x20
  else cp

def swap_char (cp : UInt32) : UInt32 :=
  if utf8_simple_upcase cp ≠ cp then utf8_simple_upcase cp else utf8_simple_downcase cp

def utf8_space (cp : UInt32) : Bool :=
  [0x0009, 0x000A, 0x000B, 0x000C, 0x000D, 0x0020, 0x0085, 0x00A0, 0x1680, 0x2000, 0x2001, 0x2002, 0x2003, 0x2004,
   0x2005, 0x2006, 0x2007, 0x2008, 0x2009, 0x200A, 0x2028, 0x2029, 0x202F, 0x205F, 0x3000].contains cp

theorem utf8_back_le (s : List UInt8) (i : Nat) : utf8_back s i ≤ i := by
  induction i with
  | zero => exact le_rfl
  | succ i ih =>
    rw [utf8_back]
    split
    · exact ih.trans (Nat.le_succ i)
    · exact le_rfl

theorem utf8_prev_char_start_lt {s : List UInt8} {ending : Nat} (h : 0 < ending) :
    utf8_prev_char_start s ending < ending := by
  rw [utf8_prev_char_start, if_neg h.ne']
  have hle := utf8_back_le s (ending - 1)
  omega

/-! ### Texts -/

/-- The loop that writes another character for each one of a text. It does not end
where none can be read. -/
def map_chars (f : Bool → UInt32 → UInt32) (first : Bool) (s : List UInt8) : Option (List UInt8) :=
  if s = [] then some []
  else
    match _hchar : utf8_decode_one s with
    | none => none
    | some (cp, width) => (map_chars f false (s.drop width)).map (utf8_encode_one (f first cp) ++ ·)
termination_by s.length
decreasing_by
  have hwidth := utf8_decode_one_width _hchar
  have hlength := List.length_pos_iff.mpr ‹¬ s = []›
  rw [List.length_drop]
  omega

section
variable (s : List UInt8)

def upcase : Option (List UInt8) := map_chars (fun _ => utf8_simple_upcase) true s

def downcase : Option (List UInt8) := map_chars (fun _ => utf8_simple_downcase) true s

def capitalize : Option (List UInt8) :=
  map_chars (fun first => if first then utf8_simple_upcase else utf8_simple_downcase) true s

def swapcase : Option (List UInt8) := map_chars (fun _ => swap_char) true s

/-- The characters in front of a place, the last one first. -/
def reverse_from (ending : Nat) : List UInt8 :=
  if 0 < ending then
    stretch s (utf8_prev_char_start s ending) ending ++ reverse_from (utf8_prev_char_start s ending)
  else []
termination_by ending
decreasing_by exact utf8_prev_char_start_lt ‹0 < ending›

def reverse : List UInt8 := reverse_from s s.length

/-- What chomp takes off the end: a separator that is a string, or else a line end. -/
def chomp (args : List Value) : List UInt8 :=
  match args.head? with
  | some (.string sval ..) =>
    let sep := c_str (bytes_of sval)
    if 0 < sep.length && sep.isSuffixOf s then s.take (s.length - sep.length) else s
  | _ =>
    if [10].isSuffixOf s then
      if [13].isSuffixOf (s.take (s.length - 1)) then s.take (s.length - 2) else s.take (s.length - 1)
    else if [13].isSuffixOf s then s.take (s.length - 1)
    else s

def chop : List UInt8 :=
  if s = [] then []
  else if [13, 10].isSuffixOf s then s.take (s.length - 2)
  else s.take (utf8_prev_char_start s s.length)

/-- The width of the blank in front of a text. -/
def leading_space (s : List UInt8) : Option Nat :=
  match utf8_decode_one s with
  | none => none
  | some (cp, width) => if utf8_space cp then some width else none

theorem leading_space_pos {s : List UInt8} {width : Nat} (h : leading_space s = some width) : 0 < width := by
  rw [leading_space] at h
  split at h
  · cases h
  · next hdecode =>
    rw [Option.ite_none_right_eq_some] at h
    cases h.2
    exact utf8_decode_one_width hdecode

/-- Goes on over blanks. -/
def skip_space (start : Nat) : Nat :=
  if start < s.length then
    match _hblank : leading_space (s.drop start) with
    | none => start
    | some width => skip_space (start + width)
  else start
termination_by s.length - start
decreasing_by
  have hwidth := leading_space_pos _hblank
  omega

/-- Goes back over blanks. -/
def trim_space (start ending : Nat) : Nat :=
  if start < ending then
    if (leading_space (stretch s (utf8_prev_char_start s ending) ending)).isSome then
      trim_space start (utf8_prev_char_start s ending)
    else ending
  else ending
termination_by ending
decreasing_by exact utf8_prev_char_start_lt (Nat.zero_lt_of_lt ‹start < ending›)

/-- Bytes that cannot be read are gone back over up to a place in front of `start`:
there is no text then. -/
def strip : Option (List UInt8) :=
  let start := skip_space s 0
  let ending := trim_space s start s.length
  if start ≤ ending then some (stretch s start ending) else none

def lstrip : List UInt8 := s.drop (skip_space s 0)

def rstrip : List UInt8 := s.take (trim_space s 0 s.length)

end

/-! ### Methods -/

inductive StringMethod where
  | upcase | downcase | capitalize | swapcase | reverse | chomp | chop | strip | lstrip | rstrip
  | delete_prefix | delete_suffix | sub | gsub
  deriving DecidableEq

namespace StringMethod

def all : List StringMethod :=
  [.upcase, .downcase, .capitalize, .swapcase, .reverse, .chomp, .chop, .strip, .lstrip, .rstrip, StringMethod.delete_prefix,
   .delete_suffix, .sub, .gsub]

def name : StringMethod → String
  | .upcase => "upcase"
  | .downcase => "downcase"
  | .capitalize => "capitalize"
  | .swapcase => "swapcase"
  | .reverse => "reverse"
  | .chomp => "chomp"
  | .chop => "chop"
  | .strip => "strip"
  | .lstrip => "lstrip"
  | .rstrip => "rstrip"
  | StringMethod.delete_prefix => "delete_prefix"
  | .delete_suffix => "delete_suffix"
  | .sub => "sub"
  | .gsub => "gsub"

def bang_name : StringMethod → String
  | .upcase => "upcase!"
  | .downcase => "downcase!"
  | .capitalize => "capitalize!"
  | .swapcase => "swapcase!"
  | .reverse => "reverse!"
  | .chomp => "chomp!"
  | .chop => "chop!"
  | .strip => "strip!"
  | .lstrip => "lstrip!"
  | .rstrip => "rstrip!"
  | StringMethod.delete_prefix => "delete_prefix!"
  | .delete_suffix => "delete_suffix!"
  | .sub => "sub!"
  | .gsub => "gsub!"

/-- The method of a name, and whether it is the form with the bang. -/
def named (name : String) : Option (StringMethod × Bool) :=
  match all.find? fun method => method.name = name with
  | some method => some (method, false)
  | none => (all.find? fun method => method.bang_name = name).map fun method => (method, true)

end StringMethod

/-- What the methods rest on besides the evaluator: the texts of values, and regexps
with what they were made from. A value that is no regexp has none; one that cannot be
compiled raises. -/
structure Library where
  host : Host
  regexp_of : Value → (s : CString) → Option (Except (String × String) (Regexp s.bytes.length × Option (List UInt8)))
  build_match_data : Value → Value → RegexMatch → P Value

section
variable (lib : Library) (recv : Value) (args : List Value) (blk : Option Value) (site : Option Span)

def Library.text (v : Value) : CString := .of (format.val_to_s lib.host v)

/-- The evaluator's functions, as sub and gsub call them. -/
def Library.caller : Caller P where
  call_block args := do
    match blk with
    | some blk => return { value := ← stoned.call_block blk args site, errored := (← get).errored }
    | none => .halt
  global_set := stoned.global_set
  build_match_data := lib.build_match_data (args.headD .nil) recv
  eval_raise_class := stoned.eval_raise_class site
  val_array_of := stoned.val_array_of
  host := lib.host

def is_frozen : Value → Bool
  | .string _ frozen _ => frozen
  | _ => false

/-- The bytes of a string, as the C string functions see them. -/
def recv_text : Value → CString
  | .string sval .. => .of (bytes_of sval)
  | _ => .of []

def answer : Option (List UInt8) → P Value
  | some buf => return val_string_n buf
  | none => .halt

/-- delete_prefix and delete_suffix, with or without a bang: a part that stands in a text
is taken off. -/
def delete_affix (message : String) (stands : List UInt8 → List UInt8 → Bool)
    (remains : List UInt8 → List UInt8 → List UInt8) (bang : Bool) : P Value :=
  match args with
  | [] => eval_raise_class site "ArgumentError" message
  | arg :: _ =>
    let s := (recv_text recv).bytes
    let affix := (lib.text arg).bytes
    if bang && is_frozen recv then eval_raise_class site "FrozenError" "can't modify frozen String"
    else if stands affix s then return val_string_n (remains affix s)
    else return if bang then .nil else val_string_n s

def delete_prefix (bang : Bool) : P Value :=
  delete_affix lib recv args site "String#delete_prefix requires an argument" List.isPrefixOf
    (fun affix s => s.drop affix.length) bang

def delete_suffix (bang : Bool) : P Value :=
  delete_affix lib recv args site "String#delete_suffix requires an argument" List.isSuffixOf
    (fun affix s => s.take (s.length - affix.length)) bang

/-- sub and gsub, with the regexp of their first argument if it is one. -/
def substituted (global : Bool) : P Value :=
  let caller := lib.caller recv args blk site
  let s := recv_text recv
  match args with
  | [] => substitute caller s global recv none blk.isSome none
  | pattern :: more =>
    match lib.regexp_of pattern s with
    | some (.error (class_name, message)) => eval_raise_class site class_name message
    | some (.ok (re, source)) => substitute caller s global recv (some (.regexp re source)) blk.isSome more.head?
    | none => substitute caller s global recv (some (.text (caller.text pattern))) blk.isSome more.head?

/-- The methods without a bang. -/
def dispatch_plain (method : StringMethod) : P Value :=
  let s := (recv_text recv).bytes
  match method with
  | .upcase => answer (upcase s)
  | .downcase => answer (downcase s)
  | .capitalize => answer (capitalize s)
  | .swapcase => answer (swapcase s)
  | .reverse => answer (some (reverse s))
  | .chomp => answer (some (chomp s args))
  | .chop => answer (some (chop s))
  | .strip => answer (strip s)
  | .lstrip => answer (some (lstrip s))
  | .rstrip => answer (some (rstrip s))
  | StringMethod.delete_prefix => delete_prefix lib recv args site false
  | .delete_suffix => delete_suffix lib recv args site false
  | .sub => substituted lib recv args blk site false
  | .gsub => substituted lib recv args blk site true

/-- What a form with a bang answers: the string it has come to if that differs. -/
def changed (recv r : Value) : Value :=
  match r with
  | .string sval frozen encoding =>
    if c_str (bytes_of sval) = (recv_text recv).bytes then .nil else .string sval frozen encoding
  | _ => .nil

def frozen_message (recv : Value) : String :=
  "can't modify frozen String: \"" ++ text_of_bytes (recv_text recv).bytes ++ "\""

/-- The methods with a bang. Only sub! and gsub! hand on what they are given. -/
def dispatch_bang (method : StringMethod) : P Value :=
  match method with
  | StringMethod.delete_prefix => delete_prefix lib recv args site true
  | .delete_suffix => delete_suffix lib recv args site true
  | .sub | .gsub =>
    if is_frozen recv then eval_raise_class site "FrozenError" (frozen_message recv)
    else do
      let r ← dispatch_plain lib recv args blk site method
      if val_is_signal r then return r
      return changed recv r
  | .upcase | .downcase | .capitalize | .swapcase | .reverse | .chomp | .chop | .strip | .lstrip | .rstrip =>
    if is_frozen recv then eval_raise_class site "FrozenError" (frozen_message recv)
    else do
      let r ← dispatch_plain lib recv [] none none method
      return changed recv r

end

/-- A method of this module that a string is sent. -/
def method_of_send (send : Send) : Option (StringMethod × Bool) :=
  match send.recv with
  | .string .. => StringMethod.named send.name
  | _ => none

/-- Built-ins with these methods written out. None of them is one that every value has. -/
def Library.builtins (lib : Library) (rest : Builtins) : Builtins
  | .dispatch .common send =>
    match method_of_send send with
    | some _ => return none
    | none => rest (.dispatch .common send)
  | .dispatch .primitive send =>
    match method_of_send send with
    | some (method, false) => return some (← dispatch_plain lib send.recv send.args send.blk send.site method)
    | some (method, true) => return some (← dispatch_bang lib send.recv send.args send.blk send.site method)
    | none => rest (.dispatch .primitive send)
  | b => rest b

end stoned.strings
