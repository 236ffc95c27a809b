import Stoned.Format
import Stoned.Iterators

namespace stoned.strings

open format

/-! String#scan, String#sub and String#gsub (eval_dispatch_primitives.c, dispatch_string). -/

/-- A C string: bytes without a NUL. -/
@[ext] structure CString where
  bytes : List UInt8
  no_nul : 0 ∉ bytes

theorem c_str_no_nul (s : List UInt8) : 0 ∉ c_str s := by
  intro hmem
  simpa using List.mem_takeWhile_imp hmem

theorem c_str_eq {s : List UInt8} (h : 0 ∉ s) : c_str s = s := by
  refine List.takeWhile_eq_self_iff.mpr fun b hb => ?_
  simpa using fun hzero : b = 0 => h (hzero ▸ hb)

/-- What the C string functions see of bytes. -/
def CString.of (s : List UInt8) : CString := ⟨c_str s, c_str_no_nul s⟩

theorem CString.bytes_of (s : List UInt8) : (CString.of s).bytes = c_str s := rfl

@[simp] theorem CString.of_bytes (s : CString) : CString.of s.bytes = s := by
  cases s with
  | mk bytes no_nul => simp [CString.of, c_str_eq no_nul]

/-- A match: where it begins and ends, and the groups captured. -/
structure RegexMatch where
  beg : Nat
  ending : Nat
  captures : List (Option (Nat × Nat))

/-- A compiled regexp on a string of `slen` bytes. `match_at` is what it matches from
a place on; a search answers the leftmost match at or behind a place, or none. -/
structure Regexp (slen : Nat) where
  search : Nat → Option RegexMatch
  match_at : Nat → Option RegexMatch
  match_at_within : ∀ {beg m}, match_at beg = some m → m.beg = beg ∧ beg ≤ m.ending ∧ m.ending ≤ slen
  search_iff : ∀ {pos m}, search pos = some m ↔
    pos ≤ m.beg ∧ match_at m.beg = some m ∧ ∀ beg, pos ≤ beg → beg < m.beg → match_at beg = none

theorem Regexp.search_within {slen pos : Nat} {re : Regexp slen} {m : RegexMatch} (h : re.search pos = some m) :
    pos ≤ m.beg ∧ m.beg ≤ m.ending ∧ m.ending ≤ slen := by
  obtain ⟨hpos, hmatch, -⟩ := re.search_iff.mp h
  exact ⟨hpos, (re.match_at_within hmatch).2⟩

/-- The bytes of a string from one place to another. -/
def stretch (s : List UInt8) (beg ending : Nat) : List UInt8 := (s.drop beg).take (ending - beg)

def val_string_n (s : List UInt8) : Value := val_string (text_of_bytes s)

/-- What the methods use outside the string: the evaluator's functions. -/
structure Caller (M : Type → Type) where
  call_block : List Value → M arrays.Answer
  global_set : String → Value → M Unit
  build_match_data : RegexMatch → M Value
  eval_raise_class : String → String → M Value
  val_array_of : List Value → M Value
  host : Host

section
variable {M : Type → Type} [Monad M]

/-! ### scan -/

/-- The loop of scan over the matches of a regexp. -/
def scan_each {slen : Nat} (re : Regexp slen) (visit : RegexMatch → M (Except Value Unit)) (pos : Nat) :
    M (Except Value Unit) :=
  if pos ≤ slen then
    match _hfound : re.search pos with
    | none => return .ok ()
    | some m => do
      match ← visit m with
      | .error out => return .error out
      | .ok () => scan_each re visit (if m.ending - m.beg = 0 then pos + 1 else m.ending)
  else return .ok ()
termination_by slen + 1 - pos
decreasing_by
  have hwithin := re.search_within _hfound
  split <;> omega

variable (caller : Caller M) (s : CString)

def capture_value : Option (Nat × Nat) → Value
  | some (beg, ending) => val_string_n (stretch s.bytes beg ending)
  | none => .nil

/-- What scan hands on of a match: its groups, or all of it when there are none. -/
def scan_args (m : RegexMatch) : List Value :=
  if 0 < m.captures.length then m.captures.map (capture_value s) else [val_string_n (stretch s.bytes m.beg m.ending)]

def scan_block (m : RegexMatch) : M (Except Value Unit) := do
  let r ← caller.call_block (scan_args s m)
  match r.leaves with
  | some out => return .error out
  | none => return .ok ()

/-- What scan pushes for a match: an array of its groups, or all of it. -/
def scan_elem (m : RegexMatch) : M Value := do
  if 0 < m.captures.length then caller.val_array_of (m.captures.map (capture_value s))
  else return val_string_n (stretch s.bytes m.beg m.ending)

def scan_push (m : RegexMatch) : StateT (List Value) M (Except Value Unit) := fun elems => do
  let elem ← scan_elem caller s m
  return (.ok (), elems ++ [elem])

/-- String#scan with a regexp. -/
def scan (re : Regexp s.bytes.length) (recv : Value) (blk : Bool) : M Value := do
  if blk then
    match ← scan_each re (scan_block caller s) 0 with
    | .error out => return out
    | .ok () => return recv
  else
    let pushed ← scan_each re (scan_push caller s) 0 []
    caller.val_array_of pushed.2

/-! ### The loops of sub and gsub -/

/-- The loop over the matches of a regexp: what is in between goes to the buffer,
and what takes the place of a match. Behind an empty match the byte there goes along. -/
def gsub_each (re : Regexp s.bytes.length) (global : Bool) (replace : RegexMatch → M (Except Value CString))
    (pos : Nat) (replaced : Bool) (buf : List UInt8) : M (Except Value (List UInt8)) :=
  if pos ≤ s.bytes.length then
    if !global && replaced then return .ok (buf ++ s.bytes.drop pos)
    else
      match _hfound : re.search pos with
      | none => return .ok (buf ++ s.bytes.drop pos)
      | some m => do
        match ← replace m with
        | .error out => return .error out
        | .ok repl =>
          let buf := buf ++ stretch s.bytes pos m.beg ++ repl.bytes
          if m.ending - m.beg = 0 then
            gsub_each re global replace (m.beg + 1) true (if m.beg < s.bytes.length then buf ++ [s.bytes.getD m.beg 0] else buf)
          else gsub_each re global replace m.ending true buf
  else return .ok buf
termination_by s.bytes.length + 1 - pos
decreasing_by
  all_goals
    have hwithin := re.search_within _hfound
    omega

/-- A place where a string pattern stands, as a match. -/
def needle_match (needle : List UInt8) (p : Nat) : RegexMatch where
  beg := p
  ending := p + needle.length
  captures := []

/-- The loop over the places where a string pattern stands, which has a first byte. -/
def gsub_string_each (first : UInt8) (later : List UInt8) (global : Bool)
    (replace : RegexMatch → M (Except Value CString)) (p : Nat) (replaced : Bool) (buf : List UInt8) :
    M (Except Value (List UInt8)) :=
  if p < s.bytes.length then
    if !global && replaced || !(first :: later).isPrefixOf (s.bytes.drop p) then
      gsub_string_each first later global replace (p + 1) replaced (buf ++ [s.bytes.getD p 0])
    else do
      match ← replace (needle_match (first :: later) p) with
      | .error out => return .error out
      | .ok repl => gsub_string_each first later global replace (p + (first :: later).length) true (buf ++ repl.bytes)
  else return .ok buf
termination_by s.bytes.length - p
decreasing_by
  · omega
  · simp only [List.length_cons]
    omega

end

/-! ### Replacement texts -/

/-- Looks for a named group, `(?<name>` or `(?'name'`, among the groups of a pattern
from the `cap_idx`-th on. -/
def named_group (name : List UInt8) (cap_idx : Nat) : List UInt8 → Option Nat
  | [] => none
  | 92 :: rest => named_group name cap_idx (rest.drop 1)
  | 40 :: 63 :: 60 :: rest =>
    if rest.head? = some 61 ∨ rest.head? = some 33 then named_group name cap_idx (63 :: 60 :: rest)
    else
      let group := rest.takeWhile (· ≠ 62)
      if group.length < rest.length ∧ 0 < group.length then
        if group = name then some cap_idx else named_group name (cap_idx + 1) (rest.drop (group.length + 1))
      else named_group name cap_idx (63 :: 60 :: rest)
  | 40 :: 63 :: 39 :: rest =>
    let group := rest.takeWhile (· ≠ 39)
    if group.length < rest.length ∧ 0 < group.length then
      if group = name then some cap_idx else named_group name (cap_idx + 1) (rest.drop (group.length + 1))
    else named_group name cap_idx (63 :: 39 :: rest)
  | 40 :: 63 :: rest => named_group name cap_idx (63 :: rest)
  | 40 :: rest => named_group name (cap_idx + 1) rest
  | _ :: rest => named_group name cap_idx rest
termination_by pattern => pattern.length

section
variable (s : CString) (source : Option (List UInt8)) (m : RegexMatch)

def captured (ci : Nat) : List UInt8 :=
  match m.captures.getD ci none with
  | some (beg, ending) => stretch s.bytes beg ending
  | none => []

/-- The name up to a `>` and what follows it, when there is one. -/
def group_name (rest : List UInt8) : Option (List UInt8 × List UInt8) :=
  let name := rest.takeWhile (· ≠ 62)
  if name.length < rest.length ∧ 0 < name.length then some (name, rest.drop (name.length + 1)) else none

theorem group_name_shorter {rest name behind : List UInt8} (h : group_name rest = some (name, behind)) :
    behind.length < rest.length := by
  rw [group_name] at h
  split at h
  · next hname =>
    cases h
    rw [List.length_drop]
    omega
  · cases h

def named_capture (name : List UInt8) : List UInt8 :=
  match source with
  | some source =>
    if name.length < 64 then
      match named_group name 0 source with
      | some ci => captured s m ci
      | none => []
    else []
  | none => []

/-- Expands the references in a replacement text: a backslash before a digit, `&`,
`k<name>` or another backslash. -/
def expand : List UInt8 → List UInt8
  | [] => []
  | [b] => [b]
  | b :: next :: rest =>
    if b ≠ 92 then b :: expand (next :: rest)
    else if 49 ≤ next ∧ next ≤ 57 then captured s m (next.toNat - 49) ++ expand rest
    else if next = 48 ∨ next = 38 then stretch s.bytes m.beg m.ending ++ expand rest
    else if next = 107 ∧ rest.head? = some 60 then
      match _hname : group_name (rest.drop 1) with
      | some (name, behind) => named_capture s source m name ++ expand behind
      | none => b :: expand (next :: rest)
    else if next = 92 then 92 :: expand rest
    else b :: expand (next :: rest)
termination_by raw => raw.length
decreasing_by
  all_goals try have hbehind := group_name_shorter _hname
  all_goals simp only [List.length_cons, List.length_drop] at *
  all_goals omega

end

/-! ### sub and gsub -/

/-- What is looked for: a regexp, with the text it was made from, or a string. -/
inductive Pattern (slen : Nat) where
  | regexp (re : Regexp slen) (source : Option (List UInt8))
  | text (needle : CString)

section
variable {M : Type → Type} [Monad M] (caller : Caller M) (s : CString)

/-- The text of a value, as far as the C string functions see it. -/
def Caller.text (v : Value) : CString := .of (format.val_to_s caller.host v)

def set_captures (m : RegexMatch) : Nat → List String → M Unit
  | _, [] => return ()
  | ci, key :: keys => do
    caller.global_set key (match m.captures.getD ci none with
      | some (beg, ending) => if beg ≤ ending then val_string_n (stretch s.bytes beg ending) else .nil
      | none => .nil)
    set_captures m (ci + 1) keys

def block_text (m : RegexMatch) : M (Except Value CString) := do
  let r ← caller.call_block [val_string_n (stretch s.bytes m.beg m.ending)]
  if r.errored then return .error .nil
  else if val_is_signal r.value then return .error r.value
  else return .ok (caller.text r.value)

/-- The text a hash has for a match, none when it has no entry. -/
def hash_text (h : Ref) (m : RegexMatch) : CString :=
  match caller.host.hash_get h (val_string_n (stretch s.bytes m.beg m.ending)) with
  | some v => caller.text v
  | none => .of []

def method_name (global : Bool) : String := if global then "gsub" else "sub"

def no_replacement (global : Bool) : M (Except Value CString) := do
  return .error (← caller.eval_raise_class "ArgumentError"
    ("String#" ++ method_name global ++ " requires a replacement or block"))

/-- What takes the place of a match of a regexp. -/
def replace_match (source : Option (List UInt8)) (global blk : Bool) (replacement : Option Value) (m : RegexMatch) :
    M (Except Value CString) :=
  if blk then do
    set_captures caller s m 0 ["1", "2", "3", "4", "5", "6", "7", "8", "9"]
    caller.global_set "~" (← caller.build_match_data m)
    block_text caller s m
  else
    match replacement with
    | none => no_replacement caller global
    | some (.hash h) => return .ok (hash_text caller s h m)
    | some v => return .ok (.of (expand s source m (caller.text v).bytes))

/-- What takes the place of a string. -/
def replace_needle (global blk : Bool) (replacement : Option Value) (m : RegexMatch) : M (Except Value CString) :=
  if blk then block_text caller s m
  else
    match replacement with
    | none => no_replacement caller global
    | some (.hash h) => return .ok (hash_text caller s h m)
    | some v => return .ok (caller.text v)

/-- String#sub and String#gsub. -/
def substitute (global : Bool) (recv : Value) (pattern : Option (Pattern s.bytes.length)) (blk : Bool)
    (replacement : Option Value) : M Value := do
  match pattern with
  | none => caller.eval_raise_class "ArgumentError" ("String#" ++ method_name global ++ " requires an argument")
  | some (.regexp re source) =>
    match ← gsub_each s re global (replace_match caller s source global blk replacement) 0 false [] with
    | .error out => return out
    | .ok buf => return val_string_n (c_str buf)
  | some (.text ⟨[], _⟩) => return recv
  | some (.text ⟨first :: later, _⟩) =>
    match ← gsub_string_each s first later global (replace_needle caller s global blk replacement) 0 false [] with
    | .error out => return out
    | .ok buf => return val_string_n (c_str buf)

def sub := substitute caller s false
def gsub := substitute caller s true

end
end stoned.strings
