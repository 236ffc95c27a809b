import Stoned.Ast

namespace stoned

/-- The kinds of values. The last six are control-flow signals, used to unwind
and not values a program can hold. -/
inductive ValueKind where
  | nil | bool | int | float | string | symbol | array | hash | range | klass | object
  | method | undef_method | block
  | exception | ret | brk | next | retry | throw
  deriving DecidableEq, Repr

inductive MethodVisibility where
  | method_public | method_private | method_protected
  deriving DecidableEq, Repr

inductive StringEncodingTag where
  | utf8 | ascii_8bit
  deriving DecidableEq, Repr

/-- A frame: its index in the environment heap. -/
abbrev Env := Nat

/-- An array, hash, class or object: its index in the heap of its kind. -/
abbrev Ref := Nat

/-- The values of the interpreter. A text is a `String` whose characters are
the bytes the program holds; `ret`, `brk` and `next` wrap the value they
carry outward. -/
inductive Value where
  | nil
  | bool (bval : Bool)
  | int (ival : Int64)
  | float (fval : Double)
  | string (sval : String) (frozen : Bool) (string_encoding : StringEncodingTag)
  | symbol (sval : String)
  | array (array : Ref)
  | hash (hash : Ref)
  | range (begin_val end_val : Value) (exclusive : Bool)
  | klass (klass : Ref)
  | object (obj : Ref)
  | method (def_node : Node) (closure : Env) (visibility : MethodVisibility) (def_file : Option String)
  | undef_method
  | block (block_node : Node) (closure : Env) (is_lambda is_proc_object : Bool) (def_file : Option String)
  | exception
  | ret (wrapped : Value) (target_env : Option Env)
  | brk (wrapped : Value)
  | next (wrapped : Value)
  | retry
  | throw (tag : Option String) (value : Value)

def Value.kind : Value → ValueKind
  | .nil => .nil
  | .bool _ => .bool
  | .int _ => .int
  | .float _ => .float
  | .string .. => .string
  | .symbol _ => .symbol
  | .array _ => .array
  | .hash _ => .hash
  | .range .. => .range
  | .klass _ => .klass
  | .object _ => .object
  | .method .. => .method
  | .undef_method => .undef_method
  | .block .. => .block
  | .exception => .exception
  | .ret .. => .ret
  | .brk _ => .brk
  | .next _ => .next
  | .retry => .retry
  | .throw .. => .throw

def val_truthy : Value → Bool
  | .nil => false
  | .bool bval => bval
  | _ => true

def ValueKind.is_signal : ValueKind → Bool
  | .exception | .ret | .brk | .next | .retry | .throw => true
  | _ => false

def val_is_signal (v : Value) : Bool := v.kind.is_signal

/-- A string value made by the interpreter: not frozen, UTF-8. -/
def val_string (sval : String) : Value := .string sval false .utf8

/-- A text up to its first NUL byte, as the C string functions see it. -/
def c_string (bytes : String) : String := String.ofList (bytes.toList.takeWhile (· ≠ '\x00'))

/-- The first difference of two C strings. -/
def strcmp : List Char → List Char → Int
  | [], [] => 0
  | [], b :: _ => -b.toNat
  | a :: _, [] => a.toNat
  | a :: s, b :: t => if a = b ∧ a ≠ '\x00' then strcmp s t else a.toNat - b.toNat

/-- Control-flow signals a block may send out of a built-in iterator. -/
def flow_signal_out : Value → Option Value
  | .brk wrapped => some wrapped
  | .ret wrapped target_env => some (.ret wrapped target_env)
  | .exception => some .exception
  | .throw tag value => some (.throw tag value)
  | _ => none

def val_kind_name : ValueKind → String
  | .nil => "NilClass"
  | .bool => "TrueClass/FalseClass"
  | .int => "Integer"
  | .float => "Float"
  | .string => "String"
  | .symbol => "Symbol"
  | .array => "Array"
  | .hash => "Hash"
  | .range => "Range"
  | .klass => "Class"
  | .object => "Object"
  | .method => "Method"
  | .block => "Proc"
  | .exception => "Exception"
  | _ => "?"

structure RubyArray where
  elems : List Value
  singleton_env : Option Env
  frozen : Bool

/-- A map in insertion order, its keys and values kept as pairs. -/
structure RubyHash where
  pairs : List (Value × Value)
  singleton_env : Option Env
  default_value : Value
  default_proc : Value
  compare_by_identity : Bool
  frozen : Bool

structure RubyClass where
  name : String
  superclass : Option Ref
  class_env : Option Env
  prepended_modules : List Ref
  included_modules : List Ref
  extended_modules : List Ref
  is_module : Bool

/-- The native payload of an object. -/
inductive NativePayload where
  | regex (pattern : String) (options : UInt32)
  | binding (env : Env) (file : Option String) (line : Int64)
  | handle (id : Nat)

structure RubyObject where
  klass : Value
  ivars : List (String × Value)
  singleton_env : Option Env
  native : Option NativePayload
  frozen : Bool

/-- The entry of an association list under a name, the newest first. -/
def entry (name : String) : List (String × Value) → Option Value
  | [] => none
  | (key, val) :: rest => if key = name then some val else entry name rest

/-- Overwrites the entry under a name in place, or adds one in front. -/
def set_entry (name : String) (val : Value) (entries : List (String × Value)) : List (String × Value) :=
  if (entry name entries).isSome then overwrite entries else (name, val) :: entries
where
  overwrite : List (String × Value) → List (String × Value)
    | [] => []
    | (key, old) :: rest => if key = name then (key, val) :: rest else (key, old) :: overwrite rest

@[simp] theorem entry_nil (name : String) : entry name [] = none := rfl

theorem entry_cons (name key : String) (val : Value) (rest : List (String × Value)) :
    entry name ((key, val) :: rest) = if key = name then some val else entry name rest := rfl

theorem entry_overwrite (name other : String) (val : Value) (entries : List (String × Value)) :
    entry other (set_entry.overwrite name val entries) =
      if other = name then (entry other entries).map fun _ => val else entry other entries := by
  induction entries with
  | nil => simp [set_entry.overwrite]
  | cons head rest ih =>
    obtain ⟨key, old⟩ := head
    simp only [set_entry.overwrite]
    split
    · next hkey =>
      subst hkey
      by_cases hother : key = other
      · subst hother
        simp [entry_cons]
      · simp [entry_cons, hother, Ne.symm hother]
    · next hkey =>
      simp only [entry_cons, ih]
      by_cases hother : key = other
      · subst hother
        simp [hkey]
      · simp [hother]

/-- An update is read back under its own name and leaves the others alone. -/
theorem entry_set_entry (name other : String) (val : Value) (entries : List (String × Value)) :
    entry other (set_entry name val entries) =
      if other = name then some val else entry other entries := by
  unfold set_entry
  split
  · next hsome =>
    rw [entry_overwrite]
    split
    · next hother =>
      subst hother
      obtain ⟨old, hold⟩ := Option.isSome_iff_exists.mp hsome
      simp [hold]
    · rfl
  · simp only [entry_cons, eq_comm]

end stoned
