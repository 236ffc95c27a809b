import Mathlib.Data.Nat.Digits.Defs
import Stoned.Double
import Stoned.Pack

namespace stoned.rubygems

/-! Gem::Version and Gem::Requirement, as the shim defines them (eval_support.c), and
the choice among versions (exe/bundle, exe/gem). A text is its bytes, without NUL. -/

abbrev Text := List UInt8

def dot : UInt8 := 0x2e
def is_digit (c : UInt8) : Bool := 0x30 ≤ c && c ≤ 0x39
def is_letter (c : UInt8) : Bool := (0x41 ≤ c && c ≤ 0x5a) || (0x61 ≤ c && c ≤ 0x7a)
def is_space (c : UInt8) : Bool := c = 0x20 || (0x09 ≤ c && c ≤ 0x0d)

/-- The matches of the shim's regular expressions, which another library finds. -/
structure Reginold where
  /-- `/\A\d+\z/` -/
  all_digits : Text → Bool
  /-- `/[a-zA-Z]/` -/
  any_letter : Text → Bool
  /-- `/\A\s*(=|!=|>=|<=|>|<|~>)\s*(.+)\z/` and its groups -/
  constraint : Text → Option (Text × Text)

/-- String#split("."): trailing empty parts are dropped. -/
def split_dots (s : Text) : List Text := ((s.splitOn dot).reverse.dropWhile (· = [])).reverse

/-- Array#join("."). -/
def join_dots (parts : List Text) : Text := [dot].intercalate parts

def digits_value (ds : Text) : Nat := ds.foldl (fun n d => n * 10 + (d.toNat - 0x30)) 0

def saturated (n : Int) : Int64 :=
  if n < -2 ^ 63 then Int64.minValue else if 2 ^ 63 ≤ n then Int64.maxValue else Int64.ofInt n

/-- String#to_i: the number a text begins with. -/
def strtoll (s : Text) : Int64 :=
  match s.dropWhile is_space with
  | 0x2d :: ds => saturated (-digits_value (ds.takeWhile is_digit))
  | 0x2b :: ds => saturated (digits_value (ds.takeWhile is_digit))
  | ds => saturated (digits_value (ds.takeWhile is_digit))

def decimal_digits (n : Nat) : Text :=
  if n = 0 then [0x30] else ((Nat.digits 10 n).map fun d => UInt8.ofNat (0x30 + d)).reverse

/-- Integer#to_s. -/
def decimal (n : Int64) : Text := (if n < 0 then [0x2d] else []) ++ decimal_digits n.toInt.natAbs

example : strtoll (bytes_of "12rc") = 12 := by decide
example : strtoll (bytes_of "99999999999999999999") = Int64.maxValue := by decide
example : decimal (-120) = bytes_of "-120" := by decide +kernel
example : split_dots (bytes_of "1..2.") = [bytes_of "1", [], bytes_of "2"] := by decide +kernel

/-- A part of a version: a number, or the text itself. -/
inductive Segment where
  | num (n : Int64)
  | text (s : Text)
  deriving DecidableEq

def sign (less greater : Bool) : Int := if less then -1 else if greater then 1 else 0

/-- Integer#<=>, which compares doubles, and String#<=>. -/
def Segment.cmp : Segment → Segment → Option Int
  | .num m, .num n => some (sign ((Double.of_int m).less (.of_int n)) ((Double.of_int n).less (.of_int m)))
  | .text s, .text t => some (sign (s < t) (t < s))
  | _, _ => none

/-- Array#<=>. -/
def array_cmp : List Segment → List Segment → Option Int
  | [], [] => some 0
  | [], _ :: _ => some (-1)
  | _ :: _, [] => some 1
  | x :: xs, y :: ys =>
    match x.cmp y with
    | none => none
    | some c => if c ≠ 0 then some c else array_cmp xs ys

/-- What is raised: its class and its message. -/
abbrev Raised := String × String

/-- The methods of Comparable: what `<=>` returned is compared with zero, which nil does not have. -/
def compared (name : String) (test : Int → Bool) : Option Int → Except Raised Bool
  | some c => .ok (test c)
  | none => .error ("NoMethodError", "undefined method '" ++ name ++ "' for NilClass")

inductive Operator where
  | eq | ne | gt | lt | ge | le | pessimistic
  deriving DecidableEq

def Operator.text : Operator → Text
  | .eq => bytes_of "="
  | .ne => bytes_of "!="
  | .gt => bytes_of ">"
  | .lt => bytes_of "<"
  | .ge => bytes_of ">="
  | .le => bytes_of "<="
  | .pessimistic => bytes_of "~>"

/-- `upper_segs[-1] = upper_segs[-1] + 1` -/
def add_to_last : List Int64 → List Int64
  | [] => []
  | [n] => [n + 1]
  | n :: ns => n :: add_to_last ns

/-- Array#all? with a block that may raise. -/
def all_each {α : Type} (block : α → Except Raised Bool) : List α → Except Raised Bool
  | [] => .ok true
  | x :: xs => do if ← block x then all_each block xs else .ok false

/-- A requirement: its operators and versions. -/
abbrev Requirement := List (Text × Text)

namespace Reginold

variable (R : Reginold)

/-- Gem::Version#segments. -/
def segments (version : Text) : List Segment :=
  (split_dots version).map fun s => if R.all_digits s then .num (strtoll s) else .text s

/-- Gem::Version#<=>. -/
def version_cmp (version other : Text) : Option Int := array_cmp (R.segments version) (R.segments other)

def lt (version other : Text) : Except Raised Bool := compared "<" (· < 0) (R.version_cmp version other)
def le (version other : Text) : Except Raised Bool := compared "<=" (· ≤ 0) (R.version_cmp version other)
def gt (version other : Text) : Except Raised Bool := compared ">" (· > 0) (R.version_cmp version other)
def ge (version other : Text) : Except Raised Bool := compared ">=" (· ≥ 0) (R.version_cmp version other)

/-- Gem::Version#release. -/
def release (version : Text) : Text := join_dots ((split_dots version).filter fun s => !R.any_letter s)

/-- Gem::Requirement.new. -/
def requirement_new (reqs : List Text) : Requirement :=
  (if reqs = [] then [bytes_of ">= 0"] else reqs).map fun req =>
    (R.constraint req).getD (Operator.eq.text, req)

/-- The upper bound of `~>`. -/
def upper (segs : List Int64) : Text := join_dots ((add_to_last segs.dropLast).map decimal)

def pessimistic (version other : Text) : Except Raised Bool := do
  let segs := (split_dots other).map strtoll
  if 2 ≤ segs.length then
    if ← R.ge version other then R.lt version (upper segs) else .ok false
  else R.ge version other

/-- The block of Gem::Requirement#satisfied_by?. -/
def constraint_satisfied (version : Text) : Text × Text → Except Raised Bool
  | (op, other) =>
    if op = Operator.eq.text then .ok (R.version_cmp version other = some 0)
    else if op = Operator.ne.text then .ok (R.version_cmp version other ≠ some 0)
    else if op = Operator.gt.text then R.gt version other
    else if op = Operator.lt.text then R.lt version other
    else if op = Operator.ge.text then R.ge version other
    else if op = Operator.le.text then R.le version other
    else if op = Operator.pessimistic.text then R.pessimistic version other
    else .ok true

/-- Gem::Requirement#satisfied_by?. -/
def satisfied_by (requirement : Requirement) (version : Text) : Except Raised Bool :=
  all_each (R.constraint_satisfied version) requirement

end Reginold

/-- Gem::Requirement#to_s. -/
def Requirement.to_s (requirement : Requirement) : Text :=
  (bytes_of ", ").intercalate (requirement.map fun (op, v) => op ++ bytes_of " " ++ v)

/-- One step of Array#sort: a key moves left, past the greater ones of those before
it, the last of which is first here. -/
def insert_sorted {α : Type} (cmp : α → α → Option Int) (key : α) : List α → Except Raised (List α)
  | [] => .ok [key]
  | prev :: before =>
    match cmp key prev with
    | none => .error ("ArgumentError", "comparison of elements failed")
    | some c => if c < 0 then return prev :: (← insert_sorted cmp key before) else .ok (key :: prev :: before)

/-- Array#sort with a block. -/
def sort {α : Type} (cmp : α → α → Option Int) (xs : List α) : Except Raised (List α) :=
  return (← xs.foldlM (fun sorted key => insert_sorted cmp key sorted) []).reverse

/-- Enumerable#sort_by. -/
def sort_by {α : Type} (block : α → List Segment) (xs : List α) : Except Raised (List α) :=
  return (← sort (fun a b => array_cmp a.1 b.1) (xs.map fun x => (block x, x))).map (·.2)

/-- `v.split(".").map(&:to_i)` -/
def sort_key (v : Text) : List Segment := (split_dots v).map fun s => .num (strtoll s)

/-- The best of the versions that match. -/
def best_of (matching : List Text) : Except Raised (Option Text) :=
  return (← sort_by sort_key matching).getLast?

/-- The part of fetch_version and of resolve_gem_version that chooses among the
versions the server lists. What a comparison raises counts as no match. -/
def Reginold.best_match (R : Reginold) (reqs versions : List Text) : Except Raised (Option Text) :=
  best_of (versions.filter fun v =>
    match R.satisfied_by (R.requirement_new reqs) v with
    | .ok satisfied => satisfied
    | .error _ => false)

end stoned.rubygems
