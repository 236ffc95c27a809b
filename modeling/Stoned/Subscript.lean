import Stoned.Arrays

namespace stoned.arrays

/-! Subscripts of arrays: the shortcuts of eval_call (eval_dispatch.c) and the
methods of dispatch_array (eval_dispatch_collections.c). -/

/-- Reads an element, where a negative index lies in front of the buffer. -/
def read_at (r : Ref) (i : Int64) : Run Value := if i < 0 then stop .fault else read r i.toInt.toNat

/-- Adds the elements between two indices of an array to another one. -/
def copy_each (dst src : Ref) (hi : Int64) : Nat → Int64 → Run Unit
  | 0, _ => stop .running
  | fuel + 1, i =>
    if i < hi then do
      let v ← read_at src i
      val_array_push dst v
      copy_each dst src hi fuel (i + 1)
    else return

/-- A new array of the elements between two indices. -/
def copy_between (fuel : Nat) (r : Ref) (lo hi : Int64) : Run Reply := do
  let slice ← val_array_new
  copy_each slice r hi fuel lo
  return .value (.array slice)

/-! ### Reading -/

/-- The first and the last index of a subscript that is a range; nothing where one
of its ends is neither an Integer nor nil. -/
def range_ends (begin_val end_val : Value) (exclusive : Bool) (alen : Int64) : Option (Int64 × Int64) := do
  let lo ← match begin_val with
    | .int i => some (if i < 0 then i + alen else i)
    | .nil => some 0
    | _ => none
  let hi ← match end_val with
    | .int i =>
      let hi := if i < 0 then i + alen else i
      some (if exclusive then hi else hi + 1)
    | .nil => some alen
    | _ => none
  return (lo, hi)

def subscript_range (fuel : Nat) (r : Ref) (begin_val end_val : Value) (exclusive : Bool) : Run Reply := do
  let alen ← len r
  match range_ends begin_val end_val exclusive (.ofNat alen) with
  | none => return .value .nil
  | some (lo, hi) =>
    let lo := if lo < 0 then 0 else lo
    let hi := if hi < lo then lo else hi
    if .ofNat alen < lo then return .value .nil
    else copy_between fuel r lo (if .ofNat alen < hi then .ofNat alen else hi)

/-- The Integer an argument is, 0 where it is none. -/
def int_or_zero : Value → Int64
  | .int i => i
  | _ => 0

/-- The end of the slice is compared as an unsigned number. -/
def subscript_slice (fuel : Nat) (r : Ref) (first : Value) (n : Int64) : Run Reply := do
  let alen ← len r
  let start := int_or_zero first
  let start := if start < 0 then start + .ofNat alen else start
  if start < 0 ∨ .ofNat alen < start ∨ n < 0 then return .value .nil
  else
    let n := if .ofNat alen < (start + n).toUInt64 then .ofNat alen - start else n
    copy_between fuel r start (start + n)

def subscript_index (r : Ref) (first : Value) : Run Reply := do
  let alen ← len r
  let idx := int_or_zero first
  let idx := if idx < 0 then .ofNat alen + idx else idx
  if idx < 0 ∨ .ofNat alen ≤ idx then return .value .nil
  else return .value (← read_at r idx)

/-- `[]` in eval_call. -/
def subscript (fuel : Nat) (r : Ref) (args : List Value) : Run Reply :=
  match args with
  | [] => return .raised "ArgumentError" "wrong number of args for []"
  | .range begin_val end_val exclusive :: _ => subscript_range fuel r begin_val end_val exclusive
  | first :: .int n :: _ => subscript_slice fuel r first n
  | first :: _ => subscript_index r first

/-- `slice` in dispatch_array. -/
def slice (fuel : Nat) (r : Ref) (args : List Value) : Run Reply :=
  if args.isEmpty then return .value .nil
  else do
    let alen ← len r
    match slice_bounds args (.ofNat alen) with
    | none => return .value .nil
    | some (idx, n) =>
      if idx < 0 ∨ .ofNat alen < idx ∨ n < 0 then return .value .nil
      else if single_index args then
        if idx < .ofNat alen then return .value (← read_at r idx) else return .value .nil
      else copy_between fuel r idx (idx + if .ofNat alen < idx + n then .ofNat alen - idx else n)

/-! ### Writing -/

/-- How many elements the buffer for a replacement takes. -/
def replaced_count (n : Nat) : Nat := if Int32.ofNat n < 64 then (Int32.ofNat n).toInt.toNat else 64

/-- The elements a replacement consists of. -/
def replacement (value : Value) : Run (List Value) :=
  match value with
  | .array src => do
    let n ← len src
    read_all src (replaced_count n)
  | .nil => return []
  | value => return [value]
where
  read_all (src : Ref) : Nat → Run (List Value)
    | 0 => return []
    | n + 1 => do
      let rest ← read_all src n
      let v ← read src n
      return rest ++ [v]

/-- Copies the elements of one array over those of another one. -/
def copy_back (dst src : Ref) (n : Nat) : Nat → Nat → Run Unit
  | 0, _ => stop .running
  | fuel + 1, i =>
    if i < n then do
      let v ← read src i
      write dst i v
      copy_back dst src n fuel (i + 1)
    else return

/-- The elements of an array become those of a new one, whose buffer is taken over
where the array's own is too small. -/
def take_over (fuel : Nat) (r newarr : Ref) : Run Unit := do
  let n ← len newarr
  set_len r n
  let old ← cell r
  let new ← cell newarr
  if old.buffer.cap < n then update r fun _ => some new.buffer
  else copy_back r newarr n fuel 0

/-- `x[start, n] = value` in eval_call. -/
def assign_slice (fuel : Nat) (r : Ref) (first : Value) (n : Int64) (value : Value) : Run Reply := do
  let alen ← len r
  let start := int_or_zero first
  let start := if start < 0 then start + .ofNat alen else start
  let start := if start < 0 then 0 else start
  let n := if n < 0 then 0 else n
  let rep_elems ← replacement value
  let newarr ← val_array_new
  copy_each newarr r (if start < .ofNat alen then start else .ofNat alen) fuel 0
  push_all newarr rep_elems
  copy_each newarr r (.ofNat alen) fuel (start + n)
  take_over fuel r newarr
  return .value value

/-- Adds nil until an index is inside the array. -/
def extend_to (r : Ref) (idx : Nat) : Nat → Run Unit
  | 0 => stop .running
  | fuel + 1 => do
    let n ← len r
    if n ≤ idx then do
      val_array_push r .nil
      extend_to r idx fuel
    else return

/-- `x[idx] = value`, behind as many nils as it takes. -/
def assign_index (fuel : Nat) (r : Ref) (idx : Int64) (value : Value) : Run Reply := do
  let alen ← len r
  let idx := if idx < 0 then .ofNat alen + idx else idx
  if idx < 0 then return .value value
  else do
    extend_to r idx.toInt.toNat fuel
    write r idx.toInt.toNat value
    return .value value

/-- `[]=` in eval_call. -/
def subscript_assign (fuel : Nat) (r : Ref) (args : List Value) : Run Reply :=
  match args with
  | [] | [_] => return .raised "ArgumentError" "wrong number of args for []="
  | first :: second :: rest => unless_frozen r <|
    match second, rest with
    | .int n, [value] => assign_slice fuel r first n value
    | value, _ => assign_index fuel r (int_or_zero first) value

/-- `x[range] = value` in dispatch_array. -/
def assign_range (fuel : Nat) (r : Ref) (begin_val end_val : Value) (exclusive : Bool) (value : Value) : Run Reply := do
  let alen ← len r
  let lo := int_or_zero begin_val
  let hi := match end_val with | .int i => i | _ => .ofNat alen
  let lo := if lo < 0 then lo + .ofNat alen else lo
  let hi := if hi < 0 then hi + .ofNat alen else hi
  let hi := if exclusive then hi else hi + 1
  let lo := if lo < 0 then 0 else lo
  let hi := if .ofNat alen < hi then .ofNat alen else hi
  let repl ← match value with
    | .array src => pure src
    | value => do
      let repl ← val_array_new
      val_array_push repl value
      pure repl
  let result ← val_array_new
  copy_each result r lo fuel 0
  push_while (len repl) result repl fuel 0
  copy_each result r (.ofNat alen) fuel hi
  set_len r 0
  push_while (len result) r result fuel 0
  return .value value

/-- `[]=` in dispatch_array. -/
def store (fuel : Nat) (r : Ref) (args : List Value) : Run Reply :=
  match args with
  | [] | [_] => return .raised "ArgumentError" "wrong number of arguments"
  | first :: value :: _ => unless_frozen r <|
    match first with
    | .range begin_val end_val exclusive => assign_range fuel r begin_val end_val exclusive value
    | .int idx => assign_index fuel r idx value
    | _ => return .value value

end stoned.arrays
