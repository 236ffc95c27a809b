import Stoned.Arrays

namespace stoned.arrays

/-! The methods of arrays that have a plain form and one that changes the receiver
(eval_dispatch_collections.c, dispatch_array). A block or a method they call on the
way may answer anything, but leaves the arrays alone. -/

/-- What a call comes back with. -/
structure Answer where
  value : Value
  /-- the evaluator has given up -/
  errored : Bool

/-- A block or a method, by what the n-th call of it answers. -/
abbrev Callee := Nat → List Value → Answer

/-- What an iterator is left with in place of its own answer. -/
def Answer.leaves (a : Answer) : Option Value := if a.errored then some .nil else flow_signal_out a.value

/-- Sets the elements of an array from `i` on to those of another one. -/
def copy_while (bound : Run Nat) (r src : Ref) : Nat → Nat → Run Unit
  | 0, _ => stop .running
  | fuel + 1, i => do
    let n ← bound
    if i < n then do
      let v ← read src i
      write r i v
      copy_while bound r src fuel (i + 1)
    else return

/-! ### map, select, reject -/

section
variable (block : Callee)

def map_each (r result : Ref) : Nat → Nat → Run (Option Value)
  | 0, _ => stop .running
  | fuel + 1, i => do
    let n ← len r
    if i < n then do
      let v ← read r i
      let a := block i [v]
      match a.leaves with
      | some out => return some out
      | none => do
        val_array_push result a.value
        map_each r result fuel (i + 1)
    else return none

def map (fuel : Nat) (r : Ref) : Run Reply := do
  let result ← val_array_new
  match ← map_each block r result fuel 0 with
  | some out => return .value out
  | none => return .value (.array result)

def map_bang_each (r : Ref) : Nat → Nat → Run (Option Value)
  | 0, _ => stop .running
  | fuel + 1, i => do
    let n ← len r
    if i < n then do
      let v ← read r i
      let a := block i [v]
      match a.leaves with
      | some out => return some out
      | none => do
        write r i a.value
        map_bang_each r fuel (i + 1)
    else return none

def map_bang (fuel : Nat) (r : Ref) : Run Reply := unless_frozen r do
  match ← map_bang_each block r fuel 0 with
  | some out => return .value out
  | none => return .value (.array r)

/-- The elements for which the block is or is not truthy go to another array. -/
def filter_each (keeps : Bool) (r result : Ref) : Nat → Nat → Run (Option Value)
  | 0, _ => stop .running
  | fuel + 1, i => do
    let n ← len r
    if i < n then do
      let v ← read r i
      let a := block i [v]
      match a.leaves with
      | some out => return some out
      | none =>
        if val_truthy a.value = keeps then do
          val_array_push result v
          filter_each keeps r result fuel (i + 1)
        else filter_each keeps r result fuel (i + 1)
    else return none

def filter (keeps : Bool) (fuel : Nat) (r : Ref) : Run Reply := do
  let result ← val_array_new
  match ← filter_each block keeps r result fuel 0 with
  | some out => return .value out
  | none => return .value (.array result)

def select := filter block true
def reject := filter block false

/-- They go to the front of the array itself. Gives what the iterator is left with,
or how many there are. -/
def filter_bang_each (keeps : Bool) (r : Ref) : Nat → Nat → Nat → Run (Except Value Nat)
  | 0, _, _ => stop .running
  | fuel + 1, i, w => do
    let n ← len r
    if i < n then do
      let v ← read r i
      let a := block i [v]
      match a.leaves with
      | some out => return .error out
      | none =>
        if val_truthy a.value = keeps then do
          let v ← read r i
          write r w v
          filter_bang_each keeps r fuel (i + 1) (w + 1)
        else filter_bang_each keeps r fuel (i + 1) w
    else return .ok w

/-- `always`: the answer is the receiver even where nothing changed. -/
def filter_bang (keeps always : Bool) (fuel : Nat) (r : Ref) : Run Reply := unless_frozen r do
  let orig ← len r
  match ← filter_bang_each block keeps r fuel 0 0 with
  | .error out => return .value out
  | .ok w => do
    set_len r w
    return .value (if always || w ≠ orig then .array r else .nil)

def select_bang := filter_bang block true false
def keep_if := filter_bang block true true
def reject_bang := filter_bang block false false
def delete_if := filter_bang block false true

end

/-! ### compact, reverse, rotate -/

def compact_into (r result : Ref) : Nat → Nat → Run Unit
  | 0, _ => stop .running
  | fuel + 1, i => do
    let n ← len r
    if i < n then do
      let v ← read r i
      if v.kind ≠ .nil then do
        val_array_push result v
        compact_into r result fuel (i + 1)
      else compact_into r result fuel (i + 1)
    else return

def compact (fuel : Nat) (r : Ref) : Run Reply := do
  let result ← val_array_new
  compact_into r result fuel 0
  return .value (.array result)

def compact_bang_each (r : Ref) : Nat → Nat → Nat → Run Nat
  | 0, _, _ => stop .running
  | fuel + 1, i, w => do
    let n ← len r
    if i < n then do
      let v ← read r i
      if v.kind ≠ .nil then do
        write r w v
        compact_bang_each r fuel (i + 1) (w + 1)
      else compact_bang_each r fuel (i + 1) w
    else return w

def compact_bang (fuel : Nat) (r : Ref) : Run Reply := unless_frozen r do
  let w ← compact_bang_each r fuel 0 0
  let n ← len r
  set_len r w
  return .value (if w ≠ n then .array r else .nil)

/-- The elements below an index, the last one first. -/
def reverse_each (r result : Ref) : Nat → Run Unit
  | 0 => return
  | i + 1 => do
    let v ← read r i
    val_array_push result v
    reverse_each r result i

def reverse (r : Ref) : Run Reply := do
  let result ← val_array_new
  let n ← len r
  reverse_each r result n
  return .value (.array result)

/-- Exchanges the elements of the first half with those of the second one. -/
def swap_each (r : Ref) (n : Nat) : Nat → Nat → Run Unit
  | 0, _ => stop .running
  | fuel + 1, i =>
    if i < n / 2 then do
      let tmp ← read r i
      let v ← read r (n - 1 - i)
      write r i v
      write r (n - 1 - i) tmp
      swap_each r n fuel (i + 1)
    else return

def reverse_bang (fuel : Nat) (r : Ref) : Run Reply := unless_frozen r do
  let n ← len r
  swap_each r n fuel 0
  return .value (.array r)

/-- By how much `rotate` moves the elements of an array. -/
def rotation (args : List Value) (n : Nat) : Nat :=
  let offset := (int_arg args 0).getD 1
  let n := Int64.ofNat n
  ((offset % n + n) % n).toInt.toNat

def rotate_each (r result : Ref) (n offset : Nat) : Nat → Nat → Run Unit
  | 0, _ => stop .running
  | fuel + 1, i =>
    if i < n then do
      let v ← read r ((i + offset) % n)
      val_array_push result v
      rotate_each r result n offset fuel (i + 1)
    else return

def rotate (fuel : Nat) (r : Ref) (args : List Value) : Run Reply := do
  let n ← len r
  if n = 0 then return .value (.array r)
  else do
    let result ← val_array_new
    rotate_each r result n (rotation args n) fuel 0
    return .value (.array result)

/-- Whether the receiver is frozen is not looked at. -/
def rotate_bang (fuel : Nat) (r : Ref) (args : List Value) : Run Reply := do
  let n ← len r
  if n = 0 then return .value (.array r)
  else do
    let result ← val_array_new
    rotate_each r result n (rotation args n) fuel 0
    copy_while (pure n) r result fuel 0
    return .value (.array r)

/-! ### uniq -/

section
variable (hashes : List KeyedHash) (depth : Nat)

/-- Whether one of the elements of an array equals a value. -/
def any_equal (seen : Ref) (key : Value) : Nat → Nat → Run Bool
  | 0, _ => stop .running
  | fuel + 1, j => do
    let n ← len seen
    if j < n then do
      let v ← read seen j
      if ← val_equal hashes depth v key then return true
      else any_equal seen key fuel (j + 1)
    else return false

/-- What stands for the i-th element, or what the method is left with. -/
def uniq_key (blk : Option Callee) (i : Nat) (v : Value) : Except Value Value :=
  match blk with
  | some block =>
    let k := (block i [v]).value
    if val_is_signal k then .error k else .ok k
  | none => .ok v

def uniq_each (blk : Option Callee) (r result seen_keys : Ref) : Nat → Nat → Run (Option Value)
  | 0, _ => stop .running
  | fuel + 1, i => do
    let n ← len r
    if i < n then do
      let v ← read r i
      match uniq_key blk i v with
      | .error out => return some out
      | .ok key => do
        let found ← any_equal hashes depth seen_keys key fuel 0
        if found then uniq_each blk r result seen_keys fuel (i + 1)
        else do
          val_array_push seen_keys key
          val_array_push result v
          uniq_each blk r result seen_keys fuel (i + 1)
    else return none

/-- The elements that are not equal to an earlier one, in a new array. -/
def uniq_into (fuel : Nat) (r : Ref) (blk : Option Callee) : Run (Except Value Ref) := do
  let result ← val_array_new
  let seen_keys ← val_array_new
  match ← uniq_each hashes depth blk r result seen_keys fuel 0 with
  | some out => return .error out
  | none => return .ok result

def uniq (fuel : Nat) (r : Ref) (blk : Option Callee) : Run Reply := do
  match ← uniq_into hashes depth fuel r blk with
  | .error out => return .value out
  | .ok result => return .value (.array result)

/-- Whether the receiver is frozen is not looked at. -/
def uniq_bang (fuel : Nat) (r : Ref) (blk : Option Callee) : Run Reply := do
  match ← uniq_into hashes depth fuel r blk with
  | .error out => return .value out
  | .ok result => do
    let count ← len result
    let n ← len r
    if count = n then return .value .nil
    else do
      set_len r 0
      push_while (len result) r result fuel 0
      return .value (.array r)

end

/-! ### sort -/

def comparison_failed : Reply := .raised "ArgumentError" "comparison of elements failed"

/-- Whether an element comes before the one in front of it. Without a block that is
for `<=>` to say, where it is not plain. -/
def sort_less (blk : Option Callee) (spaceship : Callee) (n : Nat) (key prev : Value) : Except Reply Bool × Nat :=
  match blk with
  | some block =>
    let cmp := (block n [key, prev]).value
    if val_is_signal cmp then (.error (.value cmp), n + 1)
    else match cmp with
      | .int order => (.ok (order < 0), n + 1)
      | _ => (.error comparison_failed, n + 1)
  | none =>
    match key, prev with
    | .int a, .int b => (.ok (a < b), n)
    | .float a, .float b => (.ok (a.less b), n)
    | .int a, .float b => (.ok ((Double.of_int a).less b), n)
    | .float a, .int b => (.ok (a.less (.of_int b)), n)
    | .string a .., .string b .. => (.ok (strcmp a.toList b.toList < 0), n)
    | .symbol a, .symbol b => (.ok (strcmp a.toList b.toList < 0), n)
    | key, prev =>
      match (spaceship n [key, prev]).value with
      | .int order => (.ok (order < 0), n + 1)
      | _ => (.error comparison_failed, n + 1)

section
variable (blk : Option Callee) (spaceship : Callee)

/-- Moves the elements that come behind a key out of its way. Gives the index that
is left free, and the number of calls made. -/
def sort_down (result : Ref) (key : Value) : Nat → Nat → Nat → Run (Except Reply (Nat × Nat))
  | 0, _, _ => stop .running
  | fuel + 1, j, n =>
    if 0 < j then do
      let prev ← read result (j - 1)
      match sort_less blk spaceship n key prev with
      | (.error reply, _) => return .error reply
      | (.ok less, n) =>
        if less then do
          write result j prev
          sort_down result key fuel (j - 1) n
        else return .ok (j, n)
    else return .ok (j, n)

def sort_each (result : Ref) : Nat → Nat → Nat → Run (Option Reply)
  | 0, _, _ => stop .running
  | fuel + 1, i, n => do
    let size ← len result
    if i < size then do
      let key ← read result i
      match ← sort_down blk spaceship result key fuel i n with
      | .error reply => return some reply
      | .ok (j, n) => do
        write result j key
        sort_each result fuel (i + 1) n
    else return none

def sort (fuel : Nat) (r : Ref) : Run Reply := do
  let result ← val_array_new
  push_while (len r) result r fuel 0
  match ← sort_each blk spaceship result fuel 1 0 with
  | some reply => return reply
  | none => return .value (.array result)

/-- What sorting a copy answers is used where it is an array. -/
def sort_bang (fuel : Nat) (r : Ref) : Run Reply := unless_frozen r do
  let sorted ← val_array_new
  push_while (len r) sorted r fuel 0
  match ← sort blk spaceship fuel sorted with
  | .value (.array sort_out) => do
    copy_while (len sort_out) r sort_out fuel 0
    return .value (.array r)
  | _ => return .value (.array r)

end

/-! ### flatten -/

/-- How deep `flatten` goes, where a negative number is no limit. A float outside 32
bits says nothing certain. -/
def flatten_depth : List Value → Int
  | .int n :: _ => n.toInt32.toInt
  | .float x :: _ => x.value.tdiv (2 ^ 1074)
  | _ => -1

/-- Adds the elements of an array from `i` on, with those of the arrays among them
in their place. Gives the number of calls made. -/
def array_flatten_into (to_ary : Callee) (result : Ref) : Nat → Ref → Int → Nat → Nat → Run Nat
  | 0, _, _, _, _ => stop .running
  | fuel + 1, arr, depth, i, n => do
    let size ← len arr
    if i < size then do
      let elem ← read arr i
      let deeper := if 0 < depth then depth - 1 else depth
      match if depth = 0 then .nil else elem with
      | .array inner => do
        let n ← array_flatten_into to_ary result fuel inner deeper 0 n
        array_flatten_into to_ary result fuel arr depth (i + 1) n
      | .object _ =>
        match (to_ary n [elem]).value with
        | .array inner => do
          let n ← array_flatten_into to_ary result fuel inner deeper 0 (n + 1)
          array_flatten_into to_ary result fuel arr depth (i + 1) n
        | _ => do
          val_array_push result elem
          array_flatten_into to_ary result fuel arr depth (i + 1) (n + 1)
      | _ => do
        val_array_push result elem
        array_flatten_into to_ary result fuel arr depth (i + 1) n
    else return n

section
variable (to_ary : Callee)

def flatten (fuel : Nat) (r : Ref) (args : List Value) : Run Reply := do
  let result ← val_array_new
  let _ ← array_flatten_into to_ary result fuel r (flatten_depth args) 0 0
  return .value (.array result)

/-- Whether two arrays differ from `i` on, as far as the first one goes. -/
def differs_from (hashes : List KeyedHash) (depth : Nat) (r result : Ref) : Nat → Nat → Run Bool
  | 0, _ => stop .running
  | fuel + 1, i => do
    let n ← len r
    if i < n then do
      let a ← read r i
      let b ← read result i
      if ← val_equal hashes depth a b then differs_from hashes depth r result fuel (i + 1)
      else return true
    else return false

def flatten_bang (hashes : List KeyedHash) (depth fuel : Nat) (r : Ref) (args : List Value) : Run Reply :=
  unless_frozen r do
    let result ← val_array_new
    let _ ← array_flatten_into to_ary result fuel r (flatten_depth args) 0 0
    let count ← len result
    let n ← len r
    let changed ← if count ≠ n then pure true else differs_from hashes depth r result fuel 0
    set_len r 0
    push_while (len result) r result fuel 0
    return .value (if changed then .array r else .nil)

end

end stoned.arrays
