import Stoned.Program.Buffer
import Stoned.Keys

namespace stoned.arrays

open stoned.program (Buffer)

/-! The built-in methods that change an array (eval_dispatch_collections.c,
value.c). Memory does not run out: an allocation gives the cells it asks for, and
no array comes near 2^60 elements. -/

/-- An array: its buffer and whether it is frozen. -/
structure Cell where
  buffer : Buffer Value
  frozen : Bool

abbrev Memory := List Cell

/-- How a computation may not return: it reads or writes outside a buffer or what
was never written, or it is still running. -/
inductive Stop where
  | fault
  | running
  deriving DecidableEq

abbrev Run := StateT Memory (Except Stop)

/-- The answer of a method. -/
inductive Reply where
  | value (v : Value)
  | raised (klass message : String)

/-- The methods, with their aliases left out. -/
inductive Method where
  | push | concat | pop | delete | delete_at | clear | shift | unshift | insert | fill | replace | slice_bang
  deriving DecidableEq

structure Call where
  method : Method
  recv : Ref
  args : List Value
  /-- a pure block -/
  blk : Option (List Value → Value)

/-! ### Arrays in memory -/

def stop {α : Type} (reason : Stop) : Run α := fun _ => .error reason

def cell (r : Ref) : Run Cell := fun memory =>
  match memory[r]? with
  | some c => .ok (c, memory)
  | none => .error .fault

/-- Changes the buffer of an array, unless that fails. -/
def update (r : Ref) (change : Buffer Value → Option (Buffer Value)) : Run Unit := fun memory =>
  match memory[r]? with
  | some c =>
    match change c.buffer with
    | some buffer => .ok ((), memory.set r { c with buffer })
    | none => .error .fault
  | none => .error .fault

def len (r : Ref) : Run Nat := do return (← cell r).buffer.len

def read (r : Ref) (i : Nat) : Run Value := do
  match (← cell r).buffer.read i with
  | some v => return v
  | none => stop .fault

def write (r : Ref) (i : Nat) (v : Value) : Run Unit := update r fun b => b.write i v

def set_len (r : Ref) (n : Nat) : Run Unit := update r fun b => some (b.with_len n)

def val_array_new : Run Ref := fun memory => .ok (memory.length, memory ++ [{ buffer := .empty, frozen := false }])

def val_array_push (r : Ref) (v : Value) : Run Unit := update r fun b => b.push v

/-- Adds the elements of an array to another one, from index `j` up to a bound
that is read again for each of them. -/
def push_while (bound : Run Nat) (r src : Ref) : Nat → Nat → Run Unit
  | 0, _ => stop .running
  | fuel + 1, j => do
    let n ← bound
    if j < n then do
      let v ← read src j
      val_array_push r v
      push_while bound r src fuel (j + 1)
    else return

/-- The check every method makes before it changes the receiver. -/
def unless_frozen (r : Ref) (method : Run Reply) : Run Reply := do
  let c ← cell r
  if c.frozen then return .raised "FrozenError" "can't modify frozen Array" else method

/-! ### push, concat, pop, shift, unshift -/

def push_all (r : Ref) : List Value → Run Unit
  | [] => return
  | v :: args => do
    val_array_push r v
    push_all r args

def push (r : Ref) (args : List Value) : Run Reply := unless_frozen r do
  push_all r args
  return .value (.array r)

def concat_all (fuel : Nat) (r : Ref) : List Value → Run Unit
  | [] => return
  | .array src :: args => do
    push_while (len src) r src fuel 0
    concat_all fuel r args
  | _ :: args => concat_all fuel r args

def concat (fuel : Nat) (r : Ref) (args : List Value) : Run Reply := unless_frozen r do
  concat_all fuel r args
  return .value (.array r)

/-- The argument, where it is an Integer. -/
def int_arg (args : List Value) (i : Nat) : Option Int64 :=
  match args[i]? with
  | some (.int n) => some n
  | _ => none

def negative_size : Reply := .raised "ArgumentError" "negative array size"

def pop (fuel : Nat) (r : Ref) (args : List Value) : Run Reply := unless_frozen r do
  let alen ← len r
  match int_arg args 0 with
  | some n =>
    if n < 0 then return negative_size
    else do
      let n := min n.toInt.toNat alen
      let result ← val_array_new
      push_while (len r) result r fuel (alen - n)
      set_len r (alen - n)
      return .value (.array result)
  | none =>
    if alen = 0 then return .value .nil
    else do
      let v ← read r (alen - 1)
      set_len r (alen - 1)
      return .value v

def shift (fuel : Nat) (r : Ref) (args : List Value) : Run Reply := unless_frozen r do
  let alen ← len r
  match int_arg args 0 with
  | some n =>
    if n < 0 then return negative_size
    else do
      let n := min n.toInt.toNat alen
      let result ← val_array_new
      push_while (pure n) result r fuel 0
      update r fun b => (b.move 0 n (alen - n)).map fun b => b.with_len (alen - n)
      return .value (.array result)
  | none =>
    if alen = 0 then return .value .nil
    else do
      let first ← read r 0
      update r fun b => (b.move 0 1 (alen - 1)).map fun b => b.with_len (alen - 1)
      return .value first

/-- Adds an element at the front. -/
def unshift_one (v : Value) (b : Buffer Value) : Option (Buffer Value) := do
  let b := if b.cap ≤ b.len then b.grow else b
  let b ← b.move 1 0 b.len
  let b ← b.write 0 v
  return b.with_len (b.len + 1)

/-- The last argument comes first. -/
def unshift_all (r : Ref) : List Value → Run Unit
  | [] => return
  | v :: args => do
    unshift_all r args
    update r (unshift_one v)

def unshift (r : Ref) (args : List Value) : Run Reply := unless_frozen r do
  unshift_all r args
  return .value (.array r)

/-! ### insert, fill, replace, clear -/

/-- Adds nil until the array has as many elements as an index says. -/
def pad_to (r : Ref) (hi : Int64) : Nat → Run Unit
  | 0 => stop .running
  | fuel + 1 => do
    let n ← len r
    if Int64.ofNat n < hi then do
      val_array_push r .nil
      pad_to r hi fuel
    else return

/-- Makes room for some values in one go and puts them in the middle. -/
def insert_at (i : Nat) (values : List Value) (b : Buffer Value) : Option (Buffer Value) := do
  let b :=
    if b.cap < b.len + values.length then
      b.reserve (max (if b.cap = 0 then 8 else b.cap * 2) (b.len + values.length))
    else b
  let b ← b.move (i + values.length) i (b.len - i)
  let b ← b.write_all i values
  return b.with_len (b.len + values.length)

/-- The index an argument of `insert` says: negative ones count from behind the end. -/
def insert_index (alen idx : Int64) : Int64 :=
  let idx := if idx < 0 then alen + idx + 1 else idx
  if idx < 0 then 0 else idx

def insert (fuel : Nat) (r : Ref) (args : List Value) : Run Reply := unless_frozen r do
  match int_arg args 0 with
  | none => return .raised "ArgumentError" "Array#insert requires an Integer index"
  | some idx => do
    let alen ← len r
    let idx := insert_index (.ofNat alen) idx
    pad_to r idx fuel
    update r (insert_at idx.toInt.toNat (args.drop 1))
    return .value (.array r)

/-- The first index and the length that a range says. -/
def range_bounds (begin_val end_val : Value) (exclusive : Bool) (alen : Int64) : Int64 × Int64 :=
  let idx := match begin_val with | .int i => i | _ => 0
  let hi := match end_val with | .int i => i | _ => alen
  let idx := if idx < 0 then idx + alen else idx
  let hi := if hi < 0 then hi + alen else hi
  let hi := if exclusive then hi else hi + 1
  (idx, hi - idx)

/-- The first index and the length that the arguments of `fill` say, behind the
value where there is no block. -/
def fill_bounds (args : List Value) (alen : Int64) : Int64 × Int64 :=
  match args with
  | .range begin_val end_val exclusive :: _ => range_bounds begin_val end_val exclusive alen
  | .int start :: rest =>
    let start := if start < 0 then start + alen else start
    (start, match int_arg rest 0 with | some n => n | none => alen - start)
  | _ => (0, alen)

def fill_each (r : Ref) (value : Int64 → Value) (is_block : Bool) (hi : Int64) : Nat → Int64 → Run (Option Reply)
  | 0, _ => stop .running
  | fuel + 1, i =>
    if i < hi then
      if is_block && val_is_signal (value i) then return some (.value (value i))
      else do
        write r i.toInt.toNat (value i)
        fill_each r value is_block hi fuel (i + 1)
    else return none

/-- The elements from `start` on, `n` of them, are set, behind as many nils as it takes. -/
def fill_from (fuel : Nat) (r : Ref) (value : Int64 → Value) (is_block : Bool) (start n : Int64) : Run Reply := do
  pad_to r (start + n) fuel
  match ← fill_each r value is_block (start + n) fuel start with
  | some reply => return reply
  | none => return .value (.array r)

def fill (fuel : Nat) (r : Ref) (args : List Value) (blk : Option (List Value → Value)) : Run Reply :=
  unless_frozen r do
    if blk.isNone && args.isEmpty then return .raised "ArgumentError" "wrong number of arguments"
    else do
      let alen ← len r
      let (start, n) := fill_bounds (if blk.isSome then args else args.drop 1) (.ofNat alen)
      let start := if start < 0 then 0 else start
      if n < 0 then return .value (.array r)
      else match blk with
        | some block => fill_from fuel r (fun i => block [.int i]) true start n
        | none => fill_from fuel r (fun _ => args.headD .nil) false start n

def replace (fuel : Nat) (r : Ref) (args : List Value) : Run Reply :=
  match args with
  | [] => return .raised "ArgumentError" "Array#replace requires an argument"
  | arg :: _ => unless_frozen r do
    match arg with
    | .array src =>
      if src = r then return .value (.array r)
      else do
        set_len r 0
        push_while (len src) r src fuel 0
        return .value (.array r)
    | _ => return .raised "TypeError" "no implicit conversion into Array"

def clear (r : Ref) : Run Reply := unless_frozen r do
  set_len r 0
  return .value (.array r)

/-! ### delete, delete_at, slice! -/

section
variable (hashes : List KeyedHash) (depth : Nat)

/-- The values of the arrays as comparing them sees them. -/
def key_heap (memory : Memory) : KeyHeap :=
  { arrays := memory.map fun c => (c.buffer.cells.take c.buffer.len).filterMap id, hashes }

/-- Compares, with the calls nested at most `depth` deep. -/
def val_equal (a b : Value) : Run Bool := fun memory =>
  match (key_heap hashes memory).val_equal depth a b with
  | some same => .ok (same, memory)
  | none => .error .running

/-- Moves the elements that stay to the front. -/
def delete_each (r : Ref) (arg : Value) : Nat → Nat → Nat → Value → Run (Nat × Value)
  | 0, _, _, _ => stop .running
  | fuel + 1, i, w, deleted => do
    let alen ← len r
    if i < alen then do
      let v ← read r i
      let same ← val_equal hashes depth v arg
      if same then delete_each r arg fuel (i + 1) w v
      else do
        write r w v
        delete_each r arg fuel (i + 1) (w + 1) deleted
    else return (w, deleted)

def delete (fuel : Nat) (r : Ref) (args : List Value) (blk : Option (List Value → Value)) : Run Reply :=
  unless_frozen r do
    match args with
    | [] => return .value .nil
    | arg :: _ => do
      let (w, deleted) ← delete_each hashes depth r arg fuel 0 0 .nil
      set_len r w
      match blk with
      | some block => return .value (if deleted.kind = .nil then block [] else deleted)
      | none => return .value deleted

end

def delete_at (r : Ref) (args : List Value) : Run Reply := unless_frozen r do
  match int_arg args 0 with
  | none => return .value .nil
  | some idx => do
    let alen ← len r
    let idx := if idx < 0 then idx + Int64.ofNat alen else idx
    if idx < 0 ∨ Int64.ofNat alen ≤ idx then return .value .nil
    else do
      let deleted ← read r idx.toInt.toNat
      let i := idx.toInt.toNat
      update r fun b => (b.move i (i + 1) (alen - i - 1)).map fun b => b.with_len (alen - 1)
      return .value deleted

def slice_each (r removed : Ref) (hi : Int64) : Nat → Int64 → Run Unit
  | 0, _ => stop .running
  | fuel + 1, i =>
    if i < hi then do
      let v ← read r i.toInt.toNat
      val_array_push removed v
      slice_each r removed hi fuel (i + 1)
    else return

def compact_each (r : Ref) (idx n tail : Int64) : Nat → Int64 → Run Unit
  | 0, _ => stop .running
  | fuel + 1, i =>
    if i < tail then do
      let v ← read r (idx + n + i).toInt.toNat
      write r (idx + i).toInt.toNat v
      compact_each r idx n tail fuel (i + 1)
    else return

/-- The first index and the length that the arguments of `slice!` say. -/
def slice_bounds (args : List Value) (alen : Int64) : Option (Int64 × Int64) :=
  match args with
  | .range begin_val end_val exclusive :: _ => some (range_bounds begin_val end_val exclusive alen)
  | .int idx :: rest =>
    let idx := if idx < 0 then idx + alen else idx
    some (idx, match int_arg rest 0 with | some n => n | none => 1)
  | _ => none

/-- Whether the arguments are one index. -/
def single_index : List Value → Bool
  | [.int _] => true
  | _ => false

/-- The elements from `idx` on, `n` of them, are taken out; a single one is the answer itself. -/
def slice_out (fuel : Nat) (r : Ref) (single : Bool) (alen idx n : Int64) : Run Reply := do
  let removed ← val_array_new
  slice_each r removed (idx + n) fuel idx
  compact_each r idx n (alen - (idx + n)) fuel 0
  set_len r (alen - n).toInt.toNat
  let count ← len removed
  if single && count == 1 then do
    let v ← read removed 0
    return .value v
  else return .value (.array removed)

def slice_bang (fuel : Nat) (r : Ref) (args : List Value) : Run Reply :=
  if args.isEmpty then return .value .nil
  else unless_frozen r do
    let size ← len r
    let alen := Int64.ofNat size
    match slice_bounds args alen with
    | none => return .value .nil
    | some (idx, n) =>
      if idx < 0 ∨ alen < idx ∨ n < 0 then return .value .nil
      else slice_out fuel r (single_index args) alen idx (if alen < idx + n then alen - idx else n)

/-! ### dispatch_array -/

def dispatch_array (hashes : List KeyedHash) (depth fuel : Nat) (call : Call) : Run Reply :=
  match call.method with
  | .push => push call.recv call.args
  | .concat => concat fuel call.recv call.args
  | .pop => pop fuel call.recv call.args
  | .delete => delete hashes depth fuel call.recv call.args call.blk
  | .delete_at => delete_at call.recv call.args
  | .clear => clear call.recv
  | .shift => shift fuel call.recv call.args
  | .unshift => unshift call.recv call.args
  | .insert => insert fuel call.recv call.args
  | .fill => fill fuel call.recv call.args call.blk
  | .replace => replace fuel call.recv call.args
  | .slice_bang => slice_bang fuel call.recv call.args

/-- A sequence of calls, with the answer of each. -/
def run_calls (hashes : List KeyedHash) (depth fuel : Nat) : List Call → Run (List Reply)
  | [] => return []
  | call :: calls => do
    let reply ← dispatch_array hashes depth fuel call
    let replies ← run_calls hashes depth fuel calls
    return reply :: replies

end stoned.arrays
