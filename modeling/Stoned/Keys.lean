import Stoned.Value
import Stoned.Table

namespace stoned

/-! The keys of hashes and how they are compared (value.c, value.h). -/

/-- A key as a hash holds it. The address is that of a string's text or of a
block's node; keys of other kinds have none of their own. -/
structure HashKey where
  value : Value
  address : Ref

/-- The part of a hash its keys are looked up in. -/
structure KeyedHash where
  pairs : List (HashKey × Value)
  compare_by_identity : Bool

/-- What the keys refer to. Keys are not mutated, so it does not change. -/
structure KeyHeap where
  arrays : List (List Value)
  hashes : List KeyedHash

def KeyHeap.elems (heap : KeyHeap) (array : Ref) : List Value := (heap.arrays[array]?).getD []

def KeyHeap.hash (heap : KeyHeap) (hash : Ref) : KeyedHash :=
  (heap.hashes[hash]?).getD { pairs := [], compare_by_identity := false }

section
variable (equal : Value → Value → Option Bool)

/-- Identity. What has none is compared by value. -/
def val_identity_equal (a b : HashKey) : Option Bool :=
  if a.value.kind = b.value.kind then
    match a.value, b.value with
    | .object x, .object y => some (x = y)
    | .block .., .block .. => some (a.address = b.address)
    | .string .., .string .. => some (a.address = b.address)
    | .array x, .array y => some (x = y)
    | .hash x, .hash y => some (x = y)
    | .klass x, .klass y => some (x = y)
    | x, y => equal x y
  else some false

def key_equal (compare_by_identity : Bool) (stored key : HashKey) : Option Bool :=
  if compare_by_identity then val_identity_equal equal stored key else equal stored.value key.value

def equal_elems : List (Value × Value) → Option Bool
  | [] => some true
  | (x, y) :: rest => do
    if ← equal x y then equal_elems rest else return false

/-- Every pair of one hash is found in the other one. -/
def equal_pairs (other : KeyedHash) : List (HashKey × Value) → Option Bool
  | [] => some true
  | (key, val) :: rest => do
    match ← table.get (key_equal equal other.compare_by_identity) key other.pairs with
    | none => return false
    | some found => if ← equal val found then equal_pairs other rest else return false

end

/-- Structural equality, with the calls nested at most `depth` deep: a
comparison that would go deeper runs out of stack and does not return. -/
def KeyHeap.val_equal (heap : KeyHeap) : Nat → Value → Value → Option Bool
  | 0, _, _ => none
  | depth + 1, a, b =>
    let equal := heap.val_equal depth
    match a, b with
    | .int i, .float f => some (.of_int i == f)
    | .float f, .int i => some (f == .of_int i)
    | .nil, .nil => some true
    | .bool x, .bool y => some (x = y)
    | .int x, .int y => some (x = y)
    | .float x, .float y => some (x == y)
    | .string x .., .string y .. => some (x = y)
    | .symbol x, .symbol y => some (c_string x = c_string y)
    | .klass x, .klass y => some (x = y)
    | .object x, .object y => some (x = y)
    | .range begin₁ end₁ exclusive₁, .range begin₂ end₂ exclusive₂ =>
      if exclusive₁ = exclusive₂ then do
        if ← equal begin₁ begin₂ then equal end₁ end₂ else return false
      else some false
    | .array x, .array y =>
      if x = y then some true
      else if (heap.elems x).length = (heap.elems y).length then
        equal_elems equal ((heap.elems x).zip (heap.elems y))
      else some false
    | .hash x, .hash y =>
      if x = y then some true
      else if (heap.hash x).pairs.length = (heap.hash y).pairs.length then
        equal_pairs equal (heap.hash y) (heap.hash x).pairs
      else some false
    | _, _ => some false

def KeyHeap.val_hash_key_equal (heap : KeyHeap) (depth : Nat) (compare_by_identity : Bool) :
    HashKey → HashKey → Option Bool :=
  key_equal (heap.val_equal depth) compare_by_identity

def KeyHeap.val_hash_set (heap : KeyHeap) (depth : Nat) (hash : KeyedHash) (key : HashKey) (val : Value) :
    Option KeyedHash :=
  (table.set (heap.val_hash_key_equal depth hash.compare_by_identity) key val hash.pairs).map fun pairs =>
    { hash with pairs }

def KeyHeap.val_hash_get (heap : KeyHeap) (depth : Nat) (hash : KeyedHash) (key : HashKey) : Option (Option Value) :=
  table.get (heap.val_hash_key_equal depth hash.compare_by_identity) key hash.pairs

def KeyHeap.val_hash_delete (heap : KeyHeap) (depth : Nat) (hash : KeyedHash) (key : HashKey) : Option KeyedHash :=
  (table.delete (heap.val_hash_key_equal depth hash.compare_by_identity) key hash.pairs).map fun pairs =>
    { hash with pairs }

end stoned
