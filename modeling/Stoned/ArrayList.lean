import Stoned.Arrays

namespace stoned.arrays

/-! What the methods that change an array do to the list it stands for, and where
they do it. -/

/-- The list an array stands for. -/
structure Held where
  elems : List Value
  frozen : Bool

/-- What a method comes to: the elements of the receiver, the array it makes on the
way, if any, and its answer, given what that array is called. -/
structure Effect where
  elems : List Value
  made : Option (List Value)
  reply : Ref → Reply

def answers (elems : List Value) (reply : Reply) : Effect := { elems, made := none, reply := fun _ => reply }

/-- The answer is a new array. -/
def gives (elems made : List Value) : Effect := { elems, made := some made, reply := fun r => .value (.array r) }

/-- Negative indices count from the end. -/
def position (i : Int) (n : Nat) : Int := if i < 0 then i + n else i

namespace list

/-- Some values in the middle, behind as many nils as it takes. -/
def insert (xs : List Value) (i : Nat) (values : List Value) : List Value :=
  let padded := xs ++ List.replicate (i - xs.length) .nil
  padded.take i ++ values ++ padded.drop i

/-- The elements from `i` on, `n` of them, are replaced. -/
def fill (xs : List Value) (i n : Nat) (value : Nat → Value) : List Value :=
  if n = 0 then xs
  else
    let padded := xs ++ List.replicate (i + n - xs.length) .nil
    padded.take i ++ (List.range n).map (fun k => value (i + k)) ++ padded.drop (i + n)

/-- Without the elements from `i` on, `n` of them. -/
def cut (xs : List Value) (i n : Nat) : List Value := xs.take i ++ xs.drop (i + n)

def part (xs : List Value) (i n : Nat) : List Value := (xs.drop i).take n

end list

/-- The index behind the last one of a range; without an Integer that is the end. -/
def range_end (end_val : Value) (exclusive : Bool) (n : Nat) : Int :=
  match end_val with
  | .int i => position i.toInt n + if exclusive then 0 else 1
  | _ => n

def range_start (begin_val : Value) (n : Nat) : Int :=
  match begin_val with
  | .int i => position i.toInt n
  | _ => 0

/-- The elements of the arrays among some arguments. -/
def given (lists : List Held) : List Value → List Value
  | [] => []
  | .array src :: args => ((lists[src]?).map Held.elems).getD [] ++ given lists args
  | _ :: args => given lists args

section
variable (equal : Value → Value → Bool) (lists : List Held) (r : Ref) (xs : List Value) (args : List Value)
  (blk : Option (List Value → Value))

namespace effect

def pop : Effect :=
  match int_arg args 0 with
  | some n =>
    if n.toInt < 0 then answers xs negative_size
    else gives (xs.take (xs.length - n.toInt.toNat)) (xs.drop (xs.length - n.toInt.toNat))
  | none => answers xs.dropLast (.value (xs.getLast?.getD .nil))

def shift : Effect :=
  match int_arg args 0 with
  | some n =>
    if n.toInt < 0 then answers xs negative_size else gives (xs.drop n.toInt.toNat) (xs.take n.toInt.toNat)
  | none => answers xs.tail (.value (xs.head?.getD .nil))

def insert : Effect :=
  match int_arg args 0 with
  | some i =>
    let i := if i.toInt < 0 then i.toInt + xs.length + 1 else i.toInt
    answers (list.insert xs i.toNat (args.drop 1)) (.value (.array r))
  | none => answers xs (.raised "ArgumentError" "Array#insert requires an Integer index")

/-- All elements that are equal to the argument are removed; the last of them is the answer. -/
def delete : Effect :=
  match args with
  | [] => answers xs (.value .nil)
  | arg :: _ =>
    let absent := match blk with | some block => block [] | none => .nil
    answers (xs.filter fun x => !equal x arg) (.value (((xs.filter fun x => equal x arg).getLast?).getD absent))

def delete_at : Effect :=
  match int_arg args 0 with
  | some i =>
    let p := position i.toInt xs.length
    if 0 ≤ p ∧ p < xs.length then answers (xs.eraseIdx p.toNat) (.value ((xs[p.toNat]?).getD .nil))
    else answers xs (.value .nil)
  | none => answers xs (.value .nil)

/-- `n` elements from an index inside the array, or right behind it, are removed. -/
def slice (p n : Int) : Effect :=
  if 0 ≤ p ∧ p ≤ xs.length ∧ 0 ≤ n then gives (list.cut xs p.toNat n.toNat) (list.part xs p.toNat n.toNat)
  else answers xs (.value .nil)

def slice_bang : Effect :=
  match args with
  | [.int i] =>
    let p := position i.toInt xs.length
    if 0 ≤ p ∧ p < xs.length then
      { elems := list.cut xs p.toNat 1, made := some (list.part xs p.toNat 1),
        reply := fun _ => .value ((xs[p.toNat]?).getD .nil) }
    else answers xs (.value .nil)
  | .int i :: rest =>
    slice xs (position i.toInt xs.length) (match int_arg rest 0 with | some n => n.toInt | none => 1)
  | .range begin_val end_val exclusive :: _ =>
    let p := range_start begin_val xs.length
    slice xs p (range_end end_val exclusive xs.length - p)
  | _ => answers xs (.value .nil)

/-- Which elements `fill` replaces: the first one and how many. -/
def filled (args : List Value) (n : Nat) : Nat × Nat :=
  match args with
  | .range begin_val end_val exclusive :: _ =>
    let p := (range_start begin_val n).toNat
    (p, (range_end end_val exclusive n - p).toNat)
  | .int i :: rest =>
    let p := (position i.toInt n).toNat
    (p, match int_arg rest 0 with | some count => count.toInt.toNat | none => n - p)
  | _ => (0, n)

def fill : Effect :=
  match blk, args with
  | none, [] => answers xs (.raised "ArgumentError" "wrong number of arguments")
  | none, value :: rest =>
    answers (list.fill xs (filled rest xs.length).1 (filled rest xs.length).2 fun _ => value) (.value (.array r))
  | some block, _ =>
    answers (list.fill xs (filled args xs.length).1 (filled args xs.length).2 fun i => block [.int (.ofNat i)])
      (.value (.array r))

def replace : Effect :=
  match args with
  | [] => answers xs (.raised "ArgumentError" "Array#replace requires an argument")
  | .array src :: _ => answers (((lists[src]?).map Held.elems).getD []) (.value (.array r))
  | _ => answers xs (.raised "TypeError" "no implicit conversion into Array")

end effect

/-- Whether a call looks at the flag of its receiver at all. -/
def checks_frozen : Method → List Value → Bool
  | .replace, [] => false
  | .slice_bang, [] => false
  | _, _ => true

def effect_of (method : Method) : Effect :=
  match method with
  | .push => answers (xs ++ args) (.value (.array r))
  | .concat => answers (xs ++ given lists args) (.value (.array r))
  | .pop => effect.pop xs args
  | .delete => effect.delete equal xs args blk
  | .delete_at => effect.delete_at xs args
  | .clear => answers [] (.value (.array r))
  | .shift => effect.shift xs args
  | .unshift => answers (args ++ xs) (.value (.array r))
  | .insert => effect.insert r xs args
  | .fill => effect.fill r xs args blk
  | .replace => effect.replace lists r xs args
  | .slice_bang => effect.slice_bang xs args

/-- The lists after the elements of one of them have changed. -/
def changed (lists : List Held) (r : Ref) (elems : List Value) : List Held :=
  lists.modify r fun h => { h with elems }

def made_lists (made : Option (List Value)) : List Held := made.toList.map fun elems => { elems, frozen := false }

end

section
variable (hashes : List KeyedHash) (depth : Nat)

/-- Comparing values, where the arrays stand for some lists. -/
def equal_in (lists : List Held) (a b : Value) : Option Bool :=
  ({ arrays := lists.map Held.elems, hashes } : KeyHeap).val_equal depth a b

/-- A call on the lists: its answer, and the lists behind it. -/
def listed (lists : List Held) (call : Call) : Reply × List Held :=
  match lists[call.recv]? with
  | some h =>
    if h.frozen && checks_frozen call.method call.args then
      (.raised "FrozenError" "can't modify frozen Array", lists)
    else
      let e := effect_of (fun a b => equal_in hashes depth lists a b = some true) lists call.recv h.elems call.args
        call.blk call.method
      (e.reply lists.length, changed lists call.recv e.elems ++ made_lists e.made)
  | none => (.value .nil, lists)

def listed_calls (lists : List Held) : List Call → List Reply × List Held
  | [] => ([], lists)
  | call :: calls =>
    let (reply, lists) := listed hashes depth lists call
    let (replies, lists) := listed_calls lists calls
    (reply :: replies, lists)

/-! ### Where the methods do it -/

/-- A 64-bit integer. -/
def Fits (i : Int) : Prop := -2 ^ 63 ≤ i ∧ i < 2 ^ 63

/-- A call the interpreter makes: receiver and arguments are there, no array has
2^60 elements, of sixteen bytes each, and the block returns ordinary values. -/
structure Valid (lists : List Held) (call : Call) : Prop where
  recv : call.recv < lists.length
  args : ∀ src, .array src ∈ call.args → src < lists.length
  small : ∀ h ∈ lists, h.elems.length < 2 ^ 60
  blk : ∀ block ∈ call.blk, ∀ vs, val_is_signal (block vs) = false

/-- The bounds of a range are computed without overflow. -/
def RangeFits (begin_val end_val : Value) (exclusive : Bool) (n : Nat) : Prop :=
  Fits (range_end end_val exclusive n) ∧ Fits (range_end end_val exclusive n - range_start begin_val n)

/-- `concat` is not given the receiver, unless it is empty by then. -/
def concat_ends (lists : List Held) (r : Ref) (xs : List Value) (args : List Value) : Prop :=
  ∀ before behind, args = before ++ .array r :: behind → xs = [] ∧ given lists before = []

/-- Comparing an element with the argument returns and does not look at the
receiver, and a block is not given where nil is deleted. -/
def delete_sees (lists : List Held) (r : Ref) (xs : List Value) (args : List Value)
    (blk : Option (List Value → Value)) : Prop :=
  ∀ arg ∈ args.head?,
    (∀ x ∈ xs, ∃ same, ∀ ys : List Value, ys.length = xs.length →
      equal_in hashes depth (changed lists r ys) x arg = some same) ∧
    (blk.isSome → arg = .nil → .nil ∉ xs)

/-- One index is not the one right behind the last element, and nothing overflows. -/
def slice_fits (n : Nat) : List Value → Prop
  | [.int i] => position i.toInt n ≠ n
  | .int i :: rest => ∀ count, int_arg rest 0 = some count → 0 ≤ position i.toInt n → position i.toInt n ≤ n →
    0 ≤ count.toInt → Fits (position i.toInt n + count.toInt)
  | .range begin_val end_val exclusive :: _ => RangeFits begin_val end_val exclusive n
  | _ => True

/-- Without a length the start is not before the first element, a range has an end
or excludes it, no length of 0 is behind the last element, and nothing overflows. -/
def fill_fits (n : Nat) : List Value → Prop
  | .int i :: rest =>
    match int_arg rest 0 with
    | some count => 0 ≤ count.toInt → Fits (max 0 (position i.toInt n) + count.toInt) ∧
      (count.toInt = 0 → position i.toInt n ≤ n)
    | none => 0 ≤ position i.toInt n
  | .range begin_val end_val exclusive :: _ =>
    RangeFits begin_val end_val exclusive n ∧ 0 ≤ range_start begin_val n ∧
      (exclusive = false → end_val.kind = .int) ∧
      (range_end end_val exclusive n = range_start begin_val n → range_start begin_val n ≤ n)
  | _ => True

/-- The calls that do what the list operation does. -/
def Sound (lists : List Held) (call : Call) : Prop :=
  ∀ h, lists[call.recv]? = some h → h.frozen = false →
    match call.method with
    | .concat => concat_ends lists call.recv h.elems call.args
    | .delete => delete_sees hashes depth lists call.recv h.elems call.args call.blk
    | .slice_bang => slice_fits h.elems.length call.args
    | .fill => fill_fits h.elems.length (if call.blk.isSome then call.args else call.args.drop 1)
    | _ => True

/-- Every call of a sequence is sound where it is made. -/
def SoundCalls (lists : List Held) : List Call → Prop
  | [] => True
  | call :: calls =>
    Valid lists call ∧ Sound hashes depth lists call ∧ SoundCalls (listed hashes depth lists call).2 calls

end

end stoned.arrays
