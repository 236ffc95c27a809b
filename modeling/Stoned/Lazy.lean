import Mathlib.Tactic

namespace stoned.lazy

/-! Lazy enumerators and the methods of arrays they stand for (eval.c). Blocks are
pure: they are functions of the values they are given. -/

/-- What the pipelines ask of a value: whether it is an array, and what `to_a`
gives where it responds to it. -/
class Values (α : Type) where
  nil : α
  array : List α → α
  elements : α → Option (List α)
  to_a : α → Option (List α)
  elements_array : ∀ xs, elements (array xs) = some xs
  elements_nil : elements nil = none
  to_a_elements : ∀ v xs, elements v = some xs → to_a v = some xs
  to_a_nil : to_a nil = some []

/-- A stage of a pipeline, with its block or its argument. -/
inductive Op (α : Type) where
  | select (arg : α → Bool)
  | reject (arg : α → Bool)
  | map (arg : α → α)
  | flat_map (arg : α → α)
  | take (arg : Int)
  | take_while (arg : α → Bool)
  | drop (arg : Int)
  | drop_while (arg : α → Bool)

/-! ### The methods of arrays -/

namespace array
variable {α : Type}

def select_each (block : α → Bool) : List α → List α → List α
  | result, [] => result
  | result, x :: rest => select_each block (if block x then result ++ [x] else result) rest

def select (block : α → Bool) (xs : List α) : List α := select_each block [] xs

def reject_each (block : α → Bool) : List α → List α → List α
  | result, [] => result
  | result, x :: rest => reject_each block (if !block x then result ++ [x] else result) rest

def reject (block : α → Bool) (xs : List α) : List α := reject_each block [] xs

def map_each (block : α → α) : List α → List α → List α
  | result, [] => result
  | result, x :: rest => map_each block (result ++ [block x]) rest

def map (block : α → α) (xs : List α) : List α := map_each block [] xs

def flat_map_each [Values α] (block : α → α) : List α → List α → List α
  | result, [] => result
  | result, x :: rest =>
    match Values.elements (block x) with
    | some y => flat_map_each block (result ++ y) rest
    | none => flat_map_each block (result ++ [block x]) rest

def flat_map [Values α] (block : α → α) (xs : List α) : List α := flat_map_each block [] xs

def take_each (n : Int) : List α → List α → List α
  | result, [] => result
  | result, x :: rest => if n ≤ result.length then result else take_each n (result ++ [x]) rest

def take (n : Int) (xs : List α) : List α := take_each n [] xs

def take_while_each (block : α → Bool) : List α → List α → List α
  | result, [] => result
  | result, x :: rest => if block x then take_while_each block (result ++ [x]) rest else result

def take_while (block : α → Bool) (xs : List α) : List α := take_while_each block [] xs

def drop_each (n : Int) : List α → Int → List α → List α
  | result, _, [] => result
  | result, i, x :: rest => drop_each n (if n ≤ i then result ++ [x] else result) (i + 1) rest

def drop (n : Int) (xs : List α) : List α := drop_each n [] 0 xs

def drop_while_each (block : α → Bool) : List α → Bool → List α → List α
  | result, _, [] => result
  | result, dropping, x :: rest =>
    if dropping && block x then drop_while_each block result dropping rest
    else drop_while_each block (result ++ [x]) false rest

def drop_while (block : α → Bool) (xs : List α) : List α := drop_while_each block [] true xs

end array

section
variable {α : Type}

def Op.eagerly [Values α] : Op α → List α → List α
  | .select block => array.select block
  | .reject block => array.reject block
  | .map block => array.map block
  | .flat_map block => array.flat_map block
  | .take n => array.take n
  | .take_while block => array.take_while block
  | .drop n => array.drop n
  | .drop_while block => array.drop_while block

/-- The methods of a chain in order, each on the array the one before it gave. -/
def eagerly [Values α] (ops : List (Op α)) (xs : List α) : List α :=
  ops.foldl (fun xs op => op.eagerly xs) xs

end

/-! ### Enumerator::Lazy -/

structure Lazy (α : Type) where
  src : List α
  ops : List (Op α)

/-- What `_collect` keeps from one element to the next. -/
structure Flags where
  drop_counts : Nat → Nat
  drop_while_done : Nat → Bool
  stop : Bool

section
variable {α : Type}

def of_array (xs : List α) : Lazy α := { src := xs, ops := [] }

namespace Lazy

def select (lazy : Lazy α) (block : α → Bool) : Lazy α := { lazy with ops := lazy.ops ++ [.select block] }

def reject (lazy : Lazy α) (block : α → Bool) : Lazy α := { lazy with ops := lazy.ops ++ [.reject block] }

def map (lazy : Lazy α) (block : α → α) : Lazy α := { lazy with ops := lazy.ops ++ [.map block] }

def flat_map (lazy : Lazy α) (block : α → α) : Lazy α := { lazy with ops := lazy.ops ++ [.flat_map block] }

def take (lazy : Lazy α) (n : Int) : Lazy α := { lazy with ops := lazy.ops ++ [.take n] }

def take_while (lazy : Lazy α) (block : α → Bool) : Lazy α := { lazy with ops := lazy.ops ++ [.take_while block] }

def drop (lazy : Lazy α) (n : Int) : Lazy α := { lazy with ops := lazy.ops ++ [.drop n] }

def drop_while (lazy : Lazy α) (block : α → Bool) : Lazy α := { lazy with ops := lazy.ops ++ [.drop_while block] }

end Lazy

def Op.lazily (lazy : Lazy α) : Op α → Lazy α
  | .select block => lazy.select block
  | .reject block => lazy.reject block
  | .map block => lazy.map block
  | .flat_map block => lazy.flat_map block
  | .take n => lazy.take n
  | .take_while block => lazy.take_while block
  | .drop n => lazy.drop n
  | .drop_while block => lazy.drop_while block

/-- The methods of a chain in order, on the lazy enumerator of an array. -/
def lazily (ops : List (Op α)) (xs : List α) : Lazy α := ops.foldl Op.lazily (of_array xs)

def new_flags : Flags := { drop_counts := fun _ => 0, drop_while_done := fun _ => false, stop := false }

/-- The block of a `flat_map` stage, around the one of its caller. -/
def expanded [Values α] (arg : α → α) (v : α) : α :=
  match Values.to_a (arg v) with
  | some r => Values.array r
  | none => Values.array [arg v]

def take_while_vals (arg : α → Bool) : List α → List α → List α × Bool
  | new_vals, [] => (new_vals, false)
  | new_vals, v :: vals => if arg v then take_while_vals arg (new_vals ++ [v]) vals else (new_vals, true)

def drop_vals (arg : Int) : Nat → List α → List α → List α × Nat
  | count, new_vals, [] => (new_vals, count)
  | count, new_vals, v :: vals =>
    if count < arg then drop_vals arg (count + 1) new_vals vals else drop_vals arg count (new_vals ++ [v]) vals

def drop_while_vals (arg : α → Bool) : Bool → List α → List α → List α × Bool
  | done, new_vals, [] => (new_vals, done)
  | done, new_vals, v :: vals =>
    if !done && arg v then drop_while_vals arg done new_vals vals
    else drop_while_vals arg true (new_vals ++ [v]) vals

/-- One stage: the values that are left, whether to skip the stages behind, and the flags. -/
def stage [Values α] (op : Op α) (idx : Nat) (vals : List α) (flags : Flags) : List α × Bool × Flags :=
  match op with
  | .select arg =>
    let vals := array.select arg vals
    (vals, vals.isEmpty, flags)
  | .reject arg =>
    let vals := array.reject arg vals
    (vals, vals.isEmpty, flags)
  | .map arg => (array.map arg vals, false, flags)
  | .flat_map arg => (array.flat_map (expanded arg) vals, false, flags)
  | .take_while arg =>
    let (vals, stopped) := take_while_vals arg [] vals
    (vals, vals.isEmpty, { flags with stop := flags.stop || stopped })
  | .drop arg =>
    let (vals, count) := drop_vals arg (flags.drop_counts idx) [] vals
    (vals, vals.isEmpty, { flags with drop_counts := Function.update flags.drop_counts idx count })
  | .drop_while arg =>
    let (vals, done) := drop_while_vals arg (flags.drop_while_done idx) [] vals
    (vals, vals.isEmpty, { flags with drop_while_done := Function.update flags.drop_while_done idx done })
  -- not a stage: only its limit counts
  | .take _ => (vals, false, flags)

def stages [Values α] : List (Op α) → Nat → List α → Bool → Flags → List α × Bool × Flags
  | [], _, vals, skip, flags => (vals, skip, flags)
  | op :: ops, idx, vals, skip, flags =>
    if skip || flags.stop then (vals, skip, flags)
    else
      let (vals, skip, flags) := stage op idx vals flags
      stages ops (idx + 1) vals skip flags

def reached (limit : Option Int) (result : List α) : Bool := limit.any (· ≤ (result.length : Int))

def push_vals (limit : Option Int) : List α → List α → List α
  | result, [] => result
  | result, v :: vals =>
    let result := result ++ [v]
    if reached limit result then result else push_vals limit result vals

def collect_each [Values α] (ops : List (Op α)) (limit : Option Int) : List α → Flags → List α → List α
  | result, _, [] => result
  | result, flags, x :: src =>
    if flags.stop then result
    else
      let (vals, skip, flags) := stages ops 0 [x] false flags
      let result := if skip then result else push_vals limit result vals
      if reached limit result then result else collect_each ops limit result flags src

def Op.take_limit (limit : Option Int) : Op α → Option Int
  | .take arg => some arg
  | _ => limit

/-- The argument of the last `take`. -/
def take_limit (ops : List (Op α)) : Option Int := ops.foldl Op.take_limit none

def min_limit (cap take_limit : Option Int) : Option Int := ([cap, take_limit].filterMap id).min?

namespace Lazy
variable [Values α]

def _collect (lazy : Lazy α) (cap : Option Int) : List α :=
  collect_each lazy.ops (min_limit cap (take_limit lazy.ops)) [] new_flags lazy.src

def first (lazy : Lazy α) (n : Int) : List α := lazy._collect (some n)

def to_a (lazy : Lazy α) : List α := lazy._collect none

end Lazy

end

end stoned.lazy
