import Stoned.Double
import Stoned.Iterators
import Stoned.Program.Signed

namespace stoned.binary_search

open arrays (Answer Reply)
open program (signed.add signed.sub signed.div)

/-! Binary search in arrays and ranges (eval_dispatch_collections.c), with a block.
The block may answer anything, but leaves the array alone. -/

/-- Where the search goes on from a place. -/
inductive Verdict where
  | up | here | down
  deriving DecidableEq, Repr

/-- The answer to the first call while it is kept (`have_first`), and the places the
block was called for. -/
structure Probes (ι : Type) where
  first : Option (ι × Value)
  tested : List ι

section
variable {ι : Type} [DecidableEq ι] (class_name : Value → String) (block : Nat → Value → Answer) (arg : ι → Option Value)

def call_block (i : ι) (s : Probes ι) : Option (Except Reply Value × Probes ι) :=
  (arg i).map fun v =>
    let a := block s.tested.length v
    let s := { s with tested := s.tested ++ [i] }
    match a.leaves with
    | some out => (.error (.value out), s)
    | none => (.ok a.value, s)

/-- The first answer is used again where it was given. -/
def test (mid : ι) (s : Probes ι) : Option (Except Reply Value × Probes ι) :=
  match s.first with
  | some (first_mid, first) =>
    if mid = first_mid then some (.ok first, { s with first := none }) else call_block block arg mid s
  | none => call_block block arg mid s

def numeric (v : Value) : Bool := v.kind = .int ∨ v.kind = .float

def truth (v : Value) : Bool := v.kind = .bool ∨ v.kind = .nil

def wrong_type (v : Value) (expected : String) : Reply :=
  .raised "TypeError" ("wrong argument type " ++ class_name v ++ " (must be " ++ expected ++ ")")

def sign (cmp : Double) : Verdict :=
  if cmp == .of_int 0 then .here else if (Double.of_int 0).less cmp then .up else .down

/-- find-any: the answer is compared with 0. -/
def judge_numeric : Value → Except Reply Verdict
  | .int ival => .ok (sign (.of_int ival))
  | .float fval => .ok (sign fval)
  | v => .error (wrong_type class_name v "numeric")

/-- find-minimum -/
def judge_truth : Value → Except Reply Verdict
  | .bool bval => .ok (if bval then .down else .up)
  | .nil => .ok .up
  | v => .error (wrong_type class_name v "numeric, true, false or nil")

/-- The first call tells what kind of search it is. -/
def choose_mode (first_mid : ι) (any minimum : Probes ι → Option (Reply × Probes ι)) : Option (Reply × Probes ι) :=
  (call_block block arg first_mid { first := none, tested := [] }).bind fun (answer, s) =>
    match answer with
    | .error reply => some (reply, s)
    | .ok first =>
      if numeric first then any { s with first := some (first_mid, first) }
      else if truth first then minimum { s with first := some (first_mid, first) }
      else some (wrong_type class_name first "numeric, true, false or nil", s)

end

/-! ### Arrays -/

section
variable (class_name : Value → String) (block : Nat → Value → Answer)

/-- The loop over the half-open interval. -/
def search (elems : List Value) (judge : Value → Except Reply Verdict) (found_at finish : Nat → Option Reply) :
    Nat → Nat → Nat → Probes Nat → Option (Reply × Probes Nat)
  | 0, _, _, _ => none
  | fuel + 1, lo, hi, s =>
    if lo < hi then
      let mid := lo + (hi - lo) / 2
      (test block (elems[·]?) mid s).bind fun (r, s) =>
        match r.bind judge with
        | .error reply => some (reply, s)
        | .ok .here => (found_at mid).map (·, s)
        | .ok .up => search elems judge found_at finish fuel (mid + 1) hi s
        | .ok .down => search elems judge found_at finish fuel lo mid s
    else (finish lo).map (·, s)

/-- What is found at a place: the index if that is wanted, or the element. -/
def reply_at (want_index : Bool) (elems : List Value) (i : Nat) : Option Reply :=
  if want_index then some (.value (.int (.ofNat i))) else (elems[i]?).map .value

/-- Array#bsearch, and Array#bsearch_index where the index is wanted. -/
def bsearch (fuel : Nat) (want_index : Bool) (elems : List Value) : Option (Reply × Probes Nat) :=
  let n := elems.length
  let found_at := reply_at want_index elems
  if n = 0 then some (.value .nil, { first := none, tested := [] })
  else
    choose_mode class_name block (elems[·]?) (n / 2)
      (search block elems (judge_numeric class_name) found_at (fun _ => some (.value .nil)) fuel 0 n)
      (search block elems (judge_truth class_name) found_at
        (fun lo => if n ≤ lo then some (.value .nil) else found_at lo) fuel 0 n)

/-! ### Ranges of integers -/

def midpoint (lo hi : Int64) : Option Int64 := do
  let width ← signed.sub hi lo
  let half ← signed.div width 2
  signed.add lo half

/-- The loop over the closed interval; `found` is the place that was left behind last
on the way down. -/
def range_search (judge : Value → Except Reply Verdict) (finish : Option Int64 → Reply) :
    Nat → Int64 → Int64 → Option Int64 → Probes Int64 → Option (Reply × Probes Int64)
  | 0, _, _, _, _ => none
  | fuel + 1, lo, hi, found, s =>
    if lo ≤ hi then do
      let mid ← midpoint lo hi
      let (r, s) ← test block (fun i => some (.int i)) mid s
      match r.bind judge with
      | .error reply => some (reply, s)
      | .ok .here => some (.value (.int mid), s)
      | .ok .up => (signed.add mid 1).bind fun lo => range_search judge finish fuel lo hi found s
      | .ok .down => (signed.sub mid 1).bind fun hi => range_search judge finish fuel lo hi (some mid) s
    else some (finish found, s)

/-- `r->exclusive ? r->end_val.ival - 1 : r->end_val.ival` -/
def range_hi (end_val : Int64) (exclusive : Bool) : Option Int64 :=
  if exclusive then signed.sub end_val 1 else some end_val

/-- The first call, and the loop that it chooses. -/
def range_loops (fuel : Nat) (lo hi first_mid : Int64) : Option (Reply × Probes Int64) :=
  choose_mode class_name block (fun i => some (.int i)) first_mid
    (range_search block (judge_numeric class_name) (fun _ => .value .nil) fuel lo hi none)
    (range_search block (judge_truth class_name) (fun found => .value ((found.map .int).getD .nil)) fuel lo hi none)

/-- Range#bsearch between integers. -/
def range_bsearch (fuel : Nat) (begin_val end_val : Int64) (exclusive : Bool) : Option (Reply × Probes Int64) := do
  let lo := begin_val
  let hi ← range_hi end_val exclusive
  if hi < lo then some (.value .nil, { first := none, tested := [] })
  else do
    let first_mid ← midpoint lo hi
    range_loops class_name block fuel lo hi first_mid

end

end stoned.binary_search
