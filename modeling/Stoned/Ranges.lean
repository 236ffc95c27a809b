import Stoned.Iterators
import Stoned.Program.Counting

namespace stoned.ranges

open arrays (Answer Reply)
open program (Counter)
open program.signed (add sub mul div)

/-! Methods that count with a machine integer: Integer#times, upto and downto
(eval_dispatch_primitives.c), and what ranges of integers are asked
(eval_dispatch_collections.c). -/

/-- Whether a number is not behind the end of a range. -/
def before_end (hi : Int64) (exclusive : Bool) (i : Int64) : Bool := if exclusive then i < hi else i ≤ hi

section
variable (block : Nat → Value → Answer)

/-- One run of the block, which may leave the loop. The numbers it has been run for
are kept. -/
def call_block (i : Int64) (seen : List Int64) : Except (Value × List Int64) (List Int64) :=
  match (block seen.length (.int i)).leaves with
  | some out => .error (out, seen ++ [i])
  | none => .ok (seen ++ [i])

/-- The loop of the methods with a block, and the numbers the block was run for. -/
def count_each (c : Counter) (recv : Value) (fuel : Nat) (first : Int64) : Option (Reply × List Int64) :=
  (c.loop (call_block block) fuel first []).map fun
    | .error (out, seen) => (.value out, seen)
    | .ok seen => (.value recv, seen)

def times (fuel : Nat) (n : Int64) : Option (Reply × List Int64) :=
  count_each block { goes := fun i => i < n, step := 1 } (.int n) fuel 0

def upto (fuel : Nat) (n limit : Int64) : Option (Reply × List Int64) :=
  count_each block { goes := fun i => i ≤ limit, step := 1 } (.int n) fuel n

def downto (fuel : Nat) (n limit : Int64) : Option (Reply × List Int64) :=
  count_each block { goes := fun i => limit ≤ i, step := -1 } (.int n) fuel n

/-- Range#each -/
def each (fuel : Nat) (lo hi : Int64) (exclusive : Bool) : Option (Reply × List Int64) :=
  count_each block { goes := before_end hi exclusive, step := 1 } (.range (.int lo) (.int hi) exclusive) fuel lo

/-- Range#step -/
def step (fuel : Nat) (lo hi : Int64) (exclusive : Bool) (step : Int64) : Option (Reply × List Int64) :=
  if step ≤ 0 then some (.raised "ArgumentError" "step must be positive", [])
  else count_each block { goes := before_end hi exclusive, step } (.range (.int lo) (.int hi) exclusive) fuel lo

end

/-! ### Questions about a range -/

/-- What a range of integers may be asked, by its methods without a block. -/
inductive Query where
  | to_a
  | size
  | first (n : Int64)
  | last (n : Int64)
  | min
  | max
  | min_of (n : Int64)
  | max_of (n : Int64)
  | sum (init : Int64)
  | includes (x : Int64)
  | count (x : Int64)

inductive Told where
  | array (elems : List Int64)
  | value (v : Value)
  | raised (klass message : String)

/-- Adds a number to an array, or breaks off. -/
def push_one (stop : Int64 → List Int64 → Bool) (i : Int64) (arr : List Int64) : Except (List Int64) (List Int64) :=
  if stop i arr then .error arr else .ok (arr ++ [i])

/-- Adds numbers to a new array, until one is not wanted. -/
def push_until (stop : Int64 → List Int64 → Bool) (c : Counter) (fuel : Nat) (first : Int64) : Option (List Int64) :=
  (c.loop (push_one stop) fuel first []).map fun
    | .error arr => arr
    | .ok arr => arr

section
variable (fuel : Nat) (lo hi : Int64) (exclusive : Bool)

/-- `r->exclusive ? r->end_val.ival - 1 : r->end_val.ival` -/
def actual_hi : Option Int64 := if exclusive then sub hi 1 else some hi

def to_a : Option (List Int64) := push_until (fun _ _ => false) { goes := before_end hi exclusive, step := 1 } fuel lo

def size : Option Int64 :=
  if exclusive then if hi > lo then sub hi lo else some 0
  else if hi ≥ lo then (sub hi lo).bind (add · 1) else some 0

def first (n : Int64) : Option Told :=
  if n < 0 then some (.raised "ArgumentError" "negative array size")
  else
    (add lo n).bind fun limit =>
      (push_until (fun i _ => !before_end hi exclusive i) { goes := fun i => i < limit, step := 1 } fuel lo).map .array

def last (n : Int64) : Option Told :=
  if n < 0 then some (.raised "ArgumentError" "negative array size")
  else if n = 0 then some (.array [])
  else
    (actual_hi hi exclusive).bind fun hi =>
      if hi < lo then some (.array [])
      else
        ((sub hi n).bind (add · 1)).bind fun from_hi =>
          (push_until (fun _ _ => false) { goes := fun i => i ≤ hi, step := 1 } fuel
            (if from_hi < lo then lo else from_hi)).map .array

def min_of (n_take : Int64) : Option Told :=
  if n_take < 0 then some (.raised "ArgumentError" "negative size")
  else
    (push_until (fun _ arr => n_take.toInt ≤ arr.length) { goes := before_end hi exclusive, step := 1 } fuel lo).map .array

def max_of (n_take : Int64) : Option Told :=
  if n_take < 0 then some (.raised "ArgumentError" "negative size")
  else
    (actual_hi hi exclusive).bind fun actual =>
      (push_until (fun _ arr => n_take.toInt ≤ arr.length) { goes := fun i => lo ≤ i, step := -1 } fuel actual).map .array

def range_max : Option Int64 := if exclusive then sub hi 1 else some hi

/-- `init + (hi - lo + 1) * (lo + hi) / 2` -/
def gauss (init lo hi : Int64) : Option Int64 := do
  let width ← sub hi lo
  let count ← add width 1
  let ends ← add lo hi
  let twice ← mul count ends
  let total ← div twice 2
  add init total

def sum (init : Int64) : Option Int64 :=
  (actual_hi hi exclusive).bind fun hi => if hi < lo then some init else gauss init lo hi

def includes (x : Int64) : Bool := lo ≤ x ∧ before_end hi exclusive x

/-- How often a number occurs: the range is gone through. -/
def count (x : Int64) : Option Nat :=
  (({ goes := before_end hi exclusive, step := 1 } : Counter).loop
    (fun i cnt => (.ok (if i = x then cnt + 1 else cnt) : Except Nat Nat)) fuel lo 0).map fun
      | .error cnt => cnt
      | .ok cnt => cnt

def Query.run : Query → Option Told
  | .to_a => (ranges.to_a fuel lo hi exclusive).map .array
  | .size => (ranges.size lo hi exclusive).map fun n => .value (.int n)
  | .first n => ranges.first fuel lo hi exclusive n
  | .last n => ranges.last fuel lo hi exclusive n
  | .min => some (.value (.int lo))
  | .max => (range_max hi exclusive).map fun n => .value (.int n)
  | .min_of n => ranges.min_of fuel lo hi exclusive n
  | .max_of n => ranges.max_of fuel lo hi exclusive n
  | .sum init => (ranges.sum lo hi exclusive init).map fun n => .value (.int n)
  | .includes x => some (.value (.bool (ranges.includes lo hi exclusive x)))
  | .count x => (ranges.count fuel lo hi exclusive x).map fun n => .value (.int (.ofNat n))

end

open program program.signed

/-! What counts, and what answers for a range, agrees with the list of its numbers
where nothing overflows. -/

/-- With enough turns of its loops a method comes to a result. -/
def Comes {α : Type} (run : Nat → Option α) (result : α) : Prop := ∃ enough, ∀ fuel, enough ≤ fuel → run fuel = some result

theorem Comes.unique {α : Type} {run : Nat → Option α} {a b : α} (ha : Comes run a) (hb : Comes run b) : a = b := by
  obtain ⟨enough, hrun⟩ := ha
  obtain ⟨enough', hrun'⟩ := hb
  exact Option.some.inj ((hrun _ (Nat.le_max_left ..)).symm.trans (hrun' _ (Nat.le_max_right enough enough')))

/-- A method comes to a result under a condition, and to nothing at all elsewhere. -/
def ComesWhen {α : Type} (P : Prop) (run : Nat → Option α) (result : α) : Prop :=
  (P → Comes run result) ∧ (¬ P → ∀ fuel, run fuel = none)

section
variable {α β : Type} {P Q : Prop} {run : Nat → Option α} {result : α}

theorem Comes.map (f : α → β) (h : Comes run result) : Comes (fun fuel => (run fuel).map f) (f result) := by
  obtain ⟨enough, hrun⟩ := h
  exact ⟨enough, fun fuel hfuel => by simp only [hrun fuel hfuel, Option.map_some]⟩

theorem ComesWhen.map (f : α → β) (h : ComesWhen P run result) : ComesWhen P (fun fuel => (run fuel).map f) (f result) :=
  ⟨fun hP => (h.1 hP).map f, fun hP fuel => congrArg (Option.map f) (h.2 hP fuel)⟩

theorem ComesWhen.congr (h : ComesWhen P run result) (hiff : P ↔ Q) : ComesWhen Q run result :=
  ⟨fun hQ => h.1 (hiff.mpr hQ), fun hQ => h.2 fun hP => hQ (hiff.mp hP)⟩

theorem ComesWhen.always (h : Comes run result) (hP : P) : ComesWhen P run result := ⟨fun _ => h, fun hnot => absurd hP hnot⟩

theorem ComesWhen.never (h : ∀ fuel, run fuel = none) (hP : ¬ P) : ComesWhen P run result := ⟨fun hyes => absurd hyes hP, fun _ => h⟩

theorem ComesWhen.comes_iff (h : ComesWhen P run result) {other : α} : Comes run other ↔ P ∧ other = result := by
  constructor
  · intro hcomes
    by_cases hP : P
    · exact ⟨hP, hcomes.unique (h.1 hP)⟩
    · obtain ⟨enough, hrun⟩ := hcomes
      exact absurd ((hrun enough le_rfl).symm.trans (h.2 hP enough)) (Option.some_ne_none _)
  · rintro ⟨hP, rfl⟩
    exact h.1 hP

end

/-! ### Loops with a block -/

section
variable {block : Nat → Value → Answer} {c : Counter} {is seen : List Int64} {first : Int64} {recv out : Value}

/-- The block does not leave the loop, behind some numbers that it has been run for. -/
def Stays (block : Nat → Value → Answer) (n : Nat) : List Int64 → Prop
  | [] => True
  | i :: is => (block n (.int i)).leaves = none ∧ Stays block (n + 1) is

theorem through_stays (h : Stays block seen.length is) : Counter.through (call_block block) is seen = .ok (seen ++ is) := by
  induction is generalizing seen with
  | nil => rw [Counter.through, List.append_nil]
  | cons i is ih =>
    rw [Counter.through, call_block, h.1]
    simp only [Except.bind]
    rw [ih (by simpa using h.2), List.append_assoc]
    rfl

theorem through_leaves (seen : List Int64) {i : Int64} (rest : List Int64) (h : Stays block seen.length is)
    (hout : (block (seen.length + is.length) (.int i)).leaves = some out) :
    Counter.through (call_block block) (is ++ i :: rest) seen = .error (out, seen ++ is ++ [i]) := by
  induction is generalizing seen with
  | nil =>
    rw [List.length_nil, Nat.add_zero] at hout
    rw [List.nil_append, Counter.through, call_block, hout, List.append_nil]
    rfl
  | cons j is ih =>
    rw [List.cons_append, Counter.through, call_block, h.1]
    simp only [Except.bind]
    have hcount : (seen ++ [j]).length + is.length = seen.length + (j :: is).length := by
      simp only [List.length_append, List.length_cons, List.length_nil]
      omega
    rw [ih (seen ++ [j]) (by simpa using h.2) (by rw [hcount]; exact hout)]
    simp

/-- The block is run for the numbers in their order, up to where it leaves. -/
theorem count_each_leaves {i : Int64} {rest : List Int64} (h : c.Takes first (is ++ i :: rest)) (hstays : Stays block 0 is)
    (hout : (block is.length (.int i)).leaves = some out) :
    Comes (fun fuel => count_each block c recv fuel first) (.value out, is ++ [i]) := by
  refine ⟨(is ++ i :: rest).length + 1, fun fuel hfuel => ?_⟩
  have hthrough := through_leaves [] rest hstays (by simpa using hout)
  simp only [count_each, Counter.loop_eq h hfuel, hthrough]
  rfl

theorem count_each_stays (recv : Value) (h : c.Takes first is) (hstays : Stays block 0 is) :
    ComesWhen (Fits (c.beyond first is)) (fun fuel => count_each block c recv fuel first) (.value recv, is) := by
  have hthrough : Counter.through (call_block block) is [] = .ok is := through_stays hstays
  constructor
  · intro hfits
    refine ⟨is.length + 1, fun fuel hfuel => ?_⟩
    simp only [count_each, Counter.loop_eq h hfuel, hthrough, if_pos hfits]
    rfl
  · intro hfits fuel
    simp only [count_each, Counter.loop_overflows h hthrough hfits]
    rfl

end

/-! ### The numbers of a range -/

section
variable (lo hi : Int64) (exclusive : Bool)

/-- The last number that a range may have. -/
def last_of : Int := if exclusive then hi.toInt - 1 else hi.toInt

/-- The numbers of a range. -/
def members : List Int64 := progression lo.toInt 1 (Counter.ascending lo.toInt (last_of hi exclusive) 1)

variable {lo hi exclusive}

theorem before_end_iff (i : Int64) : before_end hi exclusive i = true ↔ i.toInt ≤ last_of hi exclusive := by
  cases exclusive with
  | false => exact decide_eq_true_iff.trans Int64.le_iff_toInt_le
  | true =>
    refine decide_eq_true_iff.trans (Int64.lt_iff_toInt_lt.trans ?_)
    simp only [last_of, if_true]
    omega

theorem last_of_lt : last_of hi exclusive < 2 ^ 63 := by
  have := toInt_bounds hi
  unfold last_of
  split <;> omega

theorem length_members : ((members lo hi exclusive).length : Int) = Max.max 0 (last_of hi exclusive - lo.toInt + 1) := by
  rw [members, length_progression, Counter.ascending, Int.ediv_one]
  omega

theorem members_take : Counter.Takes { goes := before_end hi exclusive, step := 1 } lo (members lo hi exclusive) :=
  Counter.takes_up (show 0 < (1 : Int64).toInt by decide) last_of_lt before_end_iff

/-- Counting past the end overflows where the last of all integers is in the range. -/
theorem fits_beyond_iff : Fits (Counter.beyond { goes := before_end hi exclusive, step := 1 } lo (members lo hi exclusive)) ↔
    exclusive = true ∨ hi ≠ Int64.maxValue := by
  have hlo := toInt_bounds lo
  have hhi := toInt_bounds hi
  have hlength := @length_members lo hi exclusive
  have hmax : hi = Int64.maxValue ↔ hi.toInt = 2 ^ 63 - 1 := by
    rw [← Int64.toInt_inj]
    exact Iff.rfl
  have hone : (1 : Int64).toInt = 1 := by decide
  rw [Counter.beyond, hone, Int.mul_one, Ne, hmax]
  unfold Fits
  unfold last_of at hlength
  cases exclusive
  · simp only [Bool.false_eq_true, if_false, false_or] at hlength ⊢
    omega
  · simp only [if_true, true_or, iff_true] at hlength ⊢
    omega

/-- Counting down from the last number there may be. -/
theorem reverse_members : (members lo hi exclusive).reverse =
    progression (last_of hi exclusive) (-1) (Counter.ascending lo.toInt (last_of hi exclusive) 1) := by
  refine List.ext_getElem (by simp [members]) fun k hk hk' => ?_
  rw [length_progression] at hk'
  rw [List.getElem_reverse, getElem_progression]
  simp only [members, getElem_progression, length_progression]
  congr 1
  rw [Counter.ascending, Int.ediv_one] at hk' ⊢
  omega

theorem members_down : Counter.Takes { goes := fun i => lo ≤ i, step := -1 } hi (members lo hi false).reverse := by
  have hdown := @Counter.takes_down { goes := fun i => lo ≤ i, step := -1 } hi lo.toInt (show (-1 : Int64).toInt < 0 by decide)
    (toInt_bounds lo).1 fun i => decide_eq_true_iff.trans Int64.le_iff_toInt_le
  rw [reverse_members]
  exact hdown

theorem fits_below_iff : Fits (Counter.beyond { goes := fun i => lo ≤ i, step := -1 } hi (members lo hi false).reverse) ↔
    lo ≠ Int64.minValue := by
  have hlo := toInt_bounds lo
  have hhi := toInt_bounds hi
  have hlength := @length_members lo hi false
  have hmin : lo = Int64.minValue ↔ lo.toInt = -2 ^ 63 := by
    rw [← Int64.toInt_inj]
    exact Iff.rfl
  have hone : (-1 : Int64).toInt = -1 := by decide
  rw [Counter.beyond, hone, List.length_reverse, Ne, hmin]
  unfold Fits
  simp only [last_of, Bool.false_eq_true, if_false] at hlength
  omega

end

/-! ### The methods with a block -/

inductive Counting where
  | times
  | upto (limit : Int64)
  | downto (limit : Int64)
  | each (hi : Int64) (exclusive : Bool)
  | step (hi : Int64) (exclusive : Bool) (step : Int64)

namespace Counting

def run (block : Nat → Value → Answer) (fuel : Nat) (n : Int64) : Counting → Option (Reply × List Int64)
  | .times => ranges.times block fuel n
  | .upto limit => ranges.upto block fuel n limit
  | .downto limit => ranges.downto block fuel n limit
  | .each hi exclusive => ranges.each block fuel n hi exclusive
  | .step hi exclusive stride => ranges.step block fuel n hi exclusive stride

def recv (n : Int64) : Counting → Value
  | .each hi exclusive | .step hi exclusive _ => .range (.int n) (.int hi) exclusive
  | _ => .int n

/-- The numbers from the first to the last one, a step apart. -/
def numbers (n : Int64) : Counting → List Int64
  | .times => members 0 n true
  | .upto limit => members n limit false
  | .downto limit => (members limit n false).reverse
  | .each hi exclusive => members n hi exclusive
  | .step hi exclusive stride =>
    progression n.toInt stride.toInt (Counter.ascending n.toInt (last_of hi exclusive) stride.toInt)

/-- A step of nothing or backwards is refused. -/
def Valid : Counting → Prop
  | .step _ _ stride => 0 < stride
  | _ => True

/-- The number behind the last one is none of 64 bits. -/
def Overflows (n : Int64) : Counting → Prop
  | .times => False
  | .upto limit => limit = Int64.maxValue
  | .downto limit => limit = Int64.minValue
  | .each hi exclusive => exclusive = false ∧ hi = Int64.maxValue
  | .step hi exclusive stride =>
    2 ^ 63 ≤ n.toInt + Counter.ascending n.toInt (last_of hi exclusive) stride.toInt * stride.toInt

end Counting

section
variable {block : Nat → Value → Answer} (n : Int64) {counting : Counting}

/-- The loop of each method. -/
def Counting.counter : Counting → Counter
  | .times => { goes := before_end n true, step := 1 }
  | .upto limit => { goes := before_end limit false, step := 1 }
  | .downto limit => { goes := fun i => limit ≤ i, step := -1 }
  | .each hi exclusive => { goes := before_end hi exclusive, step := 1 }
  | .step hi exclusive stride => { goes := before_end hi exclusive, step := stride }

def Counting.first : Counting → Int64
  | .times => 0
  | _ => n

theorem Counting.run_eq (hvalid : counting.Valid) (fuel : Nat) :
    counting.run block fuel n = count_each block (counting.counter n) (counting.recv n) fuel (counting.first n) := by
  cases counting with
  | step hi exclusive stride => exact if_neg (Int64.not_le.mpr hvalid)
  | _ => rfl

theorem Counting.takes (hvalid : counting.Valid) :
    Counter.Takes (counting.counter n) (counting.first n) (counting.numbers n) := by
  cases counting with
  | times | upto | each => exact members_take
  | downto limit => exact members_down
  | step hi exclusive stride =>
    have hstride : 0 < stride.toInt := by simpa using Int64.lt_iff_toInt_lt.mp hvalid
    exact @Counter.takes_up { goes := before_end hi exclusive, step := stride } n _ hstride last_of_lt before_end_iff

theorem Counting.fits_iff (hvalid : counting.Valid) :
    Fits (Counter.beyond (counting.counter n) (counting.first n) (counting.numbers n)) ↔ ¬ counting.Overflows n := by
  cases counting with
  | times => exact iff_of_true (fits_beyond_iff.mpr (.inl rfl)) (show ¬ False from not_false)
  | upto limit =>
    refine (@fits_beyond_iff n limit false).trans ?_
    simp only [Bool.false_eq_true, false_or]
    exact Iff.rfl
  | downto limit => exact fits_below_iff
  | each hi exclusive =>
    refine fits_beyond_iff.trans ?_
    cases exclusive <;> simp [Counting.Overflows]
  | step hi exclusive stride =>
    have hstride : 0 < stride.toInt := by simpa using Int64.lt_iff_toInt_lt.mp hvalid
    have hn := toInt_bounds n
    have hpos : 0 ≤ (Counter.ascending n.toInt (last_of hi exclusive) stride.toInt : Int) * stride.toInt := by positivity
    simp only [Counter.beyond, Counting.numbers, Counting.first, Counting.counter, Counting.Overflows, length_progression, Fits]
    omega

/-- A block is run for the numbers in their order: up to the one for which it leaves, or
for all of them. Then the method ends unless it is to count past the last, or the first,
of all integers. -/
theorem counting_law (hvalid : counting.Valid) :
    (∀ front i rest out, counting.numbers n = front ++ i :: rest → Stays block 0 front →
      (block front.length (.int i)).leaves = some out →
      Comes (fun fuel => counting.run block fuel n) (.value out, front ++ [i])) ∧
    (Stays block 0 (counting.numbers n) →
      ComesWhen (¬ counting.Overflows n) (fun fuel => counting.run block fuel n)
        (.value (counting.recv n), counting.numbers n)) := by
  have htakes := counting.takes n hvalid
  simp only [Counting.run_eq n hvalid]
  constructor
  · intro front i rest out hnumbers hstays hout
    exact count_each_leaves (hnumbers ▸ htakes) hstays hout
  · intro hstays
    exact (count_each_stays (counting.recv n) htakes hstays).congr (Counting.fits_iff n hvalid)

theorem stays_of_ordinary (h : ∀ n v, (block n v).leaves = none) (n : Nat) (is : List Int64) : Stays block n is := by
  induction is generalizing n with
  | nil => trivial
  | cons i is ih => exact ⟨h n (.int i), ih (n + 1)⟩

def answers_nil : Nat → Value → Answer := fun _ _ => { value := .nil, errored := false }

/-- Every fourth number is come to; of the numbers up to the last one there is the last is
not come past. -/
theorem counting_law_of_steps :
    Comes (fun fuel => (Counting.step 10 true 4).run answers_nil fuel 1) (.value (.range (.int 1) (.int 10) true), [1, 5, 9]) ∧
    ∀ fuel, (Counting.upto Int64.maxValue).run answers_nil fuel 9223372036854775806 = none := by
  have hstays : ∀ is, Stays answers_nil 0 is := stays_of_ordinary (fun _ _ => rfl) 0
  have hstep : (Counting.step 10 true 4).Valid := show (0 : Int64) < 4 by decide
  constructor
  · exact ((counting_law 1 hstep).2 (hstays _)).1 (show ¬ (2 : Int) ^ 63 ≤ _ by decide)
  · exact ((counting_law 9223372036854775806 (show (Counting.upto Int64.maxValue).Valid from trivial)).2 (hstays _)).2
      (not_not_intro rfl)

end

end stoned.ranges
