import Stoned.Program.Buffer
import Stoned.Program.Tuples

namespace stoned.arrays

open stoned.program (Buffer Choosing)

/-! The combinations, permutations and products of arrays
(eval_dispatch_collections.c). -/

section
variable {α : Type}

/-- `Value current[n]`, with nothing in it. -/
def slots (n : Nat) : Buffer α := { cells := List.replicate n none, len := 0 }

/-- The first entries of the buffer, pushed to an array one by one. -/
def row (current : Buffer α) (k : Nat) : Option (List α) := (List.range k).mapM current.read

/-- One helper for all but the permutations. At each depth its loop goes from
`start` to in front of `stop depth`, and puts an element of `elems depth` into the
buffer; the loop of the next depth starts at `restart i`. The third number is how
many depths are left. -/
def tuple_helper (elems : Nat → List α) (stop restart : Nat → Nat) (k : Nat) :
    Nat → Nat → Buffer α × List (List α) → Option (Buffer α × List (List α))
  | 0, _, (current, result) => do
    let combo ← row current k
    return (current, result ++ [combo])
  | left + 1, start, state =>
    let depth := k - (left + 1)
    (List.range' start (stop depth - start)).foldlM (fun (current, result) i => do
      let v ← (elems depth)[i]?
      let current ← current.write depth v
      tuple_helper elems stop restart k left (restart i) (current, result)) state

def combination_helper (elems : List α) (k : Nat) :=
  tuple_helper (fun _ => elems) (fun depth => elems.length - (k - depth) + 1) (fun i => i + 1) k k 0

def repeated_combination_helper (elems : List α) (k : Nat) :=
  tuple_helper (fun _ => elems) (fun _ => elems.length) (fun i => i) k k 0

def repeated_permutation_helper (elems : List α) (k : Nat) :=
  tuple_helper (fun _ => elems) (fun _ => elems.length) (fun _ => 0) k k 0

def product_helper (arrays : List (List α)) :=
  tuple_helper (fun idx => arrays.getD idx []) (fun idx => (arrays.getD idx []).length) (fun _ => 0)
    arrays.length arrays.length 0

/-- An index is marked in `used` while it is in the tuple. -/
def permutation_helper (elems : List α) (k : Nat) :
    Nat → (List Bool × Buffer α) × List (List α) → Option ((List Bool × Buffer α) × List (List α))
  | 0, ((used, current), result) => do
    let perm ← row current k
    return ((used, current), result ++ [perm])
  | left + 1, state =>
    (List.range elems.length).foldlM (fun ((used, current), result) i => do
      if ← used[i]? then return ((used, current), result)
      else
        let used := used.set i true
        let v ← elems[i]?
        let current ← current.write (k - (left + 1)) v
        let ((used, current), result) ← permutation_helper elems k left ((used, current), result)
        return ((used.set i false, current), result)) state

/-! ### The methods

What each of them collects: it goes to the block, one tuple after the other, or
into an enumerator. `arg` is the argument, if it is an Integer. -/

/-- `(size_t)args[0].ival` -/
def size_of (k : Int64) : Nat := k.toUInt64.toNat

/-- Without a count there is an error. -/
def combination (elems : List α) (arg : Option Int64) : Option (Except (String × String) (List (List α))) :=
  match arg with
  | none => some (.error ("ArgumentError", "Array#combination requires an Integer"))
  | some k =>
    let n := elems.length
    let k := size_of k
    if k = 0 then some (.ok [[]])
    else if k ≤ n then (combination_helper elems k (slots 64, [])).map fun state => .ok state.2
    else some (.ok [])

def permutation (elems : List α) (arg : Option Int64) : Option (List (List α)) :=
  let n := elems.length
  let k := (arg.map size_of).getD n
  if k = 0 then some [[]]
  else if k ≤ n then
    (permutation_helper elems k k ((List.replicate 64 false, slots 64), [])).map Prod.snd
  else some []

def repeated_combination (elems : List α) (arg : Option Int64) : Option (List (List α)) :=
  let k := (arg.map size_of).getD 0
  if k = 0 then some [[]]
  else if 0 < elems.length then (repeated_combination_helper elems k (slots 64, [])).map Prod.snd
  else some []

def repeated_permutation (elems : List α) (arg : Option Int64) : Option (List (List α)) :=
  let k := (arg.map size_of).getD elems.length
  if k = 0 then some [[]]
  else if 0 < elems.length then (repeated_permutation_helper elems k (slots 64, [])).map Prod.snd
  else some []

/-- The arrays behind the 64th argument are not taken. -/
def product (elems : List α) (args : List (List α)) : Option (List (List α)) :=
  (product_helper (elems :: args.take 64) (slots 65, [])).map Prod.snd

end

/-! ### The helpers -/

section helpers
variable {α : Type} {current : Buffer α} {front : List α} {v : α} {cap : Nat}

/-- What a helper has put into a buffer of a size. -/
structure Filled (cap : Nat) (current : Buffer α) (front : List α) : Prop where
  cap_eq : current.cap = cap
  read_eq : ∀ j < front.length, current.read j = front[j]?

theorem filled_slots : Filled cap (slots cap : Buffer α) [] where
  cap_eq := List.length_replicate
  read_eq j hj := absurd hj (Nat.not_lt_zero j)

theorem Filled.write (h : Filled cap current front) (hroom : front.length < cap) :
    ∃ current', current.write front.length v = some current' ∧ Filled cap current' (front ++ [v]) := by
  refine ⟨_, if_pos (by rw [h.cap_eq]; exact hroom), ?_, ?_⟩
  · rw [Buffer.cap, List.length_set]
    exact h.cap_eq
  · intro j hj
    rw [List.length_append, List.length_singleton] at hj
    rcases Nat.lt_succ_iff_lt_or_eq.mp hj with hlt | rfl
    · rw [Buffer.read, List.getElem?_set_ne (Nat.ne_of_gt hlt), List.getElem?_append_left hlt]
      exact h.read_eq j hlt
    · have hin : front.length < current.cells.length := by rw [← Buffer.cap, h.cap_eq]; exact hroom
      rw [Buffer.read, List.getElem?_set_self hin, List.getElem?_concat_length]
      rfl

theorem cap_write {current' : Buffer α} {i : Nat} (h : current.write i v = some current') : current'.cap = current.cap := by
  obtain ⟨-, hsome⟩ := Option.ite_none_right_eq_some.mp h
  cases hsome
  exact List.length_set

/-- There is no slot behind the last one. -/
theorem write_outside (hcap : current.cap = cap) : current.write cap v = none :=
  if_neg (by rw [hcap]; exact Nat.lt_irrefl cap)

theorem Filled.shorten {rest : List α} (h : Filled cap current (front ++ rest)) : Filled cap current front where
  cap_eq := h.cap_eq
  read_eq j hj := by
    rw [h.read_eq j (by rw [List.length_append]; omega), List.getElem?_append_left hj]

theorem Filled.row_take (h : Filled cap current front) {k : Nat} (hk : k ≤ front.length) :
    row current k = some (front.take k) := by
  induction k with
  | zero => rfl
  | succ k ih =>
    have hread : current.read k = some front[k] := by rw [h.read_eq k hk, List.getElem?_eq_getElem hk]
    have hrow := ih (Nat.le_of_succ_le hk)
    rw [row] at hrow ⊢
    rw [List.range_succ, List.mapM_append, hrow, List.mapM_cons, List.mapM_nil, hread, List.take_add_one,
      List.getElem?_eq_getElem hk]
    rfl

theorem Filled.row (h : Filled cap current front) : row current front.length = some front := by
  rw [h.row_take le_rfl, List.take_length]

end helpers

/-! ### The loops over a buffer -/

section loops
variable {α : Type} {elems : Nat → List α} {stop restart : Nat → Nat} {k cap : Nat} {current : Buffer α}
  {front : List α} {result : List (List α)}

/-- Which indices the loops take. -/
def indices (stop restart : Nat → Nat) : Choosing (Nat × Nat) where
  next s := List.range' s.2 (stop s.1 - s.2)
  after s i := (s.1 + 1, restart i)
  ascending _ := List.pairwise_lt_range'

/-- The elements at some indices, from a depth on. -/
def entries (elems : Nat → List α) : Nat → List Nat → List α
  | _, [] => []
  | depth, i :: t => ((elems depth)[i]?).toList ++ entries elems (depth + 1) t

theorem tuple_helper_succ {left start : Nat} {state : Buffer α × List (List α)} :
    tuple_helper elems stop restart k (left + 1) start state =
      (List.range' start (stop (k - (left + 1)) - start)).foldlM (fun state i =>
        (elems (k - (left + 1)))[i]?.bind fun v => (state.1.write (k - (left + 1)) v).bind fun current =>
          tuple_helper elems stop restart k left (restart i) (current, state.2)) state := rfl

/-- Nothing is written outside the buffer when the tuples fit. -/
theorem tuple_helper_collects (hstop : ∀ depth < k, stop depth ≤ (elems depth).length) (hk : k ≤ cap) {left : Nat}
    (start : Nat) (result : List (List α)) (hleft : front.length + left = k) (hfront : Filled cap current front) :
    ∃ current', tuple_helper elems stop restart k left start (current, result) =
        some (current', result ++ ((indices stop restart).tuples left (front.length, start)).map fun t =>
          front ++ entries elems front.length t) ∧ Filled cap current' front := by
  induction left generalizing start current front result with
  | zero =>
    obtain rfl : front.length = k := hleft
    refine ⟨current, ?_, hfront⟩
    rw [tuple_helper, hfront.row]
    simp [Choosing.tuples, entries]
  | succ left ih =>
    have hdepth : k - (left + 1) = front.length := by omega
    rw [tuple_helper_succ, hdepth, Choosing.tuples, List.map_flatMap]
    refine program.foldlM_collects (P := fun current => Filled cap current front) result ?_ hfront
    intro current result i hi hfront
    have hin : i < (elems front.length).length := by
      have := List.mem_range'_1.mp hi
      have := hstop front.length (by omega)
      omega
    obtain ⟨written, hwrite, hwritten⟩ := hfront.write (v := (elems front.length)[i]) (show front.length < cap by omega)
    have hlength : (front ++ [(elems front.length)[i]]).length = front.length + 1 := by
      rw [List.length_append, List.length_singleton]
    obtain ⟨current', hrest, hend⟩ := ih (restart i) result (by rw [hlength]; omega) hwritten
    refine ⟨current', ?_, hend.shorten⟩
    rw [List.getElem?_eq_getElem hin, Option.bind_some, hwrite, Option.bind_some, hrest, hlength, List.map_map]
    simp [entries, List.getElem?_eq_getElem hin, Function.comp_def, indices]

/-- A tuple that does not fit is written outside the buffer, if the loops get to it. -/
theorem tuple_helper_outside {starts : Nat → Nat} (hk : cap < k)
    (hstarts : ∀ depth < k, starts depth < stop depth ∧ restart (starts depth) = starts (depth + 1)) (hcap : current.cap = cap) {left depth : Nat} (hdepth : depth ≤ cap) (hleft : depth + left = k) :
    tuple_helper elems stop restart k left (starts depth) (current, result) = none := by
  induction left generalizing depth current result with
  | zero => omega
  | succ left ih =>
    obtain ⟨hlt, hnext⟩ := hstarts depth (by omega)
    obtain ⟨more, hmore⟩ : ∃ more, stop depth - starts depth = more + 1 := ⟨stop depth - starts depth - 1, by omega⟩
    rw [tuple_helper_succ, show k - (left + 1) = depth by omega, hmore, List.range'_succ, List.foldlM_cons]
    refine Option.bind_eq_none_iff.mpr fun state hround => ?_
    obtain ⟨v, -, hround⟩ := Option.bind_eq_some_iff.mp hround
    obtain ⟨written, hwrite, hround⟩ := Option.bind_eq_some_iff.mp hround
    have hlt : depth < cap := by
      refine Nat.lt_of_le_of_ne hdepth fun heq => ?_
      rw [heq, write_outside hcap] at hwrite
      cases hwrite
    rw [hnext, ih ((cap_write hwrite).trans hcap) hlt (by omega)] at hround
    cases hround

theorem entries_same {elems : List α} {depth : Nat} {t : List Nat} :
    entries (fun _ => elems) depth t = t.filterMap (elems[·]?) := by
  induction t generalizing depth with
  | nil => rfl
  | cons i t ih =>
    rw [entries, ih, List.filterMap_cons]
    cases elems[i]? <;> rfl

end loops

/-! ### The loops over the marks -/

section marks
variable {α : Type} {elems : List α} {k cap : Nat} {used : List Bool} {current : Buffer α} {front : List α}
  {result : List (List α)}

/-- Which indices are free. -/
def free (n : Nat) : Choosing (List Bool) where
  next used := (List.range n).filter fun i => used[i]? = some false
  after used i := used.set i true
  ascending _ := List.pairwise_lt_range.filter _

/-- One round of the loop. -/
def permutation_round (elems : List α) (k left : Nat) (state : (List Bool × Buffer α) × List (List α)) (i : Nat) :
    Option ((List Bool × Buffer α) × List (List α)) :=
  state.1.1[i]?.bind fun taken =>
    if taken then some state
    else
      elems[i]?.bind fun v => (state.1.2.write (k - (left + 1)) v).bind fun current =>
        (permutation_helper elems k left ((state.1.1.set i true, current), state.2)).bind fun state =>
          some ((state.1.1.set i false, state.1.2), state.2)

theorem permutation_helper_succ {left : Nat} {state : (List Bool × Buffer α) × List (List α)} :
    permutation_helper elems k (left + 1) state =
      (List.range elems.length).foldlM (permutation_round elems k left) state := rfl

theorem flatMap_filter {β γ : Type} {p : β → Bool} {g : β → List γ} {l : List β} :
    (l.filter p).flatMap g = l.flatMap fun b => if p b then g b else [] := by
  induction l with
  | nil => rfl
  | cons b l ih =>
    rw [List.filter_cons, List.flatMap_cons, ← ih]
    cases p b <;> simp

/-- The marks are taken back, and nothing is written outside the buffers. -/
theorem permutation_helper_collects (hn : elems.length ≤ used.length) (hk : k ≤ cap) {left : Nat}
    (result : List (List α)) (hleft : front.length + left = k) (hfront : Filled cap current front) :
    ∃ current', permutation_helper elems k left ((used, current), result) =
        some ((used, current'), result ++ ((free elems.length).tuples left used).map fun t =>
          front ++ t.filterMap (elems[·]?)) ∧ Filled cap current' front := by
  induction left generalizing used current front result with
  | zero =>
    obtain rfl : front.length = k := hleft
    refine ⟨current, ?_, hfront⟩
    rw [permutation_helper, hfront.row]
    simp [Choosing.tuples]
  | succ left ih =>
    have hdepth : k - (left + 1) = front.length := by omega
    have hloop := program.foldlM_collects (f := permutation_round elems k left) (l := List.range elems.length)
      (g := fun i => if decide (used[i]? = some false) then
        (((free elems.length).tuples left (used.set i true)).map (i :: ·)).map fun t => front ++ t.filterMap (elems[·]?) else [])
      (P := fun state => state.1 = used ∧ Filled cap state.2 front) (b := (used, current)) result ?_ ⟨rfl, hfront⟩
    · obtain ⟨⟨used', current'⟩, hloop, rfl, hend⟩ := hloop
      refine ⟨current', ?_, hend⟩
      rw [permutation_helper_succ, hloop, Choosing.tuples, List.map_flatMap]
      simp only [free, flatMap_filter]
    · rintro ⟨used', current⟩ result i hi ⟨rfl, hfront⟩
      have hin : i < elems.length := List.mem_range.mp hi
      have hin' : i < used'.length := hin.trans_le hn
      have hmark : used'[i]? = some used'[i] := List.getElem?_eq_getElem hin'
      rw [permutation_round, hmark, Option.bind_some]
      cases hused : used'[i] with
      | true =>
        refine ⟨(used', current), ?_, rfl, hfront⟩
        simp
      | false =>
        obtain ⟨written, hwrite, hwritten⟩ := hfront.write (v := elems[i]) (show front.length < cap by omega)
        have hlength : (front ++ [elems[i]]).length = front.length + 1 := by
          rw [List.length_append, List.length_singleton]
        have hn' : elems.length ≤ (used'.set i true).length := by rw [List.length_set]; exact hn
        obtain ⟨current', hrest, hend⟩ := ih hn' result (by rw [hlength]; omega) hwritten
        have hback : (used'.set i true).set i false = used' := by
          rw [List.set_set, ← hused, List.set_getElem_self]
        refine ⟨(used', current'), ?_, rfl, hend.shorten⟩
        rw [List.getElem?_eq_getElem hin, Option.bind_some, hdepth, hwrite, Option.bind_some, hrest, Option.bind_some, hback]
        simp [List.getElem?_eq_getElem hin, Function.comp_def]

theorem length_permutation_round {left : Nat} {state after : (List Bool × Buffer α) × List (List α)} {i : Nat}
    (hhelper : ∀ {state after}, permutation_helper elems k left state = some after → after.1.1.length = state.1.1.length)
    (h : permutation_round elems k left state i = some after) : after.1.1.length = state.1.1.length := by
  obtain ⟨taken, -, h⟩ := Option.bind_eq_some_iff.mp h
  split at h
  · cases h
    rfl
  · obtain ⟨v, -, h⟩ := Option.bind_eq_some_iff.mp h
    obtain ⟨written, -, h⟩ := Option.bind_eq_some_iff.mp h
    obtain ⟨below, hbelow, h⟩ := Option.bind_eq_some_iff.mp h
    cases h
    rw [List.length_set, hhelper hbelow, List.length_set]

theorem length_permutation_helper {left : Nat} {state after : (List Bool × Buffer α) × List (List α)}
    (h : permutation_helper elems k left state = some after) : after.1.1.length = state.1.1.length := by
  induction left generalizing state after with
  | zero =>
    obtain ⟨perm, -, h⟩ := Option.bind_eq_some_iff.mp h
    cases h
    rfl
  | succ left ih =>
    rw [permutation_helper_succ] at h
    exact program.foldlM_keeps (P := fun s => s.1.1.length = state.1.1.length)
      (fun s i _ s' hs hround => (length_permutation_round ih hround).trans hs) rfl h

/-- An array with more elements than there are marks has one read that is not there. -/
theorem permutation_helper_outside (hn : used.length < elems.length) (left : Nat) :
    permutation_helper elems k (left + 1) ((used, current), result) = none := by
  rw [permutation_helper_succ]
  refine program.foldlM_fails (P := fun s => s.1.1.length = used.length)
    (fun s i _ s' hs hround => (length_permutation_round length_permutation_helper hround).trans hs) rfl
    (List.mem_range.mpr hn) ?_
  intro state hlength
  rw [permutation_round, List.getElem?_eq_none (le_of_eq hlength)]
  rfl

end marks

end stoned.arrays
