import Mathlib.Data.List.Rotate
import Stoned.FilterLaw

namespace stoned.arrays

/-! What the loops of the iterators do to the arrays. -/

variable {lists : List Held} {r q : Ref} {h d : Held} {m m' : Memory} {block : Callee} {keeps : Bool} {i n : Nat}
  {xs ys zs : List Value}

/-! ### A new array -/

/-- What the block makes of the elements. -/
def mapped (block : Callee) (xs : List Value) : List Value := xs.mapIdx fun i v => (block i [v]).value

@[simp] theorem length_mapped : (mapped block xs).length = xs.length := List.length_mapIdx

theorem mapped_get (hi : i < (mapped block xs).length) (hi' : i < xs.length) :
    (mapped block xs)[i] = (block i [xs[i]]).value := List.getElem_mapIdx

theorem map_each_ok (fuel i : Nat) (hne : r ≠ q) (hm : Holds m lists) (hr : lists[r]? = some h)
    (hq : lists[q]? = some d) (hgoes : ∀ i, (hi : i < h.elems.length) → (block i [h.elems[i]]).leaves = none)
    (hfuel : h.elems.length - i < fuel) :
    ∃ m', map_each block r q fuel i m = .ok (none, m') ∧
      Holds m' (changed lists q (d.elems ++ (mapped block h.elems).drop i)) := by
  induction fuel generalizing m lists d i with
  | zero => omega
  | succ fuel ih =>
    rw [map_each, bind_ok (len_ok hm hr)]
    split
    · rename_i hi
      have hi' : i < (mapped block h.elems).length := by simpa using hi
      obtain ⟨m₁, hpush, hm₁⟩ := push_ok (v := (block i [h.elems[i]]).value) hm hq
      obtain ⟨m₂, hrest, hm₂⟩ := ih (i + 1) hm₁ (by rwa [changed_get_ne hne]) (changed_get hq) (by omega)
      rw [bind_ok (read_ok hm hr hi)]
      simp only [hgoes i hi]
      rw [bind_ok hpush]
      refine ⟨m₂, hrest, ?_⟩
      rw [changed_changed] at hm₂
      rw [List.drop_eq_getElem_cons hi', mapped_get _ hi]
      simpa using hm₂
    · rename_i hi
      have hnone : (mapped block h.elems).drop i = [] := List.drop_eq_nil_of_le (by simpa using hi)
      refine ⟨m, rfl, ?_⟩
      rwa [hnone, List.append_nil, changed_same hq]

theorem filter_each_ok (fuel i : Nat) (hne : r ≠ q) (hm : Holds m lists) (hr : lists[r]? = some h)
    (hq : lists[q]? = some d) (hd : d.elems = kept block keeps h.elems i) (hi : i ≤ h.elems.length)
    (hgoes : ∀ i, (hi : i < h.elems.length) → (block i [h.elems[i]]).leaves = none)
    (hfuel : h.elems.length - i < fuel) :
    ∃ m', filter_each block keeps r q fuel i m = .ok (none, m') ∧
      Holds m' (changed lists q (kept block keeps h.elems h.elems.length)) := by
  induction fuel generalizing m lists d i with
  | zero => omega
  | succ fuel ih =>
    rw [filter_each, bind_ok (len_ok hm hr)]
    split
    · rename_i hlt
      rw [bind_ok (read_ok hm hr hlt)]
      simp only [hgoes i hlt]
      have hnext : kept block keeps h.elems (i + 1) = _ := kept_succ hlt
      split
      · rename_i hanswer
        have hkeep : keep block keeps i h.elems[i] = true := decide_eq_true hanswer
        obtain ⟨m₁, hpush, hm₁⟩ := push_ok (v := h.elems[i]) hm hq
        obtain ⟨m₂, hrest, hm₂⟩ := ih (i + 1) hm₁ (by rwa [changed_get_ne hne]) (changed_get hq)
          (by rw [hnext, if_pos hkeep, hd]) hlt (by omega)
        rw [changed_changed] at hm₂
        rw [bind_ok hpush]
        exact ⟨m₂, hrest, hm₂⟩
      · rename_i hanswer
        have hkeep : ¬ keep block keeps i h.elems[i] = true := by simpa [keep] using hanswer
        exact ih (i + 1) hm hr hq (by rw [hnext, if_neg hkeep, hd, List.append_nil]) hlt (by omega)
    · obtain rfl : i = h.elems.length := by omega
      refine ⟨m, rfl, ?_⟩
      rwa [← hd, changed_same hq]

theorem reverse_each_ok (hne : r ≠ q) (hm : Holds m lists) (hr : lists[r]? = some h) (hq : lists[q]? = some d)
    (hi : i ≤ h.elems.length) :
    ∃ m', reverse_each r q i m = .ok ((), m') ∧
      Holds m' (changed lists q (d.elems ++ (h.elems.take i).reverse)) := by
  induction i generalizing m lists d with
  | zero =>
    refine ⟨m, rfl, ?_⟩
    rwa [List.take_zero, List.reverse_nil, List.append_nil, changed_same hq]
  | succ i ih =>
    obtain ⟨m₁, hpush, hm₁⟩ := push_ok (v := h.elems[i]) hm hq
    obtain ⟨m₂, hrest, hm₂⟩ := ih hm₁ (by rwa [changed_get_ne hne]) (changed_get hq) (Nat.le_of_succ_le hi)
    rw [reverse_each, bind_ok (read_ok hm hr hi), bind_ok hpush]
    refine ⟨m₂, hrest, ?_⟩
    rw [changed_changed] at hm₂
    rw [List.take_succ_eq_append_getElem hi, List.reverse_append]
    simpa using hm₂

theorem rotate_each_ok (fuel offset i : Nat) (hne : r ≠ q) (hm : Holds m lists) (hr : lists[r]? = some h)
    (hq : lists[q]? = some d) (hfuel : h.elems.length - i < fuel) :
    ∃ m', rotate_each r q h.elems.length offset fuel i m = .ok ((), m') ∧
      Holds m' (changed lists q (d.elems ++ (h.elems.rotate offset).drop i)) := by
  induction fuel generalizing m lists d i with
  | zero => omega
  | succ fuel ih =>
    rw [rotate_each]
    split
    · rename_i hi
      have hinside : (i + offset) % h.elems.length < h.elems.length := Nat.mod_lt _ (Nat.zero_lt_of_lt hi)
      have hi' : i < (h.elems.rotate offset).length := by rwa [List.length_rotate]
      obtain ⟨m₁, hpush, hm₁⟩ := push_ok (v := h.elems[(i + offset) % h.elems.length]) hm hq
      obtain ⟨m₂, hrest, hm₂⟩ := ih (i + 1) hm₁ (by rwa [changed_get_ne hne]) (changed_get hq) (by omega)
      rw [bind_ok (read_ok hm hr hinside), bind_ok hpush]
      refine ⟨m₂, hrest, ?_⟩
      rw [changed_changed] at hm₂
      rw [List.drop_eq_getElem_cons hi', List.getElem_rotate]
      simpa using hm₂
    · rename_i hi
      have hnone : (h.elems.rotate offset).drop i = [] :=
        List.drop_eq_nil_of_le (by rw [List.length_rotate]; omega)
      refine ⟨m, rfl, ?_⟩
      rwa [hnone, List.append_nil, changed_same hq]

/-! ### The receiver itself -/

/-- An array whose first elements are those of another list. -/
theorem replaced_length (hsame : ys.length = xs.length) : (ys.take i ++ xs.drop i).length = xs.length := by
  rw [List.length_append, List.length_take, List.length_drop]
  omega

theorem replaced_set (hsame : ys.length = xs.length) (hi : i < ys.length) :
    (ys.take i ++ xs.drop i).set i ys[i] = ys.take (i + 1) ++ xs.drop (i + 1) := by
  have htake : (ys.take i).length = i := List.length_take_of_le hi.le
  rw [List.set_append_right _ _ htake.le, htake, Nat.sub_self, List.drop_eq_getElem_cons (hsame ▸ hi),
    List.set_cons_zero, List.take_succ_eq_append_getElem hi, List.append_assoc, List.singleton_append]

theorem replaced_get (hsame : ys.length = xs.length) (hi : i < (ys.take i ++ xs.drop i).length) (hi' : i < xs.length) :
    (ys.take i ++ xs.drop i)[i] = xs[i] := by
  have htake : (ys.take i).length = i := List.length_take_of_le (hsame ▸ hi'.le)
  rw [List.getElem_append_right htake.le]
  simp [htake]

theorem map_bang_each_ok (fuel i : Nat) (hr : lists[r]? = some h)
    (hm : Holds m (changed lists r ((mapped block h.elems).take i ++ h.elems.drop i)))
    (hgoes : ∀ i, (hi : i < h.elems.length) → (block i [h.elems[i]]).leaves = none)
    (hfuel : h.elems.length - i < fuel) :
    ∃ m', map_bang_each block r fuel i m = .ok (none, m') ∧ Holds m' (changed lists r (mapped block h.elems)) := by
  have hsame : (mapped block h.elems).length = h.elems.length := length_mapped
  induction fuel generalizing m i with
  | zero => omega
  | succ fuel ih =>
    rw [map_bang_each, bind_ok (len_ok hm (changed_get hr))]
    simp only [replaced_length hsame]
    split
    · rename_i hi
      have hi' : i < ((mapped block h.elems).take i ++ h.elems.drop i).length := by rwa [replaced_length hsame]
      have hread := read_ok hm (changed_get hr) hi'
      rw [replaced_get hsame hi' hi] at hread
      obtain ⟨m₁, hwrite, hm₁⟩ := write_ok (v := (block i [h.elems[i]]).value) hm (changed_get hr) hi'
      have hset := replaced_set hsame (hsame.symm ▸ hi)
      rw [mapped_get _ hi] at hset
      rw [changed_changed, hset] at hm₁
      rw [bind_ok hread]
      simp only [hgoes i hi]
      rw [bind_ok hwrite]
      exact ih (i + 1) hm₁ (by omega)
    · rename_i hi
      refine ⟨m, rfl, ?_⟩
      rwa [List.take_of_length_le (by rw [hsame]; omega), List.drop_eq_nil_of_le (not_lt.mp hi), List.append_nil] at hm

/-- The elements of another array of the same length are copied over. -/
theorem copy_while_ok (bound : Run Nat) (fuel i : Nat) (hne : q ≠ r) (hr : lists[r]? = some h) (hq : lists[q]? = some d)
    (hsame : d.elems.length = h.elems.length) (hm : Holds m (changed lists r (d.elems.take i ++ h.elems.drop i)))
    (hbound : ∀ m lists', Holds m lists' → lists'[q]? = some d → bound m = .ok (d.elems.length, m))
    (hfuel : h.elems.length - i < fuel) :
    ∃ m', copy_while bound r q fuel i m = .ok ((), m') ∧ Holds m' (changed lists r d.elems) := by
  induction fuel generalizing m i with
  | zero => omega
  | succ fuel ih =>
    have hq' : (changed lists r (d.elems.take i ++ h.elems.drop i))[q]? = some d := (changed_get_ne hne).trans hq
    rw [copy_while, bind_ok (hbound _ _ hm hq')]
    split
    · rename_i hi
      have hi' : i < (d.elems.take i ++ h.elems.drop i).length := by rwa [replaced_length hsame, ← hsame]
      obtain ⟨m₁, hwrite, hm₁⟩ := write_ok (v := d.elems[i]) hm (changed_get hr) hi'
      rw [changed_changed, replaced_set hsame hi] at hm₁
      rw [bind_ok (read_ok hm hq' hi), bind_ok hwrite]
      exact ih (i + 1) hm₁ (by omega)
    · rename_i hi
      refine ⟨m, rfl, ?_⟩
      rwa [List.take_of_length_le (not_lt.mp hi), List.drop_eq_nil_of_le (hsame ▸ not_lt.mp hi), List.append_nil] at hm

/-- An array whose first and last `i` elements have changed places. -/
structure Swapped (xs : List Value) (i : Nat) (zs : List Value) : Prop where
  length_eq : zs.length = xs.length
  get : ∀ j, (hj : j < xs.length) →
    zs[j] = if j < i ∨ xs.length - 1 - j < i then xs[xs.length - 1 - j] else xs[j]

theorem Swapped.start (xs : List Value) : Swapped xs 0 xs := ⟨rfl, fun j hj => by rw [if_neg (by omega)]⟩

theorem Swapped.swap (h : Swapped xs i zs) (hi : i < xs.length / 2) (hfirst : i < zs.length)
    (hlast : xs.length - 1 - i < zs.length) :
    Swapped xs (i + 1) ((zs.set i zs[xs.length - 1 - i]).set (xs.length - 1 - i) zs[i]) := by
  have hlen := h.length_eq
  refine ⟨by rw [List.length_set, List.length_set, hlen], fun j hj => ?_⟩
  rw [List.getElem_set, List.getElem_set]
  split
  · rename_i hlast
    subst hlast
    rw [h.get i (by omega), if_neg (by omega), if_pos (by omega)]
    congr 1
    omega
  · split
    · rename_i hfirst
      subst hfirst
      rw [h.get _ (by omega), if_neg (by omega), if_pos (by omega)]
    · rw [h.get j hj]
      congr 1
      rw [eq_iff_iff]
      omega

/-- All of them have. -/
theorem Swapped.eq_reverse (h : Swapped xs i zs) (hi : xs.length / 2 ≤ i) : zs = xs.reverse := by
  refine List.ext_getElem (by rw [h.length_eq, List.length_reverse]) fun j hj hj' => ?_
  have hlt : j < xs.length := h.length_eq ▸ hj
  rw [List.getElem_reverse, h.get j hlt]
  split
  · rfl
  · congr 1
    omega

theorem swap_each_ok (fuel i : Nat) (hr : lists[r]? = some h) (hm : Holds m (changed lists r zs))
    (hswapped : Swapped h.elems i zs) (hfuel : h.elems.length / 2 - i < fuel) :
    ∃ m', swap_each r h.elems.length fuel i m = .ok ((), m') ∧ Holds m' (changed lists r h.elems.reverse) := by
  induction fuel generalizing m i zs with
  | zero => omega
  | succ fuel ih =>
    have hlen := hswapped.length_eq
    rw [swap_each]
    split
    · rename_i hi
      have hfirst : i < zs.length := by omega
      have hlast : h.elems.length - 1 - i < zs.length := by omega
      obtain ⟨m₁, hwrite, hm₁⟩ := write_ok (v := zs[h.elems.length - 1 - i]) hm (changed_get hr) hfirst
      rw [changed_changed] at hm₁
      have hlast' : h.elems.length - 1 - i < (zs.set i zs[h.elems.length - 1 - i]).length := by rwa [List.length_set]
      obtain ⟨m₂, hwrite', hm₂⟩ := write_ok (v := zs[i]) hm₁ (changed_get hr) hlast'
      rw [changed_changed] at hm₂
      rw [bind_ok (read_ok hm (changed_get hr) hfirst), bind_ok (read_ok hm (changed_get hr) hlast), bind_ok hwrite,
        bind_ok hwrite']
      exact ih (i + 1) hm₂ (hswapped.swap hi hfirst hlast) (by omega)
    · rename_i hi
      refine ⟨m, rfl, ?_⟩
      rwa [← hswapped.eq_reverse (not_lt.mp hi)]

/-! ### compact -/

theorem cell_same {c : Cell} (hrun : cell r m = .ok (c, m')) : m = m' := by
  rw [cell] at hrun
  split at hrun
  · cases hrun
    rfl
  · cases hrun

theorem len_same (hrun : len r m = .ok (n, m')) : m = m' := by
  obtain ⟨c, m₁, hcell, hrest⟩ := ok_of_bind hrun
  cases hrest
  exact cell_same hcell

/-- Reading changes nothing. -/
theorem read_same {v : Value} (hrun : read r i m = .ok (v, m')) : m = m' := by
  obtain ⟨c, m₁, hcell, hrest⟩ := ok_of_bind hrun
  cases hget : c.buffer.read i with
  | some w =>
    simp only [hget] at hrest
    cases hrest
    exact cell_same hcell
  | none =>
    simp only [hget] at hrest
    cases hrest

/-- `compact` keeps what is not nil. -/
def not_nil : Callee := fun _ vs => { value := .bool ((vs.headD .nil).kind ≠ .nil), errored := false }

theorem not_nil_goes (vs : List Value) : (not_nil i vs).leaves = none := rfl

theorem not_nil_keeps (v : Value) : val_truthy (not_nil i [v]).value = true ↔ v.kind ≠ .nil := decide_eq_true_iff

theorem compact_into_eq (fuel : Nat) :
    filter_each not_nil true r q fuel i m = (compact_into r q fuel i m).map fun out => (none, out.2) := by
  induction fuel generalizing i m with
  | zero => rfl
  | succ fuel ih =>
    rw [filter_each, compact_into]
    cases hlen : len r m with
    | error reason =>
      rw [bind_error hlen, bind_error hlen]
      rfl
    | ok out =>
      rw [bind_ok hlen, bind_ok hlen]
      split
      · cases hread : read r i out.2 with
        | error reason =>
          rw [bind_error hread, bind_error hread]
          rfl
        | ok out' =>
          rw [bind_ok hread, bind_ok hread]
          simp only [not_nil_goes, not_nil_keeps]
          split
          · cases hpush : val_array_push q out'.1 out'.2 with
            | error reason =>
              rw [bind_error hpush, bind_error hpush]
              rfl
            | ok out'' =>
              rw [bind_ok hpush, bind_ok hpush]
              exact ih
          · exact ih
      · rfl

theorem compact_bang_each_eq (fuel w : Nat) :
    filter_bang_each not_nil true r fuel i w m = (compact_bang_each r fuel i w m).map fun out => (.ok out.1, out.2) := by
  induction fuel generalizing i w m with
  | zero => rfl
  | succ fuel ih =>
    rw [filter_bang_each, compact_bang_each]
    cases hlen : len r m with
    | error reason =>
      rw [bind_error hlen, bind_error hlen]
      rfl
    | ok out =>
      rw [bind_ok hlen, bind_ok hlen]
      split
      · cases hread : read r i out.2 with
        | error reason =>
          rw [bind_error hread, bind_error hread]
          rfl
        | ok out' =>
          obtain ⟨v, m₁⟩ := out'
          obtain rfl := read_same hread
          rw [bind_ok hread, bind_ok hread]
          simp only [not_nil_goes, not_nil_keeps]
          split
          · rw [bind_ok hread]
            cases hwrite : write r w v out.2 with
            | error reason =>
              rw [bind_error hwrite, bind_error hwrite]
              rfl
            | ok out'' =>
              rw [bind_ok hwrite, bind_ok hwrite]
              exact ih (w + 1)
          · exact ih w
      · rfl

/-! ### sort -/

namespace list
section
variable (less : Nat → Value → Value → Except Reply Bool × Nat)

/-- A key goes in front of the elements it comes before. The elements are taken
from the back; `behind` are those it has passed. -/
def insert_down (key : Value) : List Value → List Value → Nat → Except Reply (List Value × Nat)
  | [], behind, n => .ok (key :: behind, n)
  | prev :: front, behind, n =>
    match less n key prev with
    | (.error reply, _) => .error reply
    | (.ok false, n) => .ok ((prev :: front).reverse ++ key :: behind, n)
    | (.ok true, n) => insert_down key front (prev :: behind) n

def sort_on : List Value → List Value → Nat → Except Reply (List Value)
  | done, [], _ => .ok done
  | done, key :: rest, n =>
    match insert_down less key done.reverse [] n with
    | .error reply => .error reply
    | .ok (done, n) => sort_on done rest n

/-- Insertion sort, up to the first comparison that fails. -/
def sorted (xs : List Value) : Except Reply (List Value) := sort_on less (xs.take 1) (xs.drop 1) 0

variable {less} {key : Value}

theorem length_insert_down {front behind : List Value} {n' : Nat}
    (hins : insert_down less key front behind n = .ok (ys, n')) : ys.length = front.length + behind.length + 1 := by
  induction front generalizing behind n with
  | nil =>
    cases hins
    simp
  | cons prev front ih =>
    rw [insert_down] at hins
    split at hins
    · cases hins
    · cases hins
      simp only [List.length_append, List.length_reverse, List.length_cons]
      omega
    · have hlen := ih hins
      simp only [List.length_cons] at hlen ⊢
      omega

theorem length_sort_on {done rest : List Value} (hsort : sort_on less done rest n = .ok ys) :
    ys.length = done.length + rest.length := by
  induction rest generalizing done n with
  | nil =>
    cases hsort
    rfl
  | cons key rest ih =>
    rw [sort_on] at hsort
    split at hsort
    · cases hsort
    · rename_i hins
      have hlen := length_insert_down hins
      rw [ih hsort, hlen, List.length_reverse, List.length_nil, List.length_cons]
      omega

/-- Sorting loses nothing. -/
theorem length_sorted (hsort : sorted less xs = .ok ys) : ys.length = xs.length := by
  rw [length_sort_on hsort, List.length_take, List.length_drop]
  omega

/-- What a sort fails with is what a comparison fails with. -/
theorem insert_down_error {front behind : List Value} {reply : Reply} {p : Reply → Prop}
    (hless : ∀ n a b reply, (less n a b).1 = .error reply → p reply)
    (hins : insert_down less key front behind n = .error reply) : p reply := by
  induction front generalizing behind n with
  | nil => cases hins
  | cons prev front ih =>
    rw [insert_down] at hins
    split at hins
    · rename_i hfails
      cases hins
      exact hless n key prev _ (by rw [hfails])
    · cases hins
    · exact ih hins

theorem sort_on_error {done rest : List Value} {reply : Reply} {p : Reply → Prop}
    (hless : ∀ n a b reply, (less n a b).1 = .error reply → p reply)
    (hsort : sort_on less done rest n = .error reply) : p reply := by
  induction rest generalizing done n with
  | nil => cases hsort
  | cons key rest ih =>
    rw [sort_on] at hsort
    split at hsort
    · rename_i hfails
      cases hsort
      exact insert_down_error hless hfails
    · exact ih hsort

end
end list

section
variable (blk : Option Callee) (spaceship : Callee) {hole : Value} {front behind rest done : List Value}

/-- One turn of the inner loop. -/
theorem sort_down_turn {q : Ref} {key prev : Value} {fuel j n : Nat} {m : Memory} (hread : read q j m = .ok (prev, m)) :
    sort_down blk spaceship q key (fuel + 1) (j + 1) n m =
      (match sort_less blk spaceship n key prev with
      | (.error reply, _) => return .error reply
      | (.ok less, n) =>
        if less then do
          write q (j + 1) prev
          sort_down blk spaceship q key fuel j n
        else return .ok (j + 1, n) : Run (Except Reply (Nat × Nat))) m := by
  rw [sort_down, if_pos (Nat.zero_lt_succ _), Nat.add_sub_cancel]
  exact (bind_ok hread).trans rfl

/-- The key finds its place in the array as it does in the list. -/
theorem sort_down_ok (key : Value) (fuel : Nat) (hq : lists[q]? = some d)
    (hm : Holds m (changed lists q (front.reverse ++ hole :: (behind ++ rest)))) (hfuel : front.length < fuel) :
    ∃ m' zs, Holds m' (changed lists q zs) ∧
      match list.insert_down (sort_less blk spaceship) key front behind n with
      | .error reply => sort_down blk spaceship q key fuel front.length n m = .ok (.error reply, m')
      | .ok (ys, n') => ∃ j, sort_down blk spaceship q key fuel front.length n m = .ok (.ok (j, n'), m') ∧
          j < zs.length ∧ zs.set j key = ys ++ rest := by
  induction front generalizing fuel behind hole n m with
  | nil =>
    obtain ⟨fuel, rfl⟩ := Nat.exists_eq_add_of_lt hfuel
    exact ⟨m, _, hm, 0, by rw [List.length_nil, Nat.zero_add, sort_down, if_neg (Nat.lt_irrefl 0)]; rfl,
      Nat.zero_lt_succ _, rfl⟩
  | cons prev front ih =>
    obtain ⟨fuel, rfl⟩ : ∃ fuel', fuel = fuel' + 1 := ⟨fuel - 1, by omega⟩
    have hsplit : (prev :: front).reverse ++ hole :: (behind ++ rest) =
        front.reverse ++ prev :: hole :: (behind ++ rest) := by simp
    rw [hsplit] at hm
    have hinside : front.length < (front.reverse ++ prev :: hole :: (behind ++ rest)).length := by simp
    have hread := read_ok hm (changed_get hq) hinside
    have hprev : (front.reverse ++ prev :: hole :: (behind ++ rest))[front.length] = prev := by
      rw [List.getElem_append_right (by simp)]
      simp
    simp only [hprev] at hread
    rw [List.length_cons, sort_down_turn blk spaceship hread, list.insert_down]
    obtain ⟨answer, n'⟩ := sort_less blk spaceship n key prev
    cases answer with
    | error reply => exact ⟨m, _, hm, rfl⟩
    | ok less =>
      cases less with
      | false =>
        refine ⟨m, _, hm, front.length + 1, rfl, by simp, ?_⟩
        rw [List.set_append_right _ _ (by simp)]
        simp
      | true =>
        have hwriter : front.length + 1 < (front.reverse ++ prev :: hole :: (behind ++ rest)).length := by simp
        obtain ⟨m₁, hwrite, hm₁⟩ := write_ok (v := prev) hm (changed_get hq) hwriter
        have hset : (front.reverse ++ prev :: hole :: (behind ++ rest)).set (front.length + 1) prev =
            front.reverse ++ prev :: (prev :: behind ++ rest) := by
          rw [List.set_append_right _ _ (by simp)]
          simp
        rw [changed_changed, hset] at hm₁
        simp only [if_true]
        rw [bind_ok hwrite]
        exact ih fuel hm₁ (Nat.lt_of_succ_lt_succ hfuel)

/-- The elements behind the sorted ones are put among them one by one. -/
theorem sort_each_ok (fuel : Nat) (hq : lists[q]? = some d) (hm : Holds m (changed lists q (done ++ rest)))
    (hfuel : done.length + 2 * rest.length < fuel) :
    ∃ m' zs, Holds m' (changed lists q zs) ∧
      match list.sort_on (sort_less blk spaceship) done rest n with
      | .error reply => sort_each blk spaceship q fuel done.length n m = .ok (some reply, m')
      | .ok ys => sort_each blk spaceship q fuel done.length n m = .ok (none, m') ∧ zs = ys := by
  induction rest generalizing fuel done n m with
  | nil =>
    obtain ⟨fuel, rfl⟩ : ∃ fuel', fuel = fuel' + 1 := ⟨fuel - 1, by omega⟩
    rw [List.append_nil] at hm
    refine ⟨m, done, hm, ?_, rfl⟩
    rw [sort_each, bind_ok (len_ok hm (changed_get hq)), if_neg (Nat.lt_irrefl _)]
    rfl
  | cons key rest ih =>
    obtain ⟨fuel, rfl⟩ : ∃ fuel', fuel = fuel' + 1 := ⟨fuel - 1, by omega⟩
    rw [List.length_cons] at hfuel
    have hinside : done.length < (done ++ key :: rest).length := by simp
    have hread := read_ok hm (changed_get hq) hinside
    have hkey : (done ++ key :: rest)[done.length] = key := by simp
    simp only [hkey] at hread
    have hm' : Holds m (changed lists q (done.reverse.reverse ++ key :: ([] ++ rest))) := by simpa using hm
    obtain ⟨m₁, zs, hm₁, hdown⟩ := sort_down_ok blk spaceship (n := n) key fuel hq hm'
      (by rw [List.length_reverse]; omega)
    rw [List.length_reverse] at hdown
    rw [sort_each, bind_ok (len_ok hm (changed_get hq)), if_pos hinside, bind_ok hread, list.sort_on]
    cases hins : list.insert_down (sort_less blk spaceship) key done.reverse [] n with
    | error reply =>
      simp only [hins] at hdown
      rw [bind_ok hdown]
      exact ⟨m₁, zs, hm₁, rfl⟩
    | ok out =>
      obtain ⟨ys, n'⟩ := out
      simp only [hins] at hdown
      obtain ⟨j, hrun, hj, hset⟩ := hdown
      obtain ⟨m₂, hwrite, hm₂⟩ := write_ok (v := key) hm₁ (changed_get hq) hj
      rw [changed_changed, hset] at hm₂
      have hlen := list.length_insert_down hins
      rw [List.length_reverse, List.length_nil, Nat.add_zero] at hlen
      rw [bind_ok hrun]
      simp only
      rw [bind_ok hwrite, ← hlen]
      exact ih fuel hm₂ (by omega)

/-- Sorting goes as it goes for the list, on a copy. -/
theorem sort_ok (fuel : Nat) (hm : Holds m lists) (hr : lists[r]? = some h) (hfuel : 2 * h.elems.length + 1 < fuel) :
    ∃ m' zs, Holds m' (lists ++ [{ elems := zs, frozen := false }]) ∧
      match list.sorted (sort_less blk spaceship) h.elems with
      | .error reply => sort blk spaceship fuel r m = .ok (reply, m')
      | .ok ys => sort blk spaceship fuel r m = .ok (.value (.array lists.length), m') ∧ zs = ys := by
  obtain ⟨m₁, m₂, hnew, hcopy, hm₂⟩ := copied (len r) fuel 0 hm hr (fun _ _ hm hs => len_ok hm hs) le_rfl (by omega)
  rw [List.drop_zero, Nat.sub_zero, List.take_length] at hm₂
  obtain ⟨hmade, -⟩ := new_held hr h.elems
  have hsplit : Holds m₂ (changed (lists ++ [{ elems := h.elems, frozen := false }]) lists.length
      (h.elems.take 1 ++ h.elems.drop 1)) := by
    rwa [List.take_append_drop, changed_new]
  obtain ⟨m₃, zs, hm₃, hrun⟩ := sort_each_ok blk spaceship (n := 0) fuel hmade hsplit
    (by rw [List.length_take, List.length_drop]; omega)
  rw [changed_new] at hm₃
  have hfirst : sort_each blk spaceship lists.length fuel (h.elems.take 1).length 0 m₂ =
      sort_each blk spaceship lists.length fuel 1 0 m₂ := by
    cases hxs : h.elems with
    | nil =>
      obtain ⟨fuel, rfl⟩ : ∃ fuel', fuel = fuel' + 1 := ⟨fuel - 1, by omega⟩
      rw [hxs] at hm₂
      have hlen := len_ok hm₂ (new_held hr []).1
      rw [sort_each, sort_each, bind_ok hlen, bind_ok hlen]
      rfl
    | cons x xs => rfl
  rw [hfirst] at hrun
  refine ⟨m₃, zs, hm₃, ?_⟩
  rw [list.sorted]
  cases hsorted : list.sort_on (sort_less blk spaceship) (h.elems.take 1) (h.elems.drop 1) 0 with
  | error reply =>
    simp only [hsorted] at hrun
    rw [sort, bind_ok hnew, bind_ok hcopy, bind_ok hrun]
    rfl
  | ok ys =>
    simp only [hsorted] at hrun
    obtain ⟨hrun, rfl⟩ := hrun
    refine ⟨?_, rfl⟩
    rw [sort, bind_ok hnew, bind_ok hcopy, bind_ok hrun]
    rfl

end

/-! ### uniq and flatten, which need not end -/

section
variable {hashes : List KeyedHash} {depth : Nat} {a b : Value}

theorem val_equal_same {same : Bool} (hrun : val_equal hashes depth a b m = .ok (same, m')) : m = m' := by
  rw [val_equal] at hrun
  split at hrun
  · cases hrun
    rfl
  · cases hrun

theorem any_equal_same {fuel j : Nat} {found : Bool} (hrun : any_equal hashes depth q a fuel j m = .ok (found, m')) :
    m = m' := by
  induction fuel generalizing j with
  | zero => cases hrun
  | succ fuel ih =>
    rw [any_equal] at hrun
    obtain ⟨n, m₁, hlen, hrun⟩ := ok_of_bind hrun
    obtain rfl := len_same hlen
    split at hrun
    · obtain ⟨v, m₂, hread, hrun⟩ := ok_of_bind hrun
      obtain rfl := read_same hread
      obtain ⟨same, m₃, hequal, hrun⟩ := ok_of_bind hrun
      obtain rfl := val_equal_same hequal
      cases same with
      | true =>
        cases hrun
        rfl
      | false => exact ih hrun
    · cases hrun
      rfl

/-- What `uniq` collects are elements of the receiver, in their order. -/
theorem uniq_each_sound {blk : Option Callee} {seen : Ref} {k : Held} {fuel : Nat} {out : Option Value}
    (hkey : ∀ i v, ∃ key, uniq_key blk i v = .ok key) (hrq : r ≠ q) (hrs : r ≠ seen) (hqs : q ≠ seen)
    (hrun : uniq_each hashes depth blk r q seen fuel i m = .ok (out, m')) (hm : Holds m lists)
    (hr : lists[r]? = some h) (hq : lists[q]? = some d) (hs : lists[seen]? = some k) :
    out = none ∧ ∃ ys keys, Holds m' (changed (changed lists seen keys) q (d.elems ++ ys)) ∧
      ys.Sublist (h.elems.drop i) := by
  induction fuel generalizing i m lists d k with
  | zero => cases hrun
  | succ fuel ih =>
    rw [uniq_each, bind_ok (len_ok hm hr)] at hrun
    split at hrun
    · rename_i hi
      obtain ⟨key, hkey'⟩ := hkey i h.elems[i]
      rw [bind_ok (read_ok hm hr hi)] at hrun
      simp only [hkey'] at hrun
      obtain ⟨found, m₁, hfound, hrun⟩ := ok_of_bind hrun
      obtain rfl := any_equal_same hfound
      cases found with
      | true =>
        obtain ⟨hout, ys, keys, hm', hsub⟩ := ih hrun hm hr hq hs
        exact ⟨hout, ys, keys, hm', hsub.trans (List.drop_sublist_drop_left _ (Nat.le_succ i))⟩
      | false =>
        obtain ⟨m₂, hseen, hm₂⟩ := push_ok (v := key) hm hs
        have hq₂ : (changed lists seen (k.elems ++ [key]))[q]? = some d := (changed_get_ne hqs).trans hq
        obtain ⟨m₃, hpush, hm₃⟩ := push_ok (v := h.elems[i]) hm₂ hq₂
        simp only [Bool.false_eq_true, if_false] at hrun
        rw [bind_ok hseen, bind_ok hpush] at hrun
        obtain ⟨hout, ys, keys, hm', hsub⟩ := ih hrun hm₃
          (by rw [changed_get_ne hrq, changed_get_ne hrs, hr]) (changed_get hq₂)
          (by rw [changed_get_ne hqs.symm, changed_get hs])
        refine ⟨hout, h.elems[i] :: ys, keys, ?_, ?_⟩
        · rw [changed_comm hqs.symm, changed_changed, changed_changed] at hm'
          simpa using hm'
        · rw [List.drop_eq_getElem_cons hi]
          exact hsub.cons_cons _
    · cases hrun
      refine ⟨rfl, [], k.elems, ?_, List.nil_sublist _⟩
      rwa [changed_same hs, List.append_nil, changed_same hq]

theorem uniq_into_sound {blk : Option Callee} {fuel : Nat} {out : Except Value Ref}
    (hkey : ∀ i v, ∃ key, uniq_key blk i v = .ok key) (hrun : uniq_into hashes depth fuel r blk m = .ok (out, m'))
    (hm : Holds m lists) (hr : lists[r]? = some h) :
    out = .ok lists.length ∧ ∃ ys keys : List Value,
      Holds m' (lists ++ [{ elems := ys, frozen := false }, { elems := keys, frozen := false }]) ∧
        ys.Sublist h.elems := by
  have hlt := lt_of_get hr
  obtain ⟨m₁, hnew, hm₁⟩ := new_ok hm
  obtain ⟨m₂, hnew', hm₂⟩ := new_ok hm₁
  obtain ⟨hmade, hr₁⟩ := new_held hr []
  have hseen : (lists ++ [({ elems := [], frozen := false } : Held)]).length = lists.length + 1 := List.length_append
  obtain ⟨hmade', hr₂⟩ := new_held hr₁ []
  have hq₂ := (new_held hmade []).2
  rw [hseen] at hmade'
  rw [uniq_into, bind_ok hnew, bind_ok hnew', hseen] at hrun
  obtain ⟨found, m₃, hloop, hrun⟩ := ok_of_bind hrun
  have hrs : r ≠ lists.length + 1 := (hlt.trans (Nat.lt_succ_self _)).ne
  have hqs : lists.length ≠ lists.length + 1 := (Nat.succ_ne_self _).symm
  obtain ⟨rfl, ys, keys, hm₃, hsub⟩ := uniq_each_sound hkey hlt.ne hrs hqs hloop hm₂ hr₂ hq₂ hmade'
  cases hrun
  refine ⟨rfl, ys, keys, ?_, hsub⟩
  rw [← hseen, changed_new, changed_append (hseen ▸ Nat.lt_succ_self _), changed_new, List.append_assoc] at hm₃
  exact hm₃

/-- What `flatten` collects goes behind what is there. -/
theorem array_flatten_into_sound {to_ary : Callee} {fuel : Nat} {arr : Ref} {depth : Int} {n' : Nat}
    (hrun : array_flatten_into to_ary q fuel arr depth i n m = .ok (n', m')) (hm : Holds m lists)
    (hq : lists[q]? = some d) : ∃ ys, Holds m' (changed lists q (d.elems ++ ys)) := by
  induction fuel generalizing arr depth i n m m' n' lists d with
  | zero => cases hrun
  | succ fuel ih =>
    rw [array_flatten_into] at hrun
    obtain ⟨size, m₁, hlen, hrun⟩ := ok_of_bind hrun
    obtain rfl := len_same hlen
    split at hrun
    · obtain ⟨elem, m₂, hread, hrun⟩ := ok_of_bind hrun
      obtain rfl := read_same hread
      have hpushed : ∀ {n}, (do
          val_array_push q elem
          array_flatten_into to_ary q fuel arr depth (i + 1) n : Run Nat) m = .ok (n', m') →
            ∃ ys, Holds m' (changed lists q (d.elems ++ ys)) := by
        intro n hrun
        obtain ⟨m₃, hpush, hm₃⟩ := push_ok (v := elem) hm hq
        rw [bind_ok hpush] at hrun
        obtain ⟨ys, hm'⟩ := ih hrun hm₃ (changed_get hq)
        refine ⟨elem :: ys, ?_⟩
        rw [changed_changed] at hm'
        simpa using hm'
      have hdeeper : ∀ {inner : Ref} {deeper : Int} {n}, (do
          let n ← array_flatten_into to_ary q fuel inner deeper 0 n
          array_flatten_into to_ary q fuel arr depth (i + 1) n : Run Nat) m = .ok (n', m') →
            ∃ ys, Holds m' (changed lists q (d.elems ++ ys)) := by
        intro inner deeper n hrun
        obtain ⟨count, m₃, hinner, hrun⟩ := ok_of_bind hrun
        obtain ⟨ys, hm₃⟩ := ih hinner hm hq
        obtain ⟨zs, hm'⟩ := ih hrun hm₃ (changed_get hq)
        refine ⟨ys ++ zs, ?_⟩
        rw [changed_changed] at hm'
        simpa using hm'
      generalize (if 0 < depth then depth - 1 else depth) = deeper at hrun
      generalize (if depth = 0 then Value.nil else elem) = shown at hrun
      split at hrun
      · exact hdeeper hrun
      · split at hrun
        · exact hdeeper hrun
        · exact hpushed hrun
      · exact hpushed hrun
    · cases hrun
      exact ⟨[], by rwa [List.append_nil, changed_same hq]⟩

/-! ### Comparing -/

variable (hashes depth a b) in
theorem val_equal_eq (hm : Holds m lists) : val_equal hashes depth a b m =
    match equal_in hashes depth lists a b with
    | some same => .ok (same, m)
    | none => .error .running := by
  have hsame : (key_heap hashes m).val_equal depth a b = equal_in hashes depth lists a b :=
    congrArg (KeyHeap.val_equal · depth a b) (key_heap_eq hashes hm)
  unfold val_equal
  cases hequal : equal_in hashes depth lists a b <;> simp only [hsame.trans hequal]

/-- Whether two lists differ, as far as the comparisons answer. -/
def differs (equal : Value → Value → Option Bool) : List Value → List Value → Option Bool
  | a :: xs, b :: ys =>
    match equal a b with
    | some true => differs equal xs ys
    | some false => some true
    | none => none
  | _, _ => some false

variable (hashes depth) in
theorem differs_from_ok (fuel i : Nat) (hm : Holds m lists) (hr : lists[r]? = some h) (hq : lists[q]? = some d)
    (hsame : d.elems.length = h.elems.length) (hfuel : h.elems.length - i < fuel) :
    differs_from hashes depth r q fuel i m =
      match differs (equal_in hashes depth lists) (h.elems.drop i) (d.elems.drop i) with
      | some changed => .ok (changed, m)
      | none => .error .running := by
  induction fuel generalizing i with
  | zero => omega
  | succ fuel ih =>
    rw [differs_from, bind_ok (len_ok hm hr)]
    split
    · rename_i hi
      have hi' : i < d.elems.length := hsame ▸ hi
      rw [bind_ok (read_ok hm hr hi), bind_ok (read_ok hm hq hi'), List.drop_eq_getElem_cons hi,
        List.drop_eq_getElem_cons hi', differs]
      have hequal := val_equal_eq hashes depth h.elems[i] d.elems[i] hm
      split at hequal
      · rename_i same hanswer
        rw [bind_ok hequal, hanswer]
        cases same with
        | true => exact ih (i + 1) (by omega)
        | false => rfl
      · rename_i hanswer
        rw [bind_error hequal, hanswer]
    · rename_i hi
      rw [List.drop_eq_nil_of_le (not_lt.mp hi), differs]
      · rfl
      · nofun

end

end stoned.arrays
