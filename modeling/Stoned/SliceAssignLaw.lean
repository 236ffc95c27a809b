import Stoned.SubscriptLaw

namespace stoned.arrays

open stoned.program (Buffer)

/-! What an assignment to a slice leaves. -/

/-- The ways an assignment takes: the shortcut of eval_call, and dispatch_array
through send, a compound or a multiple assignment. -/
inductive Route where
  | shortcut
  | dispatched

def Route.assign (route : Route) (fuel : Nat) (r : Ref) (args : List Value) : Run Reply :=
  match route with
  | .shortcut => subscript_assign fuel r args
  | .dispatched => store fuel r args

namespace Subscript

/-- A start with a length, or a range. -/
def IsSlice : Subscript → Prop
  | .slice _ n => 0 ≤ n.toInt
  | .range .. => True
  | .index _ => False

/-- The elements in front of the slice, behind which nil fills up to it, the
replacement, and the elements behind the slice. -/
def splice (xs : List Value) (sub : Subscript) (rs : List Value) : List Value :=
  let first := (sub.first xs.length).toNat
  (xs ++ List.replicate (first - xs.length) Value.nil).take first ++ rs ++
    xs.drop (max (sub.first xs.length) (sub.last xs.length)).toNat

end Subscript

/-- One element is set, behind as many nils as it takes. -/
def list.stored (xs : List Value) (i : Nat) (v : Value) : List Value :=
  (xs ++ List.replicate (i + 1 - xs.length) Value.nil).set i v

/-- An assignment leaves the array spliced, and raises where the slice begins in
front of the array. -/
def AssignsSlice (route : Route) (lists : List Held) (r : Ref) (xs : List Value) (sub : Subscript) (src : Ref)
    (rs : List Value) : Prop :=
  ∃ e, ComesTo (fun fuel => route.assign fuel r (sub.args ++ [.array src])) lists r e ∧
    if 0 ≤ sub.first xs.length then e.elems = sub.splice xs rs
    else e.elems = xs ∧ ∃ klass message, ∀ made, e.reply made = .raised klass message

/-- Where it does: the slice begins inside the array or right behind it, is not
reversed and ends within 64 bits, and the shortcut's buffer takes the replacement.
The shortcut takes every range for index 0, so there the slice has to call for the
replacement array itself in front of the other elements; dispatch_array takes a
length for the value, so there it has to call for that Integer at its start. -/
def Spliced (route : Route) (xs : List Value) (sub : Subscript) (src : Ref) (rs : List Value) : Prop :=
  0 ≤ sub.first xs.length ∧
    match route, sub with
    | .shortcut, .slice .. => sub.first xs.length ≤ xs.length ∧ rs.length ≤ 64 ∧ sub.last xs.length < 2 ^ 63
    | .dispatched, .range .. =>
      sub.first xs.length ≤ xs.length ∧ sub.first xs.length ≤ sub.last xs.length ∧ sub.last xs.length < 2 ^ 63
    | .shortcut, .range .. => sub.splice xs rs = .array src :: xs.tail
    | .dispatched, .slice _ n =>
      rs ++ xs.drop (sub.last xs.length).toNat = .int n :: xs.drop ((sub.first xs.length).toNat + 1)
    | _, .index _ => False

section
variable {lists : List Held} {r src newarr : Ref} {h d : Held} {m m' : Memory} {i n : Nat} {v : Value}
  {xs ys rs : List Value} {e : Effect} {method : Nat → Run Reply}

/-! ### Runs -/

theorem not_comes_to_of_error (reason : Stop) (bound : Nat)
    (hrun : ∀ fuel, bound ≤ fuel → method fuel (tight lists) = .error reason) : ¬ ComesTo method lists r e := by
  rintro ⟨enough, hcomes⟩
  obtain ⟨m', hm', -⟩ := hcomes (max bound enough) (by omega) _ (holds_tight lists)
  rw [hrun _ (by omega)] at hm'
  cases hm'

/-- A method that stops with a value leaves the array spliced where it is so. -/
theorem assigns_slice_iff {route : Route} {sub : Subscript} (hr : lists[r]? = some h)
    (hrun : ComesTo (fun fuel => route.assign fuel r (sub.args ++ [.array src])) lists r e)
    (hvalue : e.reply lists.length = .value v) :
    AssignsSlice route lists r h.elems sub src rs ↔
      0 ≤ sub.first h.elems.length ∧ e.elems = sub.splice h.elems rs := by
  constructor
  · rintro ⟨e', hrun', hassigns⟩
    split at hassigns
    case isTrue hfirst => exact ⟨hfirst, (hrun.elems_eq hr hrun').trans hassigns⟩
    case isFalse =>
      obtain ⟨-, klass, message, hraised⟩ := hassigns
      have hreply := (hrun.unique hrun').1
      rw [hvalue, hraised] at hreply
      cases hreply
  · rintro ⟨hfirst, helems⟩
    exact ⟨e, hrun, by rwa [if_pos hfirst]⟩

/-! ### One element -/

/-- The elements in front of an index, the element and those behind it. -/
theorem stored_eq (xs : List Value) (i : Nat) (v : Value) :
    list.stored xs i v = (xs ++ List.replicate (i - xs.length) Value.nil).take i ++ v :: xs.drop (i + 1) := by
  have hlt : i < (xs ++ List.replicate (i + 1 - xs.length) Value.nil).length := by
    rw [List.length_append, List.length_replicate]
    omega
  rw [list.stored, List.set_eq_take_append_cons_drop, if_pos hlt]
  have hbefore : (xs ++ List.replicate (i + 1 - xs.length) Value.nil).take i =
      (xs ++ List.replicate (i - xs.length) Value.nil).take i := by
    simp only [List.take_append, List.take_replicate]
    congr 2
    omega
  have hbehind : (xs ++ List.replicate (i + 1 - xs.length) Value.nil).drop (i + 1) = xs.drop (i + 1) := by
    have hnone : i + 1 - xs.length - (i + 1 - xs.length) = 0 := Nat.sub_self _
    rw [List.drop_append, List.drop_replicate, hnone, List.replicate_zero, List.append_nil]
  rw [hbefore, hbehind]

theorem stored_zero (xs : List Value) (v : Value) : list.stored xs 0 v = v :: xs.tail := by
  rw [stored_eq, Nat.zero_sub, List.replicate_zero, List.take_zero, List.nil_append, List.drop_one]

/-- The array is padded up to an index. -/
theorem extend_to_ok (idx fuel : Nat) (hm : Holds m lists) (hr : lists[r]? = some h)
    (hfuel : idx + 1 - h.elems.length < fuel) :
    ∃ m', extend_to r idx fuel m = .ok ((), m') ∧
      Holds m' (changed lists r (h.elems ++ List.replicate (idx + 1 - h.elems.length) .nil)) := by
  induction fuel generalizing m lists h with
  | zero => omega
  | succ fuel ih =>
    rw [extend_to, bind_ok (len_ok hm hr)]
    split
    · rename_i hle
      obtain ⟨m₁, hpush, hm₁⟩ := push_ok (v := .nil) hm hr
      obtain ⟨m₂, hrest, hm₂⟩ := ih hm₁ (changed_get hr)
        (by simp only [List.length_append, List.length_singleton]; omega)
      rw [bind_ok hpush]
      refine ⟨m₂, hrest, ?_⟩
      have hone : idx + 1 - h.elems.length = idx + 1 - (h.elems ++ [Value.nil]).length + 1 := by
        simp only [List.length_append, List.length_singleton]
        omega
      rw [changed_changed] at hm₂
      rw [hone, List.replicate_succ]
      simpa using hm₂
    · rename_i hlt
      refine ⟨m, rfl, ?_⟩
      have hnone : idx + 1 - h.elems.length = 0 := by omega
      rw [hnone, List.replicate_zero, List.append_nil, changed_same hr]
      exact hm

theorem assign_index_comes_to (hr : lists[r]? = some h) (hsmall : h.elems.length < 2 ^ 60) (idx : Int64) {p : Int}
    (hp : position idx.toInt h.elems.length = p) (value : Value) :
    ComesTo (fun fuel => assign_index fuel r idx value) lists r
      (answers (if 0 ≤ p then list.stored h.elems p.toNat value else h.elems) (.value value)) := by
  let i : Int64 := if idx < 0 then .ofNat h.elems.length + idx else idx
  have hi : i.toInt = p := by
    simp only [i, Int64.add_comm, ← hp]
    exact toInt_position (by omega) idx
  refine comes_to_answer (p.toNat + 2) fun fuel hfuel m hm => ?_
  have hexpand : assign_index fuel r idx value m =
      (if i < 0 then return .value value
      else do
        extend_to r i.toInt.toNat fuel
        write r i.toInt.toNat value
        return .value value : Run Reply) m := by
    rw [assign_index, bind_ok (len_ok hm hr)]
  rw [hexpand, hi]
  simp only [lt_zero_iff, hi]
  by_cases hpos : 0 ≤ p
  · rw [if_neg (by omega), if_pos hpos]
    obtain ⟨m₁, hextend, hm₁⟩ := extend_to_ok p.toNat fuel hm hr (by omega)
    obtain ⟨m₂, hwrite, hm₂⟩ := write_ok (v := value) (i := p.toNat) hm₁ (changed_get hr)
      (by simp only [List.length_append, List.length_replicate]; omega)
    rw [changed_changed] at hm₂
    refine ⟨m₂, ?_, hm₂⟩
    rw [bind_ok hextend, bind_ok hwrite]
    rfl
  · rw [if_pos (by omega), if_neg hpos, changed_same hr]
    exact ⟨m, rfl, hm⟩

/-! ### A start and a length in the shortcut -/

theorem replaced_count_spec (n : Nat) :
    replaced_count n ≤ n ∧ replaced_count n ≤ 64 ∧ (n ≤ 64 → replaced_count n = n) := by
  have hvalue : (Int32.ofNat n).toInt = (n : Int).bmod (2 ^ 32) := Int32.toInt_ofNat
  have hlimit : Int32.ofNat n < 64 ↔ (n : Int).bmod (2 ^ 32) < 64 := by
    rw [Int32.lt_iff_toInt_lt, hvalue]
    rfl
  rw [replaced_count, hvalue]
  simp only [hlimit, Int.bmod_eq_emod]
  split_ifs <;> omega

theorem read_all_ok (hm : Holds m lists) (hsrc : lists[src]? = some d) {k : Nat} (hk : k ≤ d.elems.length) :
    replacement.read_all src k m = .ok (d.elems.take k, m) := by
  induction k with
  | zero => rfl
  | succ k ih =>
    rw [replacement.read_all, bind_ok (ih (Nat.le_of_succ_le hk)), bind_ok (read_ok hm hsrc hk),
      List.take_succ_eq_append_getElem hk]
    rfl

theorem replacement_ok (hm : Holds m lists) (hsrc : lists[src]? = some d) :
    replacement (.array src) m = .ok (d.elems.take (replaced_count d.elems.length), m) := by
  rw [replacement, bind_ok (len_ok hm hsrc)]
  exact read_all_ok hm hsrc (replaced_count_spec _).1

/-- The buffer of an array is being filled with the elements of another one. -/
structure Filling (m : Memory) (lists : List Held) (r : Ref) (ys : List Value) (i : Nat) : Prop where
  lt : r < m.length
  len : m[r].buffer.len = ys.length
  room : ys.length ≤ m[r].buffer.cap
  filled : m[r].buffer.cells.take i = (ys.take i).map some
  /-- all will be well once it is filled -/
  others : ∀ buffer : Buffer Value, buffer.Holds ys →
    Holds (m.set r { buffer, frozen := m[r].frozen }) (changed lists r ys)

theorem read_of_cell {c : Cell} (hget : m[src]? = some c) (hholds : c.buffer.Holds xs) (hi : i < xs.length) :
    read src i m = .ok (xs[i], m) := by
  have hcell : cell src m = .ok (c, m) := by simp [cell, hget]
  rw [read, bind_ok hcell, hholds.read hi]
  rfl

/-- The other arrays are as they were. -/
theorem Filling.other (h : Filling m lists r ys i) (hne : newarr ≠ r) (hnew : lists[newarr]? = some d) :
    ∃ c, m[newarr]? = some c ∧ c.buffer.Holds d.elems := by
  have hheld := h.others { cells := ys.map some, len := ys.length } ⟨rfl, [], (List.append_nil _).symm⟩
  obtain ⟨c, hcell, hholds, -⟩ := cell_ok hheld ((changed_get_ne hne).trans hnew)
  refine ⟨c, ?_, hholds⟩
  rw [cell, List.getElem?_set_ne hne.symm] at hcell
  split at hcell
  · rename_i hget
    cases hcell
    exact hget
  · cases hcell

theorem Filling.write (h : Filling m lists r ys i) (hi : i < ys.length) :
    ∃ m', write r i ys[i] m = .ok ((), m') ∧ Filling m' lists r ys (i + 1) := by
  obtain ⟨hlt, hlen, hroom, hfilled, hothers⟩ := h
  have hcap : i < m[r].buffer.cells.length := hi.trans_le hroom
  refine ⟨m.set r { buffer := { m[r].buffer with cells := m[r].buffer.cells.set i (some ys[i]) }, frozen := m[r].frozen },
    ?_, ?_⟩
  · have hchange : m[r].buffer.write i ys[i] =
        some { m[r].buffer with cells := m[r].buffer.cells.set i (some ys[i]) } := if_pos hcap
    simp only [arrays.write, update, List.getElem?_eq_getElem hlt, hchange]
  · refine ⟨by simpa using hlt, by simpa using hlen, by simpa [Buffer.cap] using hroom, ?_, ?_⟩
    · rw [List.getElem_set_self, List.take_succ_eq_append_getElem (by simpa using hcap), List.take_set_of_le (Nat.le_refl i),
        hfilled, List.getElem_set_self, List.take_succ_eq_append_getElem hi, List.map_append]
      rfl
    · intro buffer hbuffer
      rw [List.set_set, List.getElem_set_self]
      exact hothers buffer hbuffer

theorem copy_back_ok (fuel : Nat) (hne : newarr ≠ r) (hnew : lists[newarr]? = some d)
    (hfilling : Filling m lists r d.elems i) (hi : i ≤ d.elems.length) (hfuel : d.elems.length - i < fuel) :
    ∃ m', copy_back r newarr d.elems.length fuel i m = .ok ((), m') ∧ Holds m' (changed lists r d.elems) := by
  induction fuel generalizing m i with
  | zero => omega
  | succ fuel ih =>
    rw [copy_back]
    split
    · rename_i hgoes
      obtain ⟨c, hget, hholds⟩ := hfilling.other hne hnew
      obtain ⟨m₁, hwrite, hfilling₁⟩ := hfilling.write hgoes
      rw [bind_ok (read_of_cell hget hholds hgoes), bind_ok hwrite]
      exact ih hfilling₁ hgoes (by omega)
    · have hall : i = d.elems.length := by omega
      refine ⟨m, rfl, ?_⟩
      obtain ⟨hlt, hlen, hroom, hfilled, hothers⟩ := hfilling
      have hholds : m[r].buffer.Holds d.elems := by
        refine ⟨hlen, m[r].buffer.cells.drop i, ?_⟩
        rw [hall, List.take_length] at hfilled
        rw [← hfilled, ← hall, List.take_append_drop]
      have hdone := hothers _ hholds
      rwa [List.set_getElem_self] at hdone

/-- The elements of the new array become those of the receiver. -/
theorem take_over_ok (fuel : Nat) (hm : Holds m lists) (hr : lists[r]? = some h) (hne : newarr ≠ r)
    (hnew : lists[newarr]? = some d) (hfuel : d.elems.length < fuel) :
    ∃ m', take_over fuel r newarr m = .ok ((), m') ∧ Holds m' (changed lists r d.elems) := by
  obtain ⟨hlt, -⟩ := List.getElem?_eq_some_iff.mp hr
  have hlt' : r < m.length := hm.length_eq ▸ hlt
  let m₁ := m.set r { buffer := m[r].buffer.with_len d.elems.length, frozen := m[r].frozen }
  have hset : set_len r d.elems.length m = .ok ((), m₁) := by
    simp only [set_len, update, List.getElem?_eq_getElem hlt']
    rfl
  have hlt₁ : r < m₁.length := by simpa [m₁] using hlt'
  have hothers : ∀ buffer : Buffer Value, buffer.Holds d.elems →
      Holds (m.set r { buffer, frozen := m[r].frozen }) (changed lists r d.elems) := by
    intro buffer hbuffer
    have hreplace : ∀ b : Buffer Value, b.Holds h.elems → ∃ b', some buffer = some b' ∧ b'.Holds d.elems :=
      fun _ _ => ⟨buffer, rfl, hbuffer⟩
    obtain ⟨m', hupdate, hm'⟩ := update_ok hm hr hreplace
    simp only [update, List.getElem?_eq_getElem hlt'] at hupdate
    cases hupdate
    exact hm'
  have hget₁ : m₁[r] = { buffer := m[r].buffer.with_len d.elems.length, frozen := m[r].frozen } :=
    List.getElem_set_self _
  have hcell : cell r m₁ = .ok (m₁[r], m₁) := by simp [cell, hlt₁]
  obtain ⟨c, hcell', hholds, -⟩ := cell_ok hm hnew
  have hnew₁ : cell newarr m₁ = .ok (c, m₁) := by
    rw [cell] at hcell' ⊢
    rw [List.getElem?_set_ne hne.symm]
    split at hcell'
    · rename_i hget
      cases hcell'
      rw [hget]
    · cases hcell'
  rw [take_over, bind_ok (len_ok hm hnew), bind_ok hset, bind_ok hcell, bind_ok hnew₁]
  split
  · -- the buffer of the new array is taken over
    refine ⟨m₁.set r { buffer := c.buffer, frozen := m₁[r].frozen }, ?_, ?_⟩
    · simp only [update, List.getElem?_eq_getElem hlt₁]
    · rw [hget₁, List.set_set]
      exact hothers c.buffer hholds
  · rename_i hroom
    refine copy_back_ok fuel hne hnew ⟨hlt₁, ?_, ?_, rfl, ?_⟩ (Nat.zero_le _) (by omega)
    · rw [hget₁]
      rfl
    · omega
    · intro buffer hbuffer
      rw [hget₁, List.set_set]
      exact hothers buffer hbuffer

/-- What the shortcut leaves of an array. -/
def shortened (xs : List Value) (p n : Nat) (rs : List Value) : List Value :=
  xs.take p ++ rs.take (replaced_count rs.length) ++ xs.drop (p + n)

/-- The elements in front of the slice and the replacement go to a new array. -/
theorem spliced_front (fuel : Nat) (lo : Int64) {middle : Run Unit} (hm : Holds m lists) (hr : lists[r]? = some h)
    (hsmall : h.elems.length < 2 ^ 60) (hlo : lo.toInt ≤ h.elems.length)
    (hmiddle : ∀ m ys, Holds m (lists ++ [{ elems := ys, frozen := false }]) →
      ∃ m', middle m = .ok ((), m') ∧ Holds m' (lists ++ [{ elems := ys ++ rs, frozen := false }]))
    (hfuel : h.elems.length < fuel) :
    ∃ m₁ m₂ m₃, val_array_new m = .ok (lists.length, m₁) ∧ copy_each lists.length r lo fuel 0 m₁ = .ok ((), m₂) ∧
      middle m₂ = .ok ((), m₃) ∧ Holds m₃ (lists ++ [{ elems := h.elems.take lo.toInt.toNat ++ rs, frozen := false }]) := by
  obtain ⟨m₁, hnew, hm₁⟩ := new_ok hm
  obtain ⟨hmade₁, hr₁⟩ := new_held hr []
  obtain ⟨m₂, hfirst, hm₂⟩ :=
    slice_each_ok fuel lo 0 (lt_of_get hr).ne hm₁ hmade₁ hr₁ hsmall (Int.le_refl 0) hlo (by omega)
  have hzero : (Int64.toInt 0).toNat = 0 := rfl
  rw [changed_new, List.nil_append, hzero, List.drop_zero, Nat.sub_zero] at hm₂
  obtain ⟨m₃, hpush, hm₃⟩ := hmiddle m₂ _ hm₂
  exact ⟨m₁, m₂, m₃, hnew, by rwa [copy_each_eq lists.length r lo fuel (i := 0) (Int.le_refl 0)], hpush, hm₃⟩

/-- The elements behind the slice follow. -/
theorem spliced_behind (fuel : Nat) (hi : Int64) {top : Int64} (hr : lists[r]? = some h) (hsmall : h.elems.length < 2 ^ 60)
    (hhi : 0 ≤ hi.toInt) (htop : top.toInt = h.elems.length) (hm : Holds m (lists ++ [{ elems := ys, frozen := false }]))
    (hfuel : h.elems.length < fuel) :
    ∃ m', copy_each lists.length r top fuel hi m = .ok ((), m') ∧
      Holds m' (lists ++ [{ elems := ys ++ h.elems.drop hi.toInt.toNat, frozen := false }]) := by
  obtain ⟨hmade, hr'⟩ := new_held hr ys
  obtain ⟨m', hlast, hm'⟩ :=
    slice_each_ok fuel top hi (lt_of_get hr).ne hm hmade hr' hsmall hhi (by omega) (by omega)
  have hrest : (h.elems.drop hi.toInt.toNat).take (top.toInt.toNat - hi.toInt.toNat) = h.elems.drop hi.toInt.toNat := by
    refine List.take_of_length_le ?_
    rw [List.length_drop]
    omega
  refine ⟨m', by rwa [copy_each_eq _ _ _ _ hhi], ?_⟩
  rwa [changed_new, hrest] at hm'

/-- Reading in front of the buffer. -/
theorem copy_each_fault {dst : Ref} {top lo : Int64} (hneg : lo.toInt < 0) (htop : lo.toInt < top.toInt) {fuel : Nat}
    (hfuel : 0 < fuel) : copy_each dst r top fuel lo m = .error .fault := by
  obtain ⟨fuel, rfl⟩ := Nat.exists_eq_add_of_lt hfuel
  rw [Nat.zero_add, copy_each, if_pos (Int64.lt_iff_toInt_lt.mpr htop), read_at, if_pos ((lt_zero_iff lo).mpr hneg)]
  rfl

variable (src) in
/-- The shortcut with the start and the length it works with. -/
theorem assign_slice_eq (fuel : Nat) (start count : Int64) {p : Int} (hm : Holds m lists) (hr : lists[r]? = some h)
    (hsmall : h.elems.length < 2 ^ 60) (hp : position start.toInt h.elems.length = p) (hcount : 0 ≤ count.toInt) :
    ∃ lo inside : Int64, lo.toInt = max 0 p ∧ inside.toInt = min (max 0 p) (h.elems.length : Int) ∧
      assign_slice fuel r (.int start) count (.array src) m =
        (do
          let rep_elems ← replacement (.array src)
          let newarr ← val_array_new
          copy_each newarr r inside fuel 0
          push_all newarr rep_elems
          copy_each newarr r (.ofNat h.elems.length) fuel (lo + count)
          take_over fuel r newarr
          return .value (.array src) : Run Reply) m := by
  have hsize : (Int64.ofNat h.elems.length).toInt = h.elems.length := toInt_ofNat (by omega)
  let first : Int64 := if start < 0 then start + .ofNat h.elems.length else start
  have hfirst : first.toInt = p := (toInt_position (by omega) start).trans hp
  let lo : Int64 := if first < 0 then 0 else first
  have hlo : lo.toInt = max 0 p := (toInt_clamp_low first).trans (congrArg (max 0) hfirst)
  let inside : Int64 := if lo < .ofNat h.elems.length then lo else .ofNat h.elems.length
  have hinside : inside.toInt = min (max 0 p) (h.elems.length : Int) := by
    simp only [inside, Int64.lt_iff_toInt_lt, hlo, hsize]
    split <;> omega
  have hcount' : (if count < 0 then 0 else count) = count := if_neg (by rw [lt_zero_iff]; omega)
  refine ⟨lo, inside, hlo, hinside, ?_⟩
  rw [assign_slice, bind_ok (len_ok hm hr), hcount']
  rfl

theorem pushed_behind (hr : lists[r]? = some h) (rs : List Value) (m : Memory) (ys : List Value)
    (hm : Holds m (lists ++ [{ elems := ys, frozen := false }])) :
    ∃ m', push_all lists.length rs m = .ok ((), m') ∧ Holds m' (lists ++ [{ elems := ys ++ rs, frozen := false }]) := by
  obtain ⟨m', hrun, hm'⟩ := push_all_ok rs hm (new_held hr ys).1
  exact ⟨m', hrun, by rwa [changed_new] at hm'⟩

theorem assign_slice_comes_to (hr : lists[r]? = some h) (hsmall : h.elems.length < 2 ^ 60)
    (hsrc : lists[src]? = some d) (start count : Int64) {p : Int} (hp : position start.toInt h.elems.length = p)
    (hcount : 0 ≤ count.toInt) (hfits : max 0 p + count.toInt < 2 ^ 63) :
    ComesTo (fun fuel => assign_slice fuel r (.int start) count (.array src)) lists r
      { elems := shortened h.elems (max 0 p).toNat count.toInt.toNat d.elems
        made := some (shortened h.elems (max 0 p).toNat count.toInt.toNat d.elems)
        reply := fun _ => .value (.array src) } := by
  have hsize : (Int64.ofNat h.elems.length).toInt = h.elems.length := toInt_ofNat (by omega)
  let ys := shortened h.elems (max 0 p).toNat count.toInt.toNat d.elems
  refine ⟨max (h.elems.length + 1) (ys.length + 1), fun fuel hfuel m hm => ?_⟩
  obtain ⟨lo, inside, hlo, hinside, hrun⟩ := assign_slice_eq src fuel start count hm hr hsmall hp hcount
  have hhi : (lo + count).toInt = max 0 p + count.toInt := by
    rw [toInt_add (by rw [hlo]; constructor <;> omega), hlo]
  obtain ⟨m₁, m₂, m₃, hnew, hbefore, hpush, hm₃⟩ :=
    spliced_front fuel inside hm hr hsmall (by omega) (pushed_behind hr _) (by omega)
  obtain ⟨m₄, hbehind, hm₄⟩ := spliced_behind fuel (lo + count) hr hsmall (by omega) hsize hm₃ (by omega)
  have hparts : h.elems.take inside.toInt.toNat ++ d.elems.take (replaced_count d.elems.length) ++
      h.elems.drop (lo + count).toInt.toNat = ys := by
    have htake : h.elems.take inside.toInt.toNat = h.elems.take (max 0 p).toNat := by
      rw [hinside]
      refine List.take_eq_take_iff.mpr ?_
      omega
    have hsum : (lo + count).toInt.toNat = (max 0 p).toNat + count.toInt.toNat := by omega
    rw [htake, hsum]
    rfl
  rw [hparts] at hm₄
  obtain ⟨hmade, hr₄⟩ := new_held hr ys
  obtain ⟨m₅, htake, hm₅⟩ := take_over_ok fuel hm₄ hr₄ (lt_of_get hr).ne' hmade (show ys.length < fuel by omega)
  refine ⟨m₅, ?_, ?_⟩
  · refine hrun.trans ?_
    rw [bind_ok (replacement_ok hm hsrc), bind_ok hnew, bind_ok hbefore, bind_ok hpush, bind_ok hbehind, bind_ok htake]
    rfl
  · rwa [changed_append (lt_of_get hr)] at hm₅

/-- A slice whose end overflows. -/
theorem assign_slice_fault (hr : lists[r]? = some h) (hsmall : h.elems.length < 2 ^ 60) (hsrc : lists[src]? = some d)
    (start count : Int64) {p : Int} (hp : position start.toInt h.elems.length = p) (hcount : 0 ≤ count.toInt)
    (hfits : 2 ^ 63 ≤ max 0 p + count.toInt) (fuel : Nat) (hfuel : h.elems.length < fuel) :
    assign_slice fuel r (.int start) count (.array src) (tight lists) = .error .fault := by
  have hm := holds_tight lists
  have hsize : (Int64.ofNat h.elems.length).toInt = h.elems.length := toInt_ofNat (by omega)
  obtain ⟨lo, inside, hlo, hinside, hrun⟩ := assign_slice_eq src fuel start count hm hr hsmall hp hcount
  have hbounds := toInt_bounds lo
  have hbounds' := toInt_bounds count
  have hneg : (lo + count).toInt < 0 := by
    rw [Int64.toInt_add, hlo, Int.bmod_eq_emod]
    split <;> omega
  obtain ⟨m₁, m₂, m₃, hnew, hbefore, hpush, -⟩ :=
    spliced_front fuel inside hm hr hsmall (by omega)
      (pushed_behind hr (d.elems.take (replaced_count d.elems.length))) hfuel
  rw [hrun, bind_ok (replacement_ok hm hsrc), bind_ok hnew, bind_ok hbefore, bind_ok hpush]
  exact bind_error (copy_each_fault hneg (by omega) (by omega))

/-- What the shortcut leaves is what the slice calls for. -/
theorem shortened_eq_iff (xs rs : List Value) (p n : Nat) :
    shortened xs p n rs = (xs ++ List.replicate (p - xs.length) Value.nil).take p ++ rs ++ xs.drop (p + n) ↔
      p ≤ xs.length ∧ rs.length ≤ 64 := by
  have hcount := replaced_count_spec rs.length
  constructor
  · intro hsame
    have hlength := congrArg List.length hsame
    simp only [shortened, List.length_append, List.length_take, List.length_drop, List.length_replicate] at hlength
    omega
  · rintro ⟨hp, hrs⟩
    rw [shortened, hcount.2.2 hrs, List.take_length, Nat.sub_eq_zero_of_le hp, List.replicate_zero, List.append_nil]

theorem shortcut_slice_iff (hr : lists[r]? = some h) (hf : h.frozen = false) (hsmall : h.elems.length < 2 ^ 60)
    (hsrc : lists[src]? = some d) (start count : Int64) (hcount : 0 ≤ count.toInt) :
    AssignsSlice .shortcut lists r h.elems (.slice start count) src d.elems ↔
      Spliced .shortcut h.elems (.slice start count) src d.elems := by
  obtain ⟨p, hp⟩ : ∃ p, position start.toInt h.elems.length = p := ⟨_, rfl⟩
  have hspliced : Spliced .shortcut h.elems (.slice start count) src d.elems ↔
      0 ≤ p ∧ p ≤ h.elems.length ∧ d.elems.length ≤ 64 ∧ p + count.toInt < 2 ^ 63 := by
    rw [← hp]
    rfl
  have hrun : ∀ fuel m, Holds m lists →
      Route.shortcut.assign fuel r ((Subscript.slice start count).args ++ [.array src]) m =
        assign_slice fuel r (.int start) count (.array src) m := by
    intro fuel m hm
    exact unless_frozen_ok hm hr hf
  rw [hspliced]
  by_cases hfits : max 0 p + count.toInt < 2 ^ 63
  · have hcomes := (assign_slice_comes_to hr hsmall hsrc start count hp hcount hfits).congr hrun
    rw [assigns_slice_iff hr hcomes rfl]
    have hfirst : (Subscript.slice start count).first h.elems.length = p := hp
    rw [hfirst]
    refine and_congr_right fun hpos => ?_
    have hsplice : (Subscript.slice start count).splice h.elems d.elems =
        (h.elems ++ List.replicate (p.toNat - h.elems.length) Value.nil).take p.toNat ++ d.elems ++
          h.elems.drop (p.toNat + count.toInt.toNat) := by
      have hlast : (Subscript.slice start count).last h.elems.length = p + count.toInt := by
        rw [← hp]
        rfl
      have hend : (max p (p + count.toInt)).toNat = p.toNat + count.toInt.toNat := by omega
      rw [Subscript.splice, hfirst, hlast, hend]
    rw [hsplice, max_eq_right hpos, shortened_eq_iff]
    omega
  · refine iff_of_false ?_ (by omega)
    rintro ⟨e, hcomes, -⟩
    refine not_comes_to_of_error .fault (h.elems.length + 1) (fun fuel hfuel => ?_) hcomes
    rw [hrun fuel _ (holds_tight lists)]
    exact assign_slice_fault hr hsmall hsrc start count hp hcount (by omega) fuel hfuel

/-! ### The other ways -/

/-- The shortcut takes a range for index 0. -/
theorem shortcut_range_iff (hr : lists[r]? = some h) (hf : h.frozen = false) (hsmall : h.elems.length < 2 ^ 60)
    (first last : Option Int64) (exclusive : Bool) :
    AssignsSlice .shortcut lists r h.elems (.range first last exclusive) src rs ↔
      Spliced .shortcut h.elems (.range first last exclusive) src rs := by
  have hcomes : ComesTo (fun fuel =>
      Route.shortcut.assign fuel r ((Subscript.range first last exclusive).args ++ [.array src])) lists r
        (answers (list.stored h.elems 0 (.array src)) (.value (.array src))) :=
    (assign_index_comes_to hr hsmall 0 rfl _).congr fun _ _ hm => unless_frozen_ok hm hr hf
  rw [assigns_slice_iff hr hcomes rfl]
  refine and_congr_right fun _ => ?_
  rw [answers, stored_zero]
  exact eq_comm

/-- dispatch_array takes a length for the value. -/
theorem dispatched_slice_iff (hr : lists[r]? = some h) (hf : h.frozen = false) (hsmall : h.elems.length < 2 ^ 60)
    (start count : Int64) (hcount : 0 ≤ count.toInt) :
    AssignsSlice .dispatched lists r h.elems (.slice start count) src rs ↔
      Spliced .dispatched h.elems (.slice start count) src rs := by
  obtain ⟨p, hp⟩ : ∃ p, position start.toInt h.elems.length = p := ⟨_, rfl⟩
  have hcomes : ComesTo (fun fuel =>
      Route.dispatched.assign fuel r ((Subscript.slice start count).args ++ [.array src])) lists r
        (answers (if 0 ≤ p then list.stored h.elems p.toNat (.int count) else h.elems) (.value (.int count))) :=
    (assign_index_comes_to hr hsmall start hp _).congr fun _ _ hm => unless_frozen_ok hm hr hf
  have hfirst : (Subscript.slice start count).first h.elems.length = p := hp
  have hlast : (Subscript.slice start count).last h.elems.length = p + count.toInt := by
    rw [← hp]
    rfl
  rw [assigns_slice_iff hr hcomes rfl, Spliced, hfirst]
  refine and_congr_right fun hpos => ?_
  have hend : max p (p + count.toInt) = p + count.toInt := by omega
  rw [answers, if_pos hpos, stored_eq, Subscript.splice, hfirst, hlast, hend, List.append_assoc,
    List.append_cancel_left_eq]
  exact eq_comm

/-- The integer of a value, another one where it is none. -/
def int_or (i : Int64) : Value → Int64
  | .int i => i
  | _ => i

variable (src) in
/-- dispatch_array with the first and the last index it works with. -/
theorem assign_range_eq (fuel : Nat) {first last : Option Int64} {exclusive : Bool} (hm : Holds m lists)
    (hr : lists[r]? = some h) (hsmall : h.elems.length < 2 ^ 60) :
    ∃ lo hi : Int64, lo.toInt = max 0 ((Subscript.range first last exclusive).first h.elems.length) ∧
      hi.toInt = min (h.elems.length : Int) (wrapped ((Subscript.range first last exclusive).last h.elems.length)) ∧
      assign_range fuel r (first.elim .nil .int) (last.elim .nil .int) exclusive (.array src) m =
        (do
          let result ← val_array_new
          copy_each result r lo fuel 0
          push_while (len src) result src fuel 0
          copy_each result r (.ofNat h.elems.length) fuel hi
          set_len r 0
          push_while (len result) r result fuel 0
          return .value (.array src) : Run Reply) m := by
  have hsize : (Int64.ofNat h.elems.length).toInt = h.elems.length := toInt_ofNat (by omega)
  have hfirst : (let lo := int_or_zero (first.elim .nil .int)
      if lo < 0 then lo + .ofNat h.elems.length else lo).toInt =
        (Subscript.range first last exclusive).first h.elems.length := by
    cases first with
    | none => rfl
    | some i => exact toInt_first (by omega) i
  obtain ⟨hi, hrun, hhi⟩ : ∃ hi : Int64,
      (let hi := int_or (.ofNat h.elems.length) (last.elim Value.nil Value.int)
        let hi := if hi < 0 then hi + .ofNat h.elems.length else hi
        if exclusive then hi else hi + 1) = hi ∧
      min (h.elems.length : Int) hi.toInt =
        min (h.elems.length : Int) (wrapped ((Subscript.range first last exclusive).last h.elems.length)) := by
    refine ⟨_, rfl, ?_⟩
    cases last with
    | some j => exact congrArg (min _) (toInt_last hsmall j exclusive)
    | none =>
      have hinside : (if Int64.ofNat h.elems.length < 0 then
          Int64.ofNat h.elems.length + .ofNat h.elems.length else .ofNat h.elems.length) =
            Int64.ofNat h.elems.length := by
        refine if_neg ?_
        rw [lt_zero_iff, hsize]
        omega
      have hone : (1 : Int64).toInt = 1 := rfl
      have hplain : wrapped (h.elems.length : Int) = h.elems.length := if_neg (by omega)
      cases exclusive with
      | true =>
        change min _ (if Int64.ofNat h.elems.length < 0 then
          Int64.ofNat h.elems.length + .ofNat h.elems.length else .ofNat h.elems.length).toInt =
            min _ (wrapped (h.elems.length : Int))
        rw [hinside, hsize, hplain]
      | false =>
        change min _ ((if Int64.ofNat h.elems.length < 0 then
          Int64.ofNat h.elems.length + .ofNat h.elems.length else .ofNat h.elems.length) + 1).toInt =
            min _ (wrapped (h.elems.length : Int))
        rw [hinside, toInt_add (by rw [hsize, hone]; constructor <;> omega), hsize, hone, hplain]
        omega
  refine ⟨_, if .ofNat h.elems.length < hi then .ofNat h.elems.length else hi,
    (toInt_clamp_low _).trans (congrArg (max 0) hfirst), (toInt_clamp_high hsmall hi).trans hhi, ?_⟩
  rw [assign_range, bind_ok (len_ok hm hr), ← hrun]
  exact (bind_ok (pure_ok src)).trans rfl

theorem update_outcome (dst : Ref) (change : Buffer Value → Option (Buffer Value)) (m : Memory) :
    update dst change m = .error .fault ∨
      ∃ m', update dst change m = .ok ((), m') ∧ ∀ r, r ≠ dst → m'[r]? = m[r]? := by
  rw [update]
  split
  · split
    · exact .inr ⟨_, rfl, fun r hne => List.getElem?_set_ne hne.symm⟩
    · exact .inl rfl
  · exact .inl rfl

/-- Reading behind the buffer. -/
theorem copy_each_beyond (fuel : Nat) {dst : Ref} {c : Cell} {lo i : Int64} (hne : r ≠ dst) (hget : m[r]? = some c)
    (hpos : 0 ≤ i.toInt) (hi : i.toInt ≤ c.buffer.cap) (hlo : c.buffer.cap < lo.toInt)
    (hfuel : c.buffer.cap - i.toInt.toNat < fuel) : copy_each dst r lo fuel i m = .error .fault := by
  induction fuel generalizing m i with
  | zero => omega
  | succ fuel ih =>
    have hlt : i.toInt < lo.toInt := by omega
    have hcell : cell r m = .ok (c, m) := by simp [cell, hget]
    rw [copy_each, if_pos (Int64.lt_iff_toInt_lt.mpr hlt), read_at, if_neg (by rw [lt_zero_iff]; omega)]
    cases hread : c.buffer.read i.toInt.toNat with
    | none =>
      refine bind_error ?_
      rw [read, bind_ok hcell, hread]
      rfl
    | some v =>
      have hinside : i.toInt.toNat < c.buffer.cap := by
        by_contra hbeyond
        rw [Buffer.read, List.getElem?_eq_none (Nat.not_lt.mp hbeyond)] at hread
        cases hread
      have hok : read r i.toInt.toNat m = .ok (v, m) := by
        rw [read, bind_ok hcell, hread]
        rfl
      rw [bind_ok hok]
      obtain hfault | ⟨m', hpush, hsame⟩ := update_outcome dst (fun b => b.push v) m
      · exact bind_error hfault
      · have hsucc := toInt_succ hlt
        rw [val_array_push, bind_ok hpush]
        exact ih ((hsame r hne).trans hget) (by omega) (by omega) (by omega)

theorem pushed_behind_each (hsrc : lists[src]? = some d) (fuel : Nat)
    (hfuel : d.elems.length < fuel) (m : Memory) (ys : List Value)
    (hm : Holds m (lists ++ [{ elems := ys, frozen := false }])) :
    ∃ m', push_while (len src) lists.length src fuel 0 m = .ok ((), m') ∧
      Holds m' (lists ++ [{ elems := ys ++ d.elems, frozen := false }]) := by
  obtain ⟨hmade, hsrc'⟩ := new_held hsrc ys
  obtain ⟨m', hrun, hm'⟩ := push_while_ok (len src) fuel 0 (lt_of_get hsrc).ne
    (fun _ _ hm hs => len_ok hm hs) (Nat.le_refl _) hm hmade hsrc' (by omega)
  refine ⟨m', hrun, ?_⟩
  rwa [changed_new, List.drop_zero, Nat.sub_zero, List.take_length] at hm'

/-- A range that begins and ends inside the array. -/
theorem assign_range_comes_to (hr : lists[r]? = some h) (hsmall : h.elems.length < 2 ^ 60)
    (hsrc : lists[src]? = some d) {first last : Option Int64} {exclusive : Bool} {p e : Int}
    (hp : (Subscript.range first last exclusive).first h.elems.length = p)
    (he : wrapped ((Subscript.range first last exclusive).last h.elems.length) = e) (hle : p ≤ h.elems.length)
    (hpos : 0 ≤ e) :
    ComesTo (fun fuel => assign_range fuel r (first.elim .nil .int) (last.elim .nil .int) exclusive (.array src)) lists r
      { elems := h.elems.take p.toNat ++ d.elems ++ h.elems.drop e.toNat
        made := some (h.elems.take p.toNat ++ d.elems ++ h.elems.drop e.toNat)
        reply := fun _ => .value (.array src) } := by
  have hsize : (Int64.ofNat h.elems.length).toInt = h.elems.length := toInt_ofNat (by omega)
  obtain ⟨ys, hys⟩ : ∃ ys, h.elems.take p.toNat ++ d.elems ++ h.elems.drop e.toNat = ys := ⟨_, rfl⟩
  rw [hys]
  refine ⟨max (h.elems.length + 1) (max (d.elems.length + 1) (ys.length + 1)), fun fuel hfuel m hm => ?_⟩
  obtain ⟨lo, hi, hlo, hhi, hrun⟩ := assign_range_eq src fuel hm hr hsmall
  rw [hp] at hlo
  rw [he] at hhi
  obtain ⟨m₁, m₂, m₃, hnew, hbefore, hpush, hm₃⟩ :=
    spliced_front fuel lo hm hr hsmall (by omega) (pushed_behind_each hsrc fuel (by omega)) (by omega)
  obtain ⟨m₄, hbehind, hm₄⟩ := spliced_behind fuel hi hr hsmall (by omega) hsize hm₃ (by omega)
  have hparts : h.elems.take lo.toInt.toNat ++ d.elems ++ h.elems.drop hi.toInt.toNat = ys := by
    have htake : lo.toInt.toNat = p.toNat := by omega
    have hdrop : h.elems.drop hi.toInt.toNat = h.elems.drop e.toNat := by
      rw [List.drop_eq_drop_iff]
      omega
    rw [htake, hdrop, hys]
  rw [hparts] at hm₄
  obtain ⟨m₅, m₆, hempty, hfill, hm₆⟩ := refilled fuel hr hm₄ (by omega)
  refine ⟨m₆, hrun.trans ?_, hm₆⟩
  rw [bind_ok hnew, bind_ok hbefore, bind_ok hpush, bind_ok hbehind, bind_ok hempty, bind_ok hfill]
  rfl

theorem tight_get (hr : lists[r]? = some h) :
    (tight lists)[r]? =
      some { buffer := { cells := h.elems.map some, len := h.elems.length }, frozen := h.frozen } :=
  List.getElem?_map.trans (congrArg (Option.map _) hr)

/-- A range that begins behind the array, or ends in front of it. -/
theorem assign_range_fault (hr : lists[r]? = some h) (hsmall : h.elems.length < 2 ^ 60)
    (hsrc : lists[src]? = some d) {first last : Option Int64} {exclusive : Bool} {p e : Int}
    (hp : (Subscript.range first last exclusive).first h.elems.length = p)
    (he : wrapped ((Subscript.range first last exclusive).last h.elems.length) = e)
    (houtside : (h.elems.length : Int) < p ∨ e < 0) (fuel : Nat) (hfuel : h.elems.length < fuel)
    (hfuel' : d.elems.length < fuel) :
    assign_range fuel r (first.elim .nil .int) (last.elim .nil .int) exclusive (.array src) (tight lists) =
      .error .fault := by
  have hm := holds_tight lists
  have hsize : (Int64.ofNat h.elems.length).toInt = h.elems.length := toInt_ofNat (by omega)
  obtain ⟨lo, hi, hlo, hhi, hrun⟩ := assign_range_eq src fuel hm hr hsmall
  rw [hp] at hlo
  rw [he] at hhi
  rw [hrun]
  by_cases hle : p ≤ h.elems.length
  · obtain ⟨m₁, m₂, m₃, hnew, hbefore, hpush, -⟩ :=
      spliced_front fuel lo hm hr hsmall (by omega) (pushed_behind_each hsrc fuel hfuel') hfuel
    have hneg : hi.toInt < 0 := by omega
    rw [bind_ok hnew, bind_ok hbefore, bind_ok hpush]
    exact bind_error (copy_each_fault hneg (by omega) (by omega))
  · let m₁ := tight lists ++ [({ buffer := .empty, frozen := false } : Cell)]
    have hnew : val_array_new (tight lists) = .ok (lists.length, m₁) := by rw [val_array_new, hm.length_eq]
    rw [bind_ok hnew]
    refine bind_error ?_
    have hlt : r < (tight lists).length := hm.length_eq ▸ lt_of_get hr
    have hget : m₁[r]? = _ := (List.getElem?_append_left hlt).trans (tight_get hr)
    have hcap : (h.elems.map some).length = h.elems.length := List.length_map _
    refine copy_each_beyond fuel (lt_of_get hr).ne hget (Int.le_refl 0) ?_ ?_ ?_
    all_goals simp only [Buffer.cap, hcap, Int64.toInt_zero]; omega

theorem drop_eq_drop_max_iff (xs : List Value) {p e : Int} (hp : p ≤ xs.length) (hpos : 0 ≤ p) (he : 0 ≤ e) :
    xs.drop e.toNat = xs.drop (max p e).toNat ↔ p ≤ e := by
  constructor
  · intro hsame
    have hlength := congrArg List.length hsame
    simp only [List.length_drop] at hlength
    omega
  · intro hle
    rw [max_eq_right hle]

theorem dispatched_range_iff (hr : lists[r]? = some h) (hf : h.frozen = false) (hsmall : h.elems.length < 2 ^ 60)
    (hsrc : lists[src]? = some d) (first last : Option Int64) (exclusive : Bool) :
    AssignsSlice .dispatched lists r h.elems (.range first last exclusive) src d.elems ↔
      Spliced .dispatched h.elems (.range first last exclusive) src d.elems := by
  obtain ⟨p, hp⟩ : ∃ p, (Subscript.range first last exclusive).first h.elems.length = p := ⟨_, rfl⟩
  obtain ⟨e, he⟩ : ∃ e, (Subscript.range first last exclusive).last h.elems.length = e := ⟨_, rfl⟩
  obtain ⟨e', he'⟩ : ∃ e', wrapped e = e' := ⟨_, rfl⟩
  have hbound : e ≤ 2 ^ 63 := by
    rw [← he]
    exact (last_bounds first last exclusive hsmall).2
  have hrun : ∀ fuel m, Holds m lists →
      Route.dispatched.assign fuel r ((Subscript.range first last exclusive).args ++ [.array src]) m =
        assign_range fuel r (first.elim .nil .int) (last.elim .nil .int) exclusive (.array src) m := by
    intro fuel m hm
    exact unless_frozen_ok hm hr hf
  have hspliced : Spliced .dispatched h.elems (.range first last exclusive) src d.elems ↔
      0 ≤ p ∧ p ≤ h.elems.length ∧ p ≤ e ∧ e < 2 ^ 63 := by
    rw [← hp, ← he]
    rfl
  have hwrapped : e' = if e = 2 ^ 63 then -2 ^ 63 else e := he'.symm
  rw [hspliced]
  by_cases hinside : p ≤ h.elems.length ∧ 0 ≤ e'
  · obtain ⟨hle, hpos⟩ := hinside
    have hcomes := (assign_range_comes_to hr hsmall hsrc hp (by rw [he, he']) hle hpos).congr hrun
    rw [assigns_slice_iff hr hcomes rfl, hp]
    refine and_congr_right fun hfirst => ?_
    have hshort : p.toNat - h.elems.length = 0 := by omega
    rw [Subscript.splice, hp, he, hshort, List.replicate_zero, List.append_nil, List.append_cancel_left_eq]
    split_ifs at hwrapped with hedge
    · omega
    · rw [hwrapped, drop_eq_drop_max_iff h.elems hle hfirst (by omega)]
      omega
  · refine iff_of_false ?_ (by split_ifs at hwrapped <;> omega)
    rintro ⟨effect, hcomes, -⟩
    refine not_comes_to_of_error .fault (max (h.elems.length + 1) (d.elems.length + 1)) (fun fuel hfuel => ?_) hcomes
    rw [hrun fuel _ (holds_tight lists)]
    exact assign_range_fault hr hsmall hsrc hp (by rw [he, he']) (by omega) fuel (by omega) (by omega)

/-- An assignment to a slice of an unfrozen array leaves what the slice calls for
exactly where `Spliced` says. -/
theorem assigns_slice_iff_spliced (route : Route) (hr : lists[r]? = some h) (hf : h.frozen = false)
    (hsmall : h.elems.length < 2 ^ 60) (hsrc : lists[src]? = some d) (sub : Subscript) (hslice : sub.IsSlice) :
    AssignsSlice route lists r h.elems sub src d.elems ↔ Spliced route h.elems sub src d.elems := by
  cases sub with
  | index i => exact hslice.elim
  | slice start count =>
    cases route with
    | shortcut => exact shortcut_slice_iff hr hf hsmall hsrc start count hslice
    | dispatched => exact dispatched_slice_iff hr hf hsmall start count hslice
  | range first last exclusive =>
    cases route with
    | shortcut => exact shortcut_range_iff hr hf hsmall first last exclusive
    | dispatched => exact dispatched_range_iff hr hf hsmall hsrc first last exclusive

end

/-! ### Instances -/

/-- Three Integers, and two others. -/
def three_and_two : List Held :=
  [{ elems := [.int 1, .int 2, .int 3], frozen := false }, { elems := [.int 8, .int 9], frozen := false }]

theorem assigns_slice_iff_spliced_middle :
    AssignsSlice .shortcut three_and_two 0 [.int 1, .int 2, .int 3] (.slice 1 1) 1 [.int 8, .int 9] ↔
      Spliced .shortcut [.int 1, .int 2, .int 3] (.slice 1 1) 1 [.int 8, .int 9] :=
  assigns_slice_iff_spliced .shortcut (h := three_and_two[0]) (d := three_and_two[1]) rfl rfl (by decide) rfl
    (.slice 1 1) (show 0 ≤ (1 : Int64).toInt by decide)

/-- `x[1..2] = [8, 9]` stores the array at index 0. -/
theorem range_assigned_as_index :
    ¬ AssignsSlice .shortcut three_and_two 0 [.int 1, .int 2, .int 3] (.range (some 1) (some 2) false) 1
      [.int 8, .int 9] := by
  intro hassigns
  obtain ⟨-, hsame⟩ := (shortcut_range_iff (h := three_and_two[0]) rfl rfl (by decide) _ _ _).mp hassigns
  cases List.head_eq_of_cons_eq hsame

end stoned.arrays
