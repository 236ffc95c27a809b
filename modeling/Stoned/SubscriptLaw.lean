import Stoned.ArraySlice
import Stoned.Subscript

namespace stoned.arrays

/-! What a subscript reads. -/

/-- A subscript whose parts are Integers; a range may have no first or no last one. -/
inductive Subscript where
  | range (first last : Option Int64) (exclusive : Bool)
  | slice (start n : Int64)
  | index (i : Int64)

namespace Subscript

def args : Subscript → List Value
  | .range first last exclusive => [.range (first.elim .nil .int) (last.elim .nil .int) exclusive]
  | .slice start n => [.int start, .int n]
  | .index i => [.int i]

/-- The index of the first element in an array of `n`. -/
def first (n : Nat) : Subscript → Int
  | .range first _ _ => first.elim 0 fun i => position i.toInt n
  | .slice start _ => position start.toInt n
  | .index i => position i.toInt n

/-- The index behind the last one. -/
def last (n : Nat) : Subscript → Int
  | .range _ last exclusive => last.elim n fun i => position i.toInt n + if exclusive then 0 else 1
  | .slice start count => position start.toInt n + count.toInt
  | .index i => position i.toInt n + 1

/-- The elements from the first one on, up to the last one or the end. -/
def part (xs : List Value) (sub : Subscript) : List Value :=
  list.part xs (sub.first xs.length).toNat (sub.last xs.length - sub.first xs.length).toNat

/-- What reading is to come to. -/
def law (xs : List Value) (sub : Subscript) : Effect :=
  let first := sub.first xs.length
  match sub with
  | .index _ => answers xs (.value (if 0 ≤ first then (xs[first.toNat]?).getD .nil else .nil))
  | .slice _ count =>
    if 0 ≤ first ∧ first ≤ xs.length ∧ 0 ≤ count.toInt then gives xs (sub.part xs) else answers xs (.value .nil)
  | .range .. => if 0 ≤ first ∧ first ≤ xs.length then gives xs (sub.part xs) else answers xs (.value .nil)

/-- A range begins inside the array and does not end before it begins, unless it
begins behind the end; no index is beyond 64 bits, unless nothing is left to read. -/
def Regular (n : Nat) (sub : Subscript) : Prop :=
  match sub with
  | .index _ => True
  | .slice .. => n ≤ sub.first n ∨ sub.last n < 2 ^ 63
  | .range .. =>
    0 ≤ sub.first n ∧
      (n < sub.first n ∨ sub.first n ≤ sub.last n ∧ (sub.last n < 2 ^ 63 ∨ sub.first n = n ∧ 0 < n))

instance (n : Nat) : (sub : Subscript) → Decidable (sub.Regular n)
  | .index _ => inferInstanceAs (Decidable True)
  | .slice .. => inferInstanceAs (Decidable (_ ∨ _))
  | .range .. => inferInstanceAs (Decidable (_ ∧ _))

end Subscript

/-! ### Runs -/

section runs
variable {method method' : Nat → Run Reply} {lists : List Held} {r : Ref} {h : Held} {e e' : Effect}

theorem ComesTo.congr (h : ComesTo method' lists r e)
    (hsame : ∀ fuel m, Holds m lists → method fuel m = method' fuel m) : ComesTo method lists r e := by
  obtain ⟨enough, hrun⟩ := h
  refine ⟨enough, fun fuel hfuel m hm => ?_⟩
  rw [hsame fuel m hm]
  exact hrun fuel hfuel m hm

theorem Holds.unique {m : Memory} {lists lists' : List Held} (h : Holds m lists) (h' : Holds m lists') :
    lists = lists' := by
  refine List.ext_get (h.length_eq.symm.trans h'.length_eq) fun i hi hi' => ?_
  have hm : i < m.length := h.length_eq ▸ hi
  obtain ⟨helems, hfrozen⟩ := List.Forall₂.get h hm hi
  obtain ⟨helems', hfrozen'⟩ := List.Forall₂.get h' hm hi'
  have hsame := helems.unique helems'
  have hflag := hfrozen.symm.trans hfrozen'
  generalize lists.get ⟨i, hi⟩ = held at hsame hflag
  cases held
  exact congrArg₂ Held.mk hsame hflag

/-- Arrays with no cell to spare. -/
def tight (lists : List Held) : Memory :=
  lists.map fun h => { buffer := { cells := h.elems.map some, len := h.elems.length }, frozen := h.frozen }

theorem holds_tight (lists : List Held) : Holds (tight lists) lists := by
  rw [Holds, tight, List.forall₂_map_left_iff, List.forall₂_same]
  exact fun h _ => ⟨⟨rfl, [], (List.append_nil _).symm⟩, rfl⟩

/-- A method comes to one effect only. -/
theorem ComesTo.unique (h : ComesTo method lists r e) (h' : ComesTo method lists r e') :
    e.reply lists.length = e'.reply lists.length ∧
      changed lists r e.elems ++ made_lists e.made = changed lists r e'.elems ++ made_lists e'.made := by
  obtain ⟨enough, hrun⟩ := h
  obtain ⟨enough', hrun'⟩ := h'
  obtain ⟨m, hm, hholds⟩ := hrun (max enough enough') (by omega) _ (holds_tight lists)
  obtain ⟨m', hm', hholds'⟩ := hrun' (max enough enough') (by omega) _ (holds_tight lists)
  rw [hm, Except.ok.injEq, Prod.mk.injEq] at hm'
  obtain ⟨hreply, rfl⟩ := hm'
  exact ⟨hreply, hholds.unique hholds'⟩

/-- What a method leaves of its receiver. -/
theorem ComesTo.elems_eq (hr : lists[r]? = some h) (hrun : ComesTo method lists r e)
    (hrun' : ComesTo method lists r e') : e.elems = e'.elems := by
  have hlists := congrArg (·[r]?) (hrun.unique hrun').2
  have hlt : r < lists.length := lt_of_get hr
  have hget : ∀ (ys : List Value) (more : List Held), (changed lists r ys ++ more)[r]? = some { h with elems := ys } := by
    intro ys more
    rw [List.getElem?_append_left (by rwa [length_changed]), changed_get hr]
  simp only [hget] at hlists
  exact congrArg Held.elems (Option.some.inj hlists)

theorem not_comes_to_other {xs ys zs : List Value} (h : ComesTo method lists r (gives xs ys)) (hne : ys ≠ zs) :
    ¬ ComesTo method lists r (gives xs zs) := by
  intro h'
  have hlists := List.append_cancel_left (h.unique h').2
  exact hne (congrArg Held.elems (List.cons.inj hlists).1)

theorem not_comes_to_nil {xs ys zs : List Value} (h : ComesTo method lists r (gives xs ys)) :
    ¬ ComesTo method lists r (answers zs (.value .nil)) := fun h' => by cases (h.unique h').1

end runs

/-! ### Copies -/

section copies
variable {m : Memory} {lists : List Held} {r : Ref} {h : Held} {lo hi : Int64}

theorem toInt_clamp_low (i : Int64) : (if i < 0 then 0 else i).toInt = max 0 i.toInt := by
  simp only [lt_zero_iff]
  split
  · rw [Int64.toInt_zero]
    omega
  · omega

theorem toInt_clamp_high {n : Nat} (hn : n < 2 ^ 60) (i : Int64) :
    (if .ofNat n < i then .ofNat n else i).toInt = min (n : Int) i.toInt := by
  simp only [Int64.lt_iff_toInt_lt, toInt_ofNat (show n < 2 ^ 63 by omega)]
  split
  · rw [toInt_ofNat (by omega)]
    omega
  · omega

theorem toInt_succ {i : Int64} (h : i.toInt < hi.toInt) : (i + 1).toInt = i.toInt + 1 := by
  have hone : (1 : Int64).toInt = 1 := rfl
  have hlow := (toInt_bounds i).1
  have hhigh := (toInt_bounds hi).2
  rw [toInt_add (by rw [hone]; constructor <;> omega), hone]

/-- From the first index of the buffer on. -/
theorem copy_each_eq (dst src : Ref) (hi : Int64) (fuel : Nat) {i : Int64} (hpos : 0 ≤ i.toInt) :
    copy_each dst src hi fuel i = slice_each src dst hi fuel i := by
  induction fuel generalizing i with
  | zero => rfl
  | succ fuel ih =>
    rw [copy_each, slice_each]
    split
    · rename_i hlt
      rw [Int64.lt_iff_toInt_lt] at hlt
      have hnext := toInt_succ hlt
      have hinside : ¬ i < 0 := by
        rw [lt_zero_iff]
        omega
      rw [read_at, if_neg hinside, ih (by omega)]
    · rfl

variable (lo hi) in
theorem copy_between_comes_to (hr : lists[r]? = some h) (hsmall : h.elems.length < 2 ^ 60) (hlo : 0 ≤ lo.toInt)
    (hhi : hi.toInt ≤ h.elems.length) :
    ComesTo (fun fuel => copy_between fuel r lo hi) lists r
      (gives h.elems (list.part h.elems lo.toInt.toNat (hi.toInt.toNat - lo.toInt.toNat))) := by
  refine comes_to_new (hi.toInt.toNat - lo.toInt.toNat + 1) fun fuel hfuel m hm => ?_
  have hlt := lt_of_get hr
  obtain ⟨m₁, hnew, hm₁⟩ := new_ok hm
  have hmade : (lists ++ [({ elems := [], frozen := false } : Held)])[lists.length]? =
      some { elems := [], frozen := false } := by simp
  have hr₁ : (lists ++ [({ elems := [], frozen := false } : Held)])[r]? = some h := by
    rwa [List.getElem?_append_left hlt]
  obtain ⟨m₂, heach, hm₂⟩ := slice_each_ok fuel hi lo hlt.ne hm₁ hmade hr₁ hsmall hlo hhi (by omega)
  refine ⟨m₂, ?_, ?_⟩
  · rw [copy_between, bind_ok hnew, copy_each_eq _ _ _ _ hlo, bind_ok heach]
    rfl
  · rw [changed_new, List.nil_append] at hm₂
    rwa [changed_same hr]

end copies

/-! ### The shortcut and the method -/

section subscripts
variable {lists : List Held} {r : Ref} {h : Held} {first last : Option Int64} {exclusive : Bool}

/-- The index behind the last one as a 64-bit number: the largest has no next one. -/
def wrapped (i : Int) : Int := if i = 2 ^ 63 then -2 ^ 63 else i

theorem toInt_first {n : Nat} (hn : n < 2 ^ 63) (i : Int64) :
    (if i < 0 then i + .ofNat n else i).toInt = position i.toInt n := toInt_position hn i

theorem toInt_last {n : Nat} (hn : n < 2 ^ 60) (i : Int64) (exclusive : Bool) :
    (let hi := if i < 0 then i + .ofNat n else i
      if exclusive then hi else hi + 1).toInt = wrapped (position i.toInt n + if exclusive then 0 else 1) := by
  have hpos := toInt_position (by omega : n < 2 ^ 63) i
  generalize (if i < 0 then i + .ofNat n else i) = j at hpos ⊢
  have hbounds := toInt_bounds j
  rw [← hpos]
  cases exclusive with
  | true =>
    simp only [if_true, Int.add_zero, wrapped]
    rw [if_neg (by omega)]
  | false =>
    have hone : (1 : Int64).toInt = 1 := rfl
    simp only [Bool.false_eq_true, if_false, wrapped]
    split
    · rename_i hmax
      rw [Int64.toInt_add, hone, hmax]
      rfl
    · rw [toInt_add (by rw [hone]; constructor <;> omega), hone]

variable (first last exclusive) in
theorem range_ends_eq {n : Nat} (hn : n < 2 ^ 60) :
    ∃ lo hi : Int64, range_ends (first.elim .nil .int) (last.elim .nil .int) exclusive (.ofNat n) = some (lo, hi) ∧
      lo.toInt = (Subscript.range first last exclusive).first n ∧
      hi.toInt = wrapped ((Subscript.range first last exclusive).last n) := by
  have hlo : ∀ i : Int64, (if i < 0 then i + .ofNat n else i).toInt = position i.toInt n := toInt_first (by omega)
  have hhi := fun i : Int64 => toInt_last hn i exclusive
  have hsize : (Int64.ofNat n).toInt = n := toInt_ofNat (by omega)
  have hplain : wrapped n = n := if_neg (by omega)
  cases first with
  | none =>
    cases last with
    | none => exact ⟨0, .ofNat n, rfl, rfl, hsize.trans hplain.symm⟩
    | some j => exact ⟨0, _, rfl, rfl, hhi j⟩
  | some i =>
    cases last with
    | none => exact ⟨_, .ofNat n, rfl, hlo i, hsize.trans hplain.symm⟩
    | some j => exact ⟨_, _, rfl, hlo i, hhi j⟩

/-- A range in the shortcut: it begins with the first element at the latest, and
it ends where it begins at the earliest. -/
theorem subscript_range_comes_to (hr : lists[r]? = some h) (hsmall : h.elems.length < 2 ^ 60) {p e : Int}
    (hp : (Subscript.range first last exclusive).first h.elems.length = p)
    (he : wrapped ((Subscript.range first last exclusive).last h.elems.length) = e) :
    ComesTo (fun fuel => subscript fuel r (Subscript.range first last exclusive).args) lists r
      (if (h.elems.length : Int) < p then answers h.elems (.value .nil)
      else gives h.elems (list.part h.elems (max 0 p : Int).toNat (e - max 0 p).toNat)) := by
  obtain ⟨lo, hi, hends, hlo, hhi⟩ := range_ends_eq first last exclusive hsmall
  rw [hp] at hlo
  rw [he] at hhi
  have hsize : (Int64.ofNat h.elems.length).toInt = h.elems.length := toInt_ofNat (by omega)
  let lo' : Int64 := if lo < 0 then 0 else lo
  let hi' : Int64 := if hi < lo' then lo' else hi
  let top : Int64 := if .ofNat h.elems.length < hi' then .ofNat h.elems.length else hi'
  have hlo' : lo'.toInt = max 0 p := (toInt_clamp_low lo).trans (congrArg (max 0) hlo)
  have hhi' : hi'.toInt = max (max 0 p) e := by
    simp only [hi', Int64.lt_iff_toInt_lt, hlo', hhi]
    split <;> omega
  have htop : top.toInt = min (h.elems.length : Int) (max (max 0 p) e) :=
    (toInt_clamp_high hsmall hi').trans (congrArg (min _) hhi')
  have hrun : ∀ fuel m, Holds m lists → subscript fuel r (Subscript.range first last exclusive).args m =
      (if Int64.ofNat h.elems.length < lo' then return .value .nil else copy_between fuel r lo' top : Run Reply) m := by
    intro fuel m hm
    have hexpand : subscript fuel r (Subscript.range first last exclusive).args =
        subscript_range fuel r (first.elim .nil .int) (last.elim .nil .int) exclusive := rfl
    rw [hexpand, subscript_range, bind_ok (len_ok hm hr), hends]
  refine ComesTo.congr ?_ hrun
  simp only [Int64.lt_iff_toInt_lt, hsize, hlo']
  by_cases hbehind : (h.elems.length : Int) < p
  · rw [if_pos hbehind]
    simp only [if_pos (show (h.elems.length : Int) < max 0 p by omega)]
    exact comes_to_same hr fun _ _ _ => rfl
  · rw [if_neg hbehind]
    simp only [if_neg (show ¬ (h.elems.length : Int) < max 0 p by omega)]
    have hcopy := copy_between_comes_to lo' top hr hsmall (by omega) (by omega)
    have hpart : list.part h.elems lo'.toInt.toNat (top.toInt.toNat - lo'.toInt.toNat) =
        list.part h.elems (max 0 p : Int).toNat (e - max 0 p).toNat := by
      rw [hlo', htop, list.part, list.part]
      refine List.take_eq_take_iff.mpr ?_
      rw [List.length_drop]
      omega
    rwa [hpart] at hcopy

/-- The end of a slice as an unsigned number. -/
theorem toNat_toUInt64_add {a b : Int64} (ha : 0 ≤ a.toInt) (hb : 0 ≤ b.toInt) :
    (a + b).toUInt64.toNat = (a.toInt + b.toInt).toNat := by
  have hvalue : ∀ i : Int64, 0 ≤ i.toInt → i.toUInt64.toNat = i.toInt.toNat := fun i hi =>
    Int64.toNat_toUInt64_of_le (Int64.le_iff_toInt_le.mpr hi)
  have hbounds := toInt_bounds a
  have hbounds' := toInt_bounds b
  rw [Int64.toUInt64_add, UInt64.toNat_add, hvalue a ha, hvalue b hb]
  omega

theorem subscript_slice_comes_to (hr : lists[r]? = some h) (hsmall : h.elems.length < 2 ^ 60) (start count : Int64) :
    ComesTo (fun fuel => subscript fuel r (Subscript.slice start count).args) lists r
      ((Subscript.slice start count).law h.elems) := by
  have hsize : (Int64.ofNat h.elems.length).toInt = h.elems.length := toInt_ofNat (by omega)
  have hbounds := toInt_bounds count
  let lo : Int64 := if start < 0 then start + .ofNat h.elems.length else start
  have hlo : lo.toInt = position start.toInt h.elems.length := toInt_position (by omega) start
  let n : Int64 := if .ofNat h.elems.length < (lo + count).toUInt64 then .ofNat h.elems.length - lo else count
  have hrun : ∀ fuel m, Holds m lists → subscript fuel r (Subscript.slice start count).args m =
      (if lo < 0 ∨ .ofNat h.elems.length < lo ∨ count < 0 then return .value .nil
      else copy_between fuel r lo (lo + n) : Run Reply) m := by
    intro fuel m hm
    have hexpand : subscript fuel r (Subscript.slice start count).args = subscript_slice fuel r (.int start) count := rfl
    rw [hexpand, subscript_slice, bind_ok (len_ok hm hr)]
    rfl
  refine ComesTo.congr ?_ hrun
  simp only [Subscript.law, Subscript.first, ← hlo]
  generalize hp : lo.toInt = p at hlo
  by_cases hinside : 0 ≤ p ∧ p ≤ h.elems.length ∧ 0 ≤ count.toInt
  · have hgoes : ¬ (lo < 0 ∨ Int64.ofNat h.elems.length < lo ∨ count < 0) := by
      simp only [Int64.lt_iff_toInt_lt, hsize, hp, Int64.toInt_zero]
      omega
    rw [if_pos hinside]
    simp only [if_neg hgoes]
    have hend : (lo + n).toInt = min (h.elems.length : Int) (p + count.toInt) := by
      have hbeyond : UInt64.ofNat h.elems.length < (lo + count).toUInt64 ↔ (h.elems.length : Int) < p + count.toInt := by
        rw [UInt64.lt_iff_toNat_lt, toNat_toUInt64_add (by omega) hinside.2.2, UInt64.toNat_ofNat_of_lt' (show _ < 2 ^ 64 by omega), hp]
        omega
      simp only [n, hbeyond]
      split
      · have hrest : (Int64.ofNat h.elems.length - lo).toInt = h.elems.length - p := by
          rw [toInt_sub (by rw [hsize, hp]; constructor <;> omega), hsize, hp]
        rw [toInt_add (by rw [hrest, hp]; constructor <;> omega), hrest, hp]
        omega
      · rw [toInt_add (by rw [hp]; constructor <;> omega), hp]
        omega
    have hcopy := copy_between_comes_to lo (lo + n) hr hsmall (by omega) (by omega)
    have hpart : list.part h.elems lo.toInt.toNat ((lo + n).toInt.toNat - lo.toInt.toNat) =
        (Subscript.slice start count).part h.elems := by
      simp only [Subscript.part, Subscript.first, Subscript.last, ← hlo, hend, hp, list.part]
      refine List.take_eq_take_iff.mpr ?_
      rw [List.length_drop]
      omega
    rwa [hpart] at hcopy
  · have hout : lo < 0 ∨ Int64.ofNat h.elems.length < lo ∨ count < 0 := by
      simp only [Int64.lt_iff_toInt_lt, hsize, hp, Int64.toInt_zero]
      omega
    rw [if_neg hinside]
    simp only [if_pos hout]
    exact comes_to_same hr fun _ _ _ => rfl

/-- One element is read, where there is one. -/
theorem read_element (hr : lists[r]? = some h) (hsmall : h.elems.length < 2 ^ 60) {idx : Int64} {p : Int}
    (hp : idx.toInt = p) {m : Memory} (hm : Holds m lists) :
    (if idx < 0 ∨ .ofNat h.elems.length ≤ idx then return .value .nil else return .value (← read_at r idx) : Run Reply) m =
      .ok (.value (if 0 ≤ p then (h.elems[p.toNat]?).getD .nil else .nil), m) := by
  have hsize : (Int64.ofNat h.elems.length).toInt = h.elems.length := toInt_ofNat (by omega)
  simp only [Int64.lt_iff_toInt_lt, Int64.le_iff_toInt_le, hsize, hp, Int64.toInt_zero]
  by_cases hinside : 0 ≤ p ∧ p < h.elems.length
  · have hlt : p.toNat < h.elems.length := by omega
    have hpos : ¬ idx < 0 := by
      rw [lt_zero_iff, hp]
      omega
    rw [if_neg (by omega), if_pos hinside.1, read_at, if_neg hpos, hp, bind_ok (read_ok hm hr hlt),
      List.getElem?_eq_getElem hlt]
    rfl
  · rw [if_pos (by omega)]
    by_cases hpos : 0 ≤ p
    · rw [if_pos hpos, List.getElem?_eq_none (by omega)]
      rfl
    · rw [if_neg hpos]
      rfl

theorem subscript_index_comes_to (hr : lists[r]? = some h) (hsmall : h.elems.length < 2 ^ 60) (i : Int64) :
    ComesTo (fun fuel => subscript fuel r (Subscript.index i).args) lists r ((Subscript.index i).law h.elems) := by
  let idx : Int64 := if i < 0 then .ofNat h.elems.length + i else i
  have hidx : idx.toInt = position i.toInt h.elems.length := by
    simp only [idx, Int64.add_comm]
    exact toInt_position (by omega) i
  refine comes_to_same hr fun fuel m hm => ?_
  have hexpand : subscript fuel r (Subscript.index i).args = subscript_index r (.int i) := rfl
  rw [hexpand, subscript_index, bind_ok (len_ok hm hr)]
  exact read_element hr hsmall hidx hm

/-! ### The method -/

/-- The method, with the first index and the length its arguments say. -/
theorem slice_comes_to (args : List Value) (hr : lists[r]? = some h) (hsmall : h.elems.length < 2 ^ 60) {idx n : Int64}
    (hbounds : slice_bounds args (.ofNat h.elems.length) = some (idx, n)) (hsingle : single_index args = false) {p c : Int}
    (hp : idx.toInt = p) (hc : n.toInt = c) :
    ComesTo (fun fuel => slice fuel r args) lists r
      (if 0 ≤ p ∧ p ≤ h.elems.length ∧ 0 ≤ c then
        gives h.elems (if p + c < 2 ^ 63 then list.part h.elems p.toNat c.toNat else [])
      else answers h.elems (.value .nil)) := by
  have hsize : (Int64.ofNat h.elems.length).toInt = h.elems.length := toInt_ofNat (by omega)
  have hrange := toInt_bounds n
  have hnonempty : args.isEmpty = false := by
    cases args with
    | nil => cases hbounds
    | cons => rfl
  let count : Int64 := if .ofNat h.elems.length < idx + n then .ofNat h.elems.length - idx else n
  have hrun : ∀ fuel m, Holds m lists → slice fuel r args m =
      (if idx < 0 ∨ .ofNat h.elems.length < idx ∨ n < 0 then return .value .nil
      else copy_between fuel r idx (idx + count) : Run Reply) m := by
    intro fuel m hm
    rw [slice, hnonempty]
    simp only [Bool.false_eq_true, if_false]
    rw [bind_ok (len_ok hm hr)]
    simp only [hbounds, hsingle, Bool.false_eq_true, if_false]
    rfl
  refine ComesTo.congr ?_ hrun
  simp only [Int64.lt_iff_toInt_lt, hsize, hp, hc, Int64.toInt_zero]
  by_cases hinside : 0 ≤ p ∧ p ≤ h.elems.length ∧ 0 ≤ c
  · rw [if_pos hinside]
    simp only [if_neg (show ¬ (p < 0 ∨ (h.elems.length : Int) < p ∨ c < 0) by omega)]
    by_cases hfits : p + c < 2 ^ 63
    · rw [if_pos hfits]
      have hsum : (idx + n).toInt = p + c := by rw [toInt_add (by rw [hp, hc]; constructor <;> omega), hp, hc]
      have hend : (idx + count).toInt = min (h.elems.length : Int) (p + c) := by
        simp only [count, Int64.lt_iff_toInt_lt, hsize, hsum]
        split
        · have hrest : (Int64.ofNat h.elems.length - idx).toInt = h.elems.length - p := by
            rw [toInt_sub (by rw [hsize, hp]; constructor <;> omega), hsize, hp]
          rw [toInt_add (by rw [hrest, hp]; constructor <;> omega), hrest, hp]
          omega
        · rw [hsum]
          omega
      have hcopy := copy_between_comes_to idx (idx + count) hr hsmall (by omega) (by omega)
      have hpart : list.part h.elems idx.toInt.toNat ((idx + count).toInt.toNat - idx.toInt.toNat) =
          list.part h.elems p.toNat c.toNat := by
        rw [hend, hp, list.part, list.part]
        refine List.take_eq_take_iff.mpr ?_
        rw [List.length_drop]
        omega
      rwa [hpart] at hcopy
    · rw [if_neg hfits]
      -- the sum is negative
      have hsum : (idx + n).toInt < 0 := by
        rw [Int64.toInt_add, hp, hc, Int.bmod_eq_emod]
        split <;> omega
      have hcount : count = n := if_neg (by rw [Int64.lt_iff_toInt_lt, hsize]; omega)
      have hcopy := copy_between_comes_to idx (idx + count) hr hsmall (by omega) (by rw [hcount]; omega)
      have hpart : list.part h.elems idx.toInt.toNat ((idx + count).toInt.toNat - idx.toInt.toNat) = [] := by
        rw [hcount, Int.toNat_of_nonpos (Int.le_of_lt hsum), Nat.zero_sub]
        exact List.take_zero
      rwa [hpart] at hcopy
  · rw [if_neg hinside]
    simp only [if_pos (show p < 0 ∨ (h.elems.length : Int) < p ∨ c < 0 by omega)]
    exact comes_to_same hr fun _ _ _ => rfl

theorem slice_index_comes_to (hr : lists[r]? = some h) (hsmall : h.elems.length < 2 ^ 60) (i : Int64) :
    ComesTo (fun fuel => slice fuel r (Subscript.index i).args) lists r ((Subscript.index i).law h.elems) := by
  have hsize : (Int64.ofNat h.elems.length).toInt = h.elems.length := toInt_ofNat (by omega)
  let idx : Int64 := if i < 0 then i + .ofNat h.elems.length else i
  have hidx : idx.toInt = position i.toInt h.elems.length := toInt_position (by omega) i
  refine comes_to_same hr fun fuel m hm => ?_
  have hexpand : slice fuel r (Subscript.index i).args m =
      (if idx < 0 ∨ .ofNat h.elems.length ≤ idx then return .value .nil
      else return .value (← read_at r idx) : Run Reply) m := by
    change (len r >>= _) m = _
    rw [bind_ok (len_ok hm hr)]
    change (if idx < 0 ∨ Int64.ofNat h.elems.length < idx ∨ (1 : Int64) < 0 then (return .value .nil : Run Reply)
      else if idx < .ofNat h.elems.length then return .value (← read_at r idx) else return .value .nil) m = _
    simp only [Int64.lt_iff_toInt_lt, Int64.le_iff_toInt_le, hsize, hidx, Int64.toInt_zero]
    have hone : ¬ (1 : Int64).toInt < 0 := by decide
    split_ifs <;> first | rfl | omega
  rw [hexpand]
  exact read_element hr hsmall hidx hm

variable (first last exclusive) in
theorem range_bounds_eq {n : Nat} (hn : n < 2 ^ 60) :
    ∃ lo hi : Int64, range_bounds (first.elim .nil .int) (last.elim .nil .int) exclusive (.ofNat n) = (lo, hi - lo) ∧
      lo.toInt = (Subscript.range first last exclusive).first n ∧
      (hi.toInt = wrapped ((Subscript.range first last exclusive).last n) ∨
        hi.toInt = n + 1 ∧ (Subscript.range first last exclusive).last n = n) := by
  have hhi := fun i : Int64 => toInt_last hn i exclusive
  have hsize : (Int64.ofNat n).toInt = n := toInt_ofNat (by omega)
  have hinside : ¬ Int64.ofNat n < 0 := by
    rw [lt_zero_iff, hsize]
    omega
  have hplain : (if Int64.ofNat n < 0 then Int64.ofNat n + .ofNat n else .ofNat n) = .ofNat n := if_neg hinside
  have hlo : (let lo := first.elim 0 id
      if lo < 0 then lo + .ofNat n else lo).toInt = (Subscript.range first last exclusive).first n := by
    cases first with
    | none => rfl
    | some i => exact toInt_first (by omega) i
  cases last with
  | none =>
    have hbounds : range_bounds (first.elim .nil .int) .nil exclusive (.ofNat n) =
        (let lo := first.elim 0 id
          if lo < 0 then lo + .ofNat n else lo,
          (if exclusive then .ofNat n else .ofNat n + 1) - let lo := first.elim 0 id
            if lo < 0 then lo + .ofNat n else lo) := by
      cases first <;> simp only [range_bounds, Option.elim, hplain] <;> rfl
    refine ⟨_, _, hbounds, hlo, ?_⟩
    cases exclusive with
    | true => exact .inl (hsize.trans (if_neg (by simp only [Subscript.last, Option.elim]; omega)).symm)
    | false =>
      have hone : (1 : Int64).toInt = 1 := rfl
      refine .inr ⟨?_, rfl⟩
      simp only [Bool.false_eq_true, if_false]
      rw [toInt_add (by rw [hsize, hone]; constructor <;> omega), hsize, hone]
  | some j =>
    refine ⟨_, _, rfl, ?_, .inl (hhi j)⟩
    cases first <;> exact hlo

variable (first last exclusive) in
theorem last_bounds {n : Nat} (hn : n < 2 ^ 60) :
    n - 2 ^ 63 ≤ (Subscript.range first last exclusive).last n ∧ (Subscript.range first last exclusive).last n ≤ 2 ^ 63 := by
  cases last with
  | none =>
    simp only [Subscript.last, Option.elim]
    omega
  | some j =>
    have hj := toInt_bounds j
    simp only [Subscript.last, Option.elim, position]
    cases exclusive <;> simp only [Bool.false_eq_true, if_false, if_true] <;> split <;> omega

/-- A range in the method: it is nil where it ends before it begins. -/
theorem slice_range_comes_to (hr : lists[r]? = some h) (hsmall : h.elems.length < 2 ^ 60) {p e : Int}
    (hp : (Subscript.range first last exclusive).first h.elems.length = p)
    (he : (Subscript.range first last exclusive).last h.elems.length = e) :
    ComesTo (fun fuel => slice fuel r (Subscript.range first last exclusive).args) lists r
      (if 0 ≤ p ∧ p ≤ h.elems.length ∧ p ≤ e ∧ (e < 2 ^ 63 ∨ 0 < p) then
        gives h.elems (if e < 2 ^ 63 then list.part h.elems p.toNat (e - p).toNat else [])
      else answers h.elems (.value .nil)) := by
  obtain ⟨lo, hi, hbounds, hlo, hhi⟩ :=
    range_bounds_eq first last exclusive hsmall
  have hlast := last_bounds first last exclusive hsmall
  rw [hp] at hlo
  rw [he] at hhi hlast
  have hslice := slice_comes_to (Subscript.range first last exclusive).args hr hsmall
    (congrArg some hbounds) rfl hlo rfl
  by_cases hinside : 0 ≤ p ∧ p ≤ h.elems.length
  · by_cases hmax : e < 2 ^ 63
    · -- nothing overflows
      have hwrapped : wrapped e = e := if_neg (by omega)
      have hcount : (hi - lo).toInt = hi.toInt - p := by
        rw [toInt_sub (by rw [hlo]; constructor <;> omega), hlo]
      rw [hcount] at hslice
      by_cases hgoes : p ≤ e
      · rw [if_pos ⟨hinside.1, hinside.2, by omega⟩, if_pos (by omega)] at hslice
        rw [if_pos ⟨hinside.1, hinside.2, hgoes, .inl hmax⟩, if_pos hmax]
        have hpart : list.part h.elems p.toNat (hi.toInt - p).toNat = list.part h.elems p.toNat (e - p).toNat := by
          rw [list.part, list.part]
          refine List.take_eq_take_iff.mpr ?_
          rw [List.length_drop]
          omega
        rwa [hpart] at hslice
      · rw [if_neg (by omega)] at hslice
        rwa [if_neg (by omega)]
    · have hwrapped : wrapped e = -2 ^ 63 := if_pos (by omega)
      have hhi : hi.toInt = -2 ^ 63 := by omega
      have hcount : (hi - lo).toInt = if 0 < p then 2 ^ 63 - p else -2 ^ 63 := by
        rw [Int64.toInt_sub, hhi, hlo, Int.bmod_eq_emod]
        split <;> split <;> omega
      rw [hcount] at hslice
      by_cases hpos : 0 < p
      · rw [if_pos hpos, if_pos ⟨hinside.1, hinside.2, by omega⟩, if_neg (by omega)] at hslice
        rwa [if_pos ⟨hinside.1, hinside.2, by omega, .inr hpos⟩, if_neg hmax]
      · rw [if_neg hpos, if_neg (by omega)] at hslice
        rwa [if_neg (by omega)]
  · rw [if_neg fun h => hinside ⟨h.1, h.2.1⟩] at hslice
    rwa [if_neg fun h => hinside ⟨h.1, h.2.1⟩]

end subscripts

/-! ### The law -/

section law
variable {lists : List Held} {r : Ref} {h : Held} {sub : Subscript}

/-- The shortcut and the method read what the subscript says, and so the same. -/
def ReadsAlike (lists : List Held) (r : Ref) (xs : List Value) (sub : Subscript) : Prop :=
  ComesTo (fun fuel => subscript fuel r sub.args) lists r (sub.law xs) ∧
    ComesTo (fun fuel => slice fuel r sub.args) lists r (sub.law xs)

theorem part_eq_nil_iff {xs : List Value} {i n : Nat} : list.part xs i n = [] ↔ xs.length ≤ i ∨ n = 0 := by
  rw [list.part, List.take_eq_nil_iff, List.drop_eq_nil_iff]
  exact or_comm

theorem slice_reads_iff (hr : lists[r]? = some h) (hsmall : h.elems.length < 2 ^ 60) (start count : Int64) :
    ReadsAlike lists r h.elems (.slice start count) ↔ (Subscript.slice start count).Regular h.elems.length := by
  obtain ⟨p, hp⟩ : ∃ p, position start.toInt h.elems.length = p := ⟨_, rfl⟩
  have hmethod := slice_comes_to (Subscript.slice start count).args hr hsmall rfl rfl
    ((toInt_position (by omega) start).trans hp) (c := count.toInt) rfl
  have hcount := toInt_bounds count
  have hregular : (Subscript.slice start count).Regular h.elems.length ↔
      (h.elems.length : Int) ≤ p ∨ p + count.toInt < 2 ^ 63 := by
    rw [← hp]
    rfl
  have hpart : (Subscript.slice start count).part h.elems = list.part h.elems p.toNat count.toInt.toNat := by
    simp only [Subscript.part, Subscript.first, Subscript.last, hp, add_sub_cancel_left]
  have hlaw : (Subscript.slice start count).law h.elems =
      if 0 ≤ p ∧ p ≤ h.elems.length ∧ 0 ≤ count.toInt then gives h.elems (list.part h.elems p.toNat count.toInt.toNat)
      else answers h.elems (.value .nil) := by
    rw [← hpart, ← hp]
    rfl
  rw [ReadsAlike, and_iff_right (subscript_slice_comes_to hr hsmall start count), hregular, hlaw]
  by_cases hinside : 0 ≤ p ∧ p ≤ h.elems.length ∧ 0 ≤ count.toInt
  · rw [if_pos hinside] at hmethod ⊢
    by_cases hfits : p + count.toInt < 2 ^ 63
    · rw [if_pos hfits] at hmethod
      exact iff_of_true hmethod (.inr hfits)
    · rw [if_neg hfits] at hmethod
      by_cases hempty : list.part h.elems p.toNat count.toInt.toNat = []
      · rw [hempty]
        refine iff_of_true hmethod (.inl ?_)
        rcases part_eq_nil_iff.mp hempty with hall | hnone <;> omega
      · refine iff_of_false (not_comes_to_other hmethod (Ne.symm hempty)) ?_
        rw [part_eq_nil_iff] at hempty
        omega
  · rw [if_neg hinside] at hmethod ⊢
    exact iff_of_true hmethod (by omega)

theorem range_reads_iff (hr : lists[r]? = some h) (hsmall : h.elems.length < 2 ^ 60) (first last : Option Int64)
    (exclusive : Bool) :
    ReadsAlike lists r h.elems (.range first last exclusive) ↔
      (Subscript.range first last exclusive).Regular h.elems.length := by
  obtain ⟨p, hp⟩ : ∃ p, (Subscript.range first last exclusive).first h.elems.length = p := ⟨_, rfl⟩
  obtain ⟨e, he⟩ : ∃ e, (Subscript.range first last exclusive).last h.elems.length = e := ⟨_, rfl⟩
  have hshortcut := subscript_range_comes_to hr hsmall hp (congrArg wrapped he)
  have hmethod := slice_range_comes_to hr hsmall hp he
  have hlast := last_bounds first last exclusive hsmall
  rw [he] at hlast
  have hregular : (Subscript.range first last exclusive).Regular h.elems.length ↔
      0 ≤ p ∧ ((h.elems.length : Int) < p ∨ p ≤ e ∧ (e < 2 ^ 63 ∨ p = h.elems.length ∧ 0 < h.elems.length)) := by
    rw [← hp, ← he]
    rfl
  have hlaw : (Subscript.range first last exclusive).law h.elems =
      if 0 ≤ p ∧ p ≤ h.elems.length then gives h.elems (list.part h.elems p.toNat (e - p).toNat)
      else answers h.elems (.value .nil) := by
    rw [← hp, ← he]
    rfl
  rw [ReadsAlike, hregular, hlaw]
  by_cases hneg : p < 0
  · -- the shortcut begins with the first element
    rw [if_neg (by omega)] at hshortcut
    rw [if_neg (by omega)]
    exact iff_of_false (fun h => not_comes_to_nil hshortcut h.1) (by omega)
  by_cases hbehind : (h.elems.length : Int) < p
  · rw [if_pos hbehind] at hshortcut
    rw [if_neg (by omega)] at hmethod ⊢
    exact iff_of_true ⟨hshortcut, hmethod⟩ (by omega)
  rw [if_neg hbehind, max_eq_right (by omega)] at hshortcut
  rw [if_pos (by omega)]
  by_cases hmax : e < 2 ^ 63
  · rw [wrapped, if_neg (by omega)] at hshortcut
    by_cases hgoes : p ≤ e
    · rw [if_pos ⟨by omega, by omega, hgoes, .inl hmax⟩, if_pos hmax] at hmethod
      exact iff_of_true ⟨hshortcut, hmethod⟩ (by omega)
    · -- the method is nil where the range ends before it begins
      rw [if_neg (by omega)] at hmethod
      exact iff_of_false (fun h => not_comes_to_nil h.2 hmethod) (by omega)
  · rw [wrapped, if_pos (by omega), Int.toNat_of_nonpos (by omega : -2 ^ 63 - p ≤ 0)] at hshortcut
    have hnone : list.part h.elems p.toNat 0 = [] := List.take_zero
    rw [hnone] at hshortcut
    by_cases hempty : list.part h.elems p.toNat (e - p).toNat = []
    · rw [hempty]
      have hall : h.elems.length ≤ p.toNat := by
        rcases part_eq_nil_iff.mp hempty with hall | hzero <;> omega
      by_cases hpos : 0 < p
      · rw [if_pos ⟨by omega, by omega, by omega, .inr hpos⟩, if_neg hmax] at hmethod
        exact iff_of_true ⟨hshortcut, hmethod⟩ (by omega)
      · rw [if_neg (by omega)] at hmethod
        exact iff_of_false (fun h => not_comes_to_nil h.2 hmethod) (by omega)
    · refine iff_of_false (fun h => not_comes_to_other hshortcut (Ne.symm hempty) h.1) ?_
      rw [part_eq_nil_iff] at hempty
      omega

/-- The shortcut of eval_call and the method read the same, and what the subscript
says, exactly where the subscript is regular. -/
theorem subscripts_read_alike_iff (hr : lists[r]? = some h) (hsmall : h.elems.length < 2 ^ 60) (sub : Subscript) :
    ReadsAlike lists r h.elems sub ↔ sub.Regular h.elems.length := by
  cases sub with
  | range first last exclusive => exact range_reads_iff hr hsmall first last exclusive
  | slice start count => exact slice_reads_iff hr hsmall start count
  | index i => exact iff_of_true ⟨subscript_index_comes_to hr hsmall i, slice_index_comes_to hr hsmall i⟩ trivial

/-- x[-1..] of an array of two. -/
theorem subscripts_read_alike_last :
    ReadsAlike [{ elems := [.int 7, .int 8], frozen := false }] 0 [.int 7, .int 8] (.range (some (-1)) none false) :=
  (subscripts_read_alike_iff (h := { elems := [.int 7, .int 8], frozen := false }) rfl (by decide) _).mpr (by decide)

/-- x[-3..1] of an array of two is not nil in the shortcut. -/
theorem shortcut_begins_before_array :
    ¬ ReadsAlike [{ elems := [.int 7, .int 8], frozen := false }] 0 [.int 7, .int 8]
      (.range (some (-3)) (some 1) false) := by
  intro hreads
  have hregular :=
    (subscripts_read_alike_iff (h := { elems := [.int 7, .int 8], frozen := false }) rfl (by decide) _).mp hreads
  exact absurd hregular (by decide)

end law
end stoned.arrays
